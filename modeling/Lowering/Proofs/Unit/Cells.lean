import Lowering.Proofs.Body.Fields
import Lowering.Proofs.Body.Store
import Lowering.Proofs.Machine.Bounds
import Lowering.Proofs.Unit.Layout
import Lowering.Proofs.Unit.Overloads
/-!
# Fields of structures are cells of their own

In a module whose structures have different names, a path through a structure leads to a range of bytes of it. What is
stored through one path is read back through it and shows through no other path, unless one of them goes on where the
other ends.

The paths through the null address lead to the same distances. The machine refuses to access only the first bytes of
memory, so that a field behind them is accessed like any other.
-/

namespace Lowering

open IR (Argument StructDeclaration)

/-! ### Accesses -/

namespace Site

variable (site : Site) (c : Catalog) (steps : List Step) (a : Nat) (M : Memory) (x : Scalar)

/-- The code that reads a path gives a scalar, from wherever the address of the structure is. -/
def Reads : Prop :=
  ∀ (base : Argument) (w : Workspace) (R : Registers), R.argument base = .ok (.address a) →
    ∃ code value w' R', walkSteps c true base steps w = .ok (code, value) w' ∧ site.Runs code R M R' M ∧
      R'.argument value = .ok x

/-- The code that stores a scalar of a type through a path changes memory. -/
def Writes (t : TypeRef) (M' : Memory) : Prop :=
  ∀ (base value : Argument) (w : Workspace) (R : Registers), R.argument base = .ok (.address a) → value.ty = t.irType →
    value.value.Below w.fresh → R.argument value = .ok x →
      ∃ code address w' R', walkSteps c false base steps w = .ok (code, address) w' ∧
        site.Runs (code ++ [.store address value]) R M R' M'

end Site

namespace Catalog

variable {c : Catalog} (hc : c.Sound) {t target : TypeRef} {steps : List Step} (h : c.Inside t steps target)
  (ht : c.Usable t) (hsmall : ∀ step ∈ steps, step.index < 2 ^ 31) {site : Site}
  (hm : c.DeclaredIn site.program) {a : Nat}
  (hstop : a + (c.sizeOf? t).getD 0 < 2 ^ 64) {M M' : Memory} {x : Scalar}
include hc h ht hsmall hm hstop

theorem Inside.reads (hlin : t.isLinear = true) (hscalar : target.isScalar = true)
    (hload : loadScalar site.program M target.storageType (UInt64.ofNat (a + c.distance steps)) = .ok x) :
    site.Reads c steps a M x := by
  have hsteps : steps ≠ [] := by
    rintro rfl
    rw [h.eq_of_nil, TypeRef.isLinear_of_isScalar hscalar] at hlin
    cases hlin
  intro base w R hbase
  obtain ⟨code, address, -, hread, hruns⟩ := h.walk hc ht hsmall base w
  obtain ⟨-, hread⟩ := hread hsteps
  rw [TypeRef.isLinear_of_isScalar hscalar] at hread
  obtain ⟨R', -, hruns, haddress⟩ := hruns hm hstop hbase
  exact ⟨_, _, _, _, hread, (hruns M).append (.fetch (Registers.load_eq_ok.2 ⟨_, haddress, hload⟩)),
    Registers.argument_set_self ..⟩

theorem Inside.writes
    (hstore : storeScalar site.program target.irType (UInt64.ofNat (a + c.distance steps)) x M = .ok () M') :
    site.Writes c steps a M x target M' := by
  rintro base ⟨ty, o⟩ w R hbase rfl hbelow ho
  obtain ⟨code, address, hcode, -, hruns⟩ := h.walk hc ht hsmall base w
  obtain ⟨R', hchanges, hruns, haddress⟩ := hruns hm hstop hbase
  refine ⟨code, address, _, R', hcode, (hruns M).append (.keep haddress ?_ hstore)⟩
  exact (hchanges.agreeBelow.operand hbelow _).trans ho

end Catalog

/-- **Field paths are independent cells** of an instance of `s`: each lies inside the instance, two of which none
continues the other share no byte, and every byte is one of a scalar. `walkSteps` comes to the address of a path, and
what is stored there is loaded again and changes nothing else; code holds positions of fields in 32 bits, so this is
said where they are below `2 ^ 31`. -/
theorem paths_are_cells {fileId : Nat} {options : Options} {u : SourceUnit} {m : IR.Module}
    (hm : (compileUnit fileId options u).1 = .ok m) (hnames : (m.structures.map StructDeclaration.name).Nodup)
    {s : Structure} (hs : s ∈ (typesOf fileId u).structures) {layout : Layout} (hlayout : s.layout? = some layout) :
    let c := typesOf fileId u
    (∀ {p t}, c.PathInto s.ref p t → ∃ n, c.sizeOf? t = some n ∧ c.distance p + n ≤ layout.size ∧
      ∀ {q t'}, c.PathInto s.ref q t' → ¬ p <+: q → ¬ q <+: p → ∃ n', c.sizeOf? t' = some n' ∧
        (c.distance p + n ≤ c.distance q ∨ c.distance q + n' ≤ c.distance p)) ∧
    (∀ i < layout.size, ∃ p t n, c.PathInto s.ref p t ∧ t.isScalar = true ∧ c.sizeOf? t = some n ∧
      c.distance p ≤ i ∧ i < c.distance p + n) ∧
    ∀ {site : Site} {M : Memory} {a : Nat} {p t}, site.program = m → M.Proper → M.Has a layout.size →
      c.PathInto s.ref p t → (∀ step ∈ p, step.index < 2 ^ 31) →
        (∀ base w R, R.argument base = .ok (.address a) → ∃ code address w' R',
          walkSteps c false base p w = .ok (code, address) w' ∧ site.Runs code R M R' M ∧
            R'.argument address = .ok (.address (a + c.distance p))) ∧
        ∀ {x : Scalar}, t.isScalar = true → x.HasType t.irType → ∃ M', site.Writes c p a M x t M' ∧ M'.size = M.size ∧
          (∀ i, ¬ (a ≤ i ∧ i < a + layout.size) → M'.byteAt i = M.byteAt i) ∧ site.Reads c p a M' x ∧
          ∀ {q t'}, c.PathInto s.ref q t' → (∀ step ∈ q, step.index < 2 ^ 31) → t'.isScalar = true →
            ¬ p <+: q → ¬ q <+: p → ∃ y, site.Reads c q a M y ∧ site.Reads c q a M' y := by
  intro c
  have hc : c.Sound := (typesOf_sound fileId u).1
  obtain ⟨hlayout', ht, hsize⟩ := hc.usable_of_mem hs hlayout
  have hdeclared : c.DeclaredIn m := compileUnit_declaredIn hm hnames
  have hsized {t : TypeRef} (ht : c.Usable t) : c.sizeOf? t = some ((c.sizeOf? t).getD 0) := by
    obtain ⟨n, hn⟩ := ht.exists_size
    simp [hn]
  simp only [hc.pathInto_iff]
  refine ⟨fun {p t} hp => ?_, fun i hi => ?_, ?_⟩
  · obtain ⟨husable, hle⟩ := hp.within hc ht
    refine ⟨_, hsized husable, hsize ▸ hle, fun {q t'} hq hpq hqp => ?_⟩
    exact ⟨_, hsized (hq.within hc ht).1, hp.apart hc hq ht hpq hqp⟩
  · obtain ⟨p, t, hp, hscalar, hstart, hstop⟩ := hc.exists_leaf hlayout' hi
    exact ⟨p, t, _, hp, hscalar, hsized (hp.within hc ht).1, hstart, hstop⟩
  · rintro site M a p t rfl hM hhas hp hsmall
    have hstop : a + (c.sizeOf? ⟨.struct s.ref, 1⟩).getD 0 < 2 ^ 64 := hsize ▸ hhas.stop_lt hM
    refine ⟨fun base w R hbase => ?_, fun {x} hscalar hx => ?_⟩
    · obtain ⟨code, address, hcode, -, hruns⟩ := hp.walk hc ht hsmall base w
      obtain ⟨R', -, hruns, haddress⟩ := hruns hdeclared hstop hbase
      exact ⟨code, address, _, R', hcode, hruns M, haddress⟩
    · -- Each part has its bytes in memory, under an address that is a word.
      have hpart {q t'} (hq : c.Inside ⟨.struct s.ref, 1⟩ q t') :
          sizeOf site.program t'.storageType = .ok ((c.sizeOf? t').getD 0) ∧
            (UInt64.ofNat (a + c.distance q)).toNat = a + c.distance q ∧
            M.Has (UInt64.ofNat (a + c.distance q)).toNat ((c.sizeOf? t').getD 0) := by
        obtain ⟨husable, hle⟩ := hq.within hc ht
        have hallocated := hhas.allocated
        have hword : (UInt64.ofNat (a + c.distance q)).toNat = a + c.distance q :=
          Scalar.toNat_address (by omega)
        refine ⟨?_, hword, ?_⟩
        · exact (Catalog.sizeOf_storageType hc hdeclared husable).trans (Memory.fit_of_lt (by omega))
        · rw [hword]
          exact ⟨hhas.guarded.trans (Nat.le_add_right ..), by omega⟩
      obtain ⟨hsizeOf, hword, hroom⟩ := hpart hp
      have hle := (hp.within hc ht).2
      rw [TypeRef.irType_of_not_linear (TypeRef.isLinear_of_isScalar hscalar)] at hx
      obtain ⟨size, word, hlies⟩ := hx.liesAs site.program
      cases hlies.sized.symm.trans hsizeOf
      have hstore := hlies.store hM hroom
      have hfits : a + c.distance p + (Word.toBytes ((c.sizeOf? t).getD 0) word).length ≤ M.size := by
        rw [Word.length_toBytes, ← hword]
        exact hroom.allocated
      have hothers (i : Nat) (hi : ¬ (a + c.distance p ≤ i ∧ i < a + c.distance p + (c.sizeOf? t).getD 0)) :
          (M.patch (a + c.distance p) (Word.toBytes ((c.sizeOf? t).getD 0) word)).byteAt i = M.byteAt i := by
        rw [Memory.byteAt_patch _ _ _ hfits, if_neg (by rwa [Word.length_toBytes])]
      rw [hword] at hstore
      refine ⟨_, hp.writes hc ht hsmall hdeclared hstop ?_, Memory.size_patch ..,
        fun i hi => hothers i (by omega), ?_, ?_⟩
      · rwa [TypeRef.irType_of_not_linear (TypeRef.isLinear_of_isScalar hscalar)]
      · refine hp.reads hc ht hsmall hdeclared hstop rfl hscalar ?_
        have hload := hlies.load_patch hM hroom
        rwa [hword] at hload
      · intro q t' hq hsmall' hscalar' hpq hqp
        obtain ⟨hsizeOf', hword', hroom'⟩ := hpart hq
        obtain ⟨scalar, hload⟩ := loadScalar_eq_map (TypeRef.storageType_isScalar hscalar') hsizeOf'
        have hold := hload M (UInt64.ofNat (a + c.distance q))
        rw [Memory.read_eq_ok hM hroom'] at hold
        refine ⟨_, hq.reads hc ht hsmall' hdeclared hstop rfl hscalar' hold,
          hq.reads hc ht hsmall' hdeclared hstop rfl hscalar' (Eq.trans ?_ hold)⟩
        -- The bytes of the one are not among those of the other.
        have hapart := hp.apart hc hq ht hpq hqp
        refine loadScalar_congr hsizeOf' hM (hM.patch ..) hroom'
          (hroom'.mono (Nat.le_of_eq (Memory.size_patch ..).symm)) ?_
        intro b hlow hhigh
        rw [hword'] at hlow hhigh
        exact hothers b (by omega)

-- No cell of a node is behind its thirteen bytes.
example : (typesOf 0 boxesUnit).structures.head?.bind (fun s => s.layout?.map fun layout => layout.size) = some 13 := by
  decide +kernel

/-- The path to the weight of a node of `boxesUnit`, which is also one from the address of a node. -/
theorem boxesUnit_path : ∃ m, (compileUnit 0 {} boxesUnit).1 = .ok m ∧ (m.structures.map StructDeclaration.name).Nodup ∧
    ∃ s ∈ (typesOf 0 boxesUnit).structures, ∃ layout, s.layout? = some layout ∧ layout.size = 13 ∧ ∃ accesses steps,
      (typesOf 0 boxesUnit).follow ⟨.struct s.ref, 1⟩ accesses = .ok (steps, .primitive .i32) ∧
      (typesOf 0 boxesUnit).follow ⟨.struct s.ref, 2⟩ accesses = .ok (steps, .primitive .i32) ∧ steps ≠ [] ∧
      (∀ step ∈ steps.dropLast, step.ty.isLinear = true) ∧ (∀ step ∈ steps, step.index < 2 ^ 31) ∧
      (typesOf 0 boxesUnit).distance steps = 9 ∧ (typesOf 0 boxesUnit).sizeOf? (.primitive .i32) = some 4 := by
  obtain ⟨m, hm, hstructures, -⟩ := compileUnit_emits 0 {} boxesUnit
  refine ⟨m, hm, ?_, _, .head _, _, rfl, rfl, [.field "weight", .field "held"], _, rfl, rfl, by decide +kernel⟩
  rw [hstructures]
  decide +kernel

/-- A node of `boxesUnit` lies in the first 13 bytes that can be used. Its weight is set and read back. -/
theorem paths_are_cells_boxesUnit :
    ∃ m s layout, (compileUnit 0 {} boxesUnit).1 = .ok m ∧ (m.structures.map StructDeclaration.name).Nodup ∧
      s ∈ (typesOf 0 boxesUnit).structures ∧ s.layout? = some layout ∧ layout.size = 13 ∧
      ∃ p, (typesOf 0 boxesUnit).PathInto s.ref p (.primitive .i32) ∧ ∀ frame callers,
        let site : Site := ⟨m, frame, callers⟩
        ∃ M', site.Writes (typesOf 0 boxesUnit) p 8 (Memory.empty.grow 13) (.int 7) (.primitive .i32) M' ∧
          site.Reads (typesOf 0 boxesUnit) p 8 M' (.int 7) := by
  obtain ⟨m, hm, hnames, s, hs, layout, hlayout, hsize, accesses, p, hfollow, -, -, hinline, hsmall, -⟩ :=
    boxesUnit_path
  have hp : (typesOf 0 boxesUnit).PathInto s.ref p (.primitive .i32) := ⟨⟨_, hfollow⟩, hinline⟩
  refine ⟨m, s, layout, hm, hnames, hs, hlayout, hsize, p, hp, ?_⟩
  intro frame callers site
  have hM : (Memory.empty.grow 13).Proper := ⟨by decide, by decide⟩
  have hhas : (Memory.empty.grow 13).Has 8 layout.size := ⟨by decide, by rw [hsize]; decide⟩
  obtain ⟨-, hcells⟩ := (paths_are_cells hm hnames hs hlayout).2.2 (show site.program = m from rfl) hM hhas hp hsmall
  obtain ⟨M', hwrites, -, -, hreads, -⟩ := hcells (x := .int 7) rfl (.int (by decide) (by decide))
  exact ⟨M', hwrites, hreads⟩

/-! ### The null address -/

/-- **Fields at the null address.** Let a variable `v` hold the address 0 of a structure `s`. The code of `walkTo` that
reads or writes a scalar field through it fails with `outOfBounds` if the bytes at the field's offset are not all behind
the guard and in memory, and takes those bytes if they are. -/
theorem null_access {fileId : Nat} {options : Options} {u : SourceUnit} {m : IR.Module}
    (hm : (compileUnit fileId options u).1 = .ok m) (hnames : (m.structures.map StructDeclaration.name).Nodup)
    {s : Structure} (hs : s ∈ (typesOf fileId u).structures) {layout : Layout} (hlayout : s.layout? = some layout)
    (hfits : layout.size < 2 ^ 64) {accesses steps ty}
    (hfollow : (typesOf fileId u).follow ⟨.struct s.ref, 2⟩ accesses = .ok (steps, ty)) (hsteps : steps ≠ [])
    (hinline : ∀ step ∈ steps.dropLast, step.ty.isLinear = true) (hsmall : ∀ step ∈ steps, step.index < 2 ^ 31)
    (hscalar : ty.isScalar = true) {site : Site} (hsite : site.program = m) {caching : Bool} {fresh : Nat}
    {R : Registers} {M : Memory} (hM : M.Proper) {k : Session}
    (hk : Session.Reached site ⟨{ fresh, scope := { caching } }, R, M, []⟩ k) {i v} (hv : k.work.scope.get? i = some v)
    (hty : v.ty = ⟨.struct s.ref, 2⟩) (hnull : k.store[i]? = some (.int 0)) :
    let c := typesOf fileId u
    let start := UInt64.ofNat (c.distance steps)
    ∃ n, c.sizeOf? ty = some n ∧
      (∃ code value w', walkTo c ⟨i, steps, ty⟩ true k.work = .ok (code, value) w' ∧
        ((k.memory.Has (c.distance steps) n ∧ ∃ R' x, site.Runs code k.registers k.memory R' k.memory ∧
            loadScalar m k.memory ty.storageType start = .ok x ∧ R'.argument value = .ok x) ∨
          ¬ k.memory.Has (c.distance steps) n ∧ site.Fails code k.registers k.memory (.outOfBounds start n))) ∧
      ∃ code address w', walkTo c ⟨i, steps, ty⟩ false k.work = .ok (code, address) w' ∧
        ∀ {value x}, k.Offers value ty x →
          ((k.memory.Has (c.distance steps) n ∧ ∃ R' M', storeScalar m ty.storageType start x k.memory = .ok () M' ∧
              site.Runs (code ++ [.store address value]) k.registers k.memory R' M') ∨
            ¬ k.memory.Has (c.distance steps) n ∧
              site.Fails (code ++ [.store address value]) k.registers k.memory (.outOfBounds start n)) := by
  intro c start
  subst hsite
  have hc : c.Sound := (typesOf_sound fileId u).1
  obtain ⟨-, ht, hsize⟩ := hc.usable_of_mem hs hlayout
  have hdeclared : c.DeclaredIn site.program := compileUnit_declaredIn hm hnames
  have hinside := (Catalog.follow_leads hfollow).inside hinline rfl fun h => absurd h hsteps
  obtain ⟨husable, hle⟩ := hinside.within hc ht
  obtain ⟨n, hn⟩ := husable.exists_size
  rw [hn, Option.getD_some, hsize] at hle
  have hlin := TypeRef.isLinear_of_isScalar hscalar
  have hsizeOf : sizeOf site.program ty.storageType = .ok n := by
    rw [Catalog.sizeOf_storageType hc hdeclared husable, hn]
    exact Memory.fit_of_lt (by simp; omega)
  have hstart : start.toNat = c.distance steps := Scalar.toNat_address (by omega)
  have hrefuses (hhas : ¬ k.memory.Has (c.distance steps) n) : k.memory.Refuses start n (.outOfBounds start n) :=
    .outside (by rwa [hstart]) fun _ => by omega
  -- The variable is read first, and gives the null address.
  have hsound := hk.sound (Session.sound_nil hM site.program caching fresh R)
  obtain ⟨⟨read, base⟩, w1, hop⟩ := readVariable_ok hv (hsound.formed.get? hv)
  have hpointer : v.ty.isScalar = true := by rw [hty]; rfl
  obtain ⟨R1, hruns1, ⟨-, hfresh, hagree⟩, -, hbase⟩ := hsound.read hop hv fun _ => hpointer
  have hbase : R1.argument base = .ok (.address 0) := hbase _ (TypeRef.isLinear_of_isScalar hpointer) hnull
  obtain ⟨code, address, hcode, hread, hruns⟩ := hinside.walk hc ht hsmall base w1
  obtain ⟨-, hread⟩ := hread hsteps
  rw [hlin] at hread
  obtain ⟨R2, hchanges, hruns2, haddress⟩ := hruns hdeclared (by omega) hbase
  rw [Nat.zero_add] at haddress
  have hruns := hruns1.append (hruns2 k.memory)
  have hwalk {reading result w''} (h : walkSteps c reading base steps w1 = .ok result w'') :
      walkTo c ⟨i, steps, ty⟩ reading k.work = .ok (read ++ result.1, result.2) w'' := by
    rw [walkTo]
    simp only [bind, EStateM.bind, hop, h]
    rfl
  refine ⟨n, hn, ⟨_, _, _, hwalk hread, ?_⟩, _, _, _, hwalk hcode, ?_⟩
  · have hload : R2.load site.program k.memory ty.storageType address =
        loadScalar site.program k.memory ty.storageType start := by
      rw [Registers.load, haddress]
      rfl
    dsimp only
    rw [← List.append_assoc]
    by_cases hhas : k.memory.Has (c.distance steps) n
    · obtain ⟨scalar, hscalar⟩ := loadScalar_eq_map (TypeRef.storageType_isScalar hscalar) hsizeOf
      have hfound := hscalar k.memory start
      rw [Memory.read_eq_ok hsound.proper (by rwa [hstart])] at hfound
      exact .inl ⟨hhas, _, _, hruns.append (.fetch (hload.trans hfound)), hfound, Registers.argument_set_self ..⟩
    · refine .inr ⟨hhas, hruns.fails (.fetch (hload.trans ?_))⟩
      exact (loadScalar_eq_error_iff (TypeRef.storageType_isScalar hscalar) hsizeOf).2 (hrefuses hhas)
  · rintro ⟨-, o⟩ x ⟨rfl, hbelow, ho, hx⟩
    have ho : R2.operand ty.irType o = .ok x :=
      ((hagree.trans (hchanges.agreeBelow.mono hfresh)).operand hbelow _).trans ho
    rw [TypeRef.irType_of_not_linear hlin] at ho hx ⊢
    by_cases hhas : k.memory.Has (c.distance steps) n
    · obtain ⟨size, word, hlies⟩ := hx.liesAs site.program
      cases hlies.sized.symm.trans hsizeOf
      have hstore := hlies.store hsound.proper (a := start) (by rwa [hstart])
      exact .inl ⟨hhas, _, _, hstore, hruns.append (.keep haddress ho hstore)⟩
    · have hstore : storeScalar site.program ty.storageType start x k.memory = .error (.outOfBounds start n) k.memory :=
        (storeScalar_eq_error_iff (TypeRef.storageType_isScalar hscalar) hsizeOf).2 ⟨hrefuses hhas, rfl⟩
      exact .inr ⟨hhas, hruns.fails (.keep haddress ho hstore)⟩

/-- A variable for the address of a node of `boxesUnit` is declared. The weight of the node at the null address would be
in the second byte of the variable itself, and that is where it is read. -/
theorem null_access_boxesUnit : ∃ m, (compileUnit 0 {} boxesUnit).1 = .ok m ∧
    ∃ s ∈ (typesOf 0 boxesUnit).structures, ∃ accesses steps,
      (typesOf 0 boxesUnit).follow ⟨.struct s.ref, 2⟩ accesses = .ok (steps, .primitive .i32) ∧
      ∀ frame callers, ∃ k, Session.Reached ⟨m, frame, callers⟩ ⟨{ scope := { caching := false } }, [], .empty, []⟩ k ∧
        k.store = [.int 0] ∧ ∃ code value w' R',
          walkTo (typesOf 0 boxesUnit) ⟨0, steps, .primitive .i32⟩ true k.work = .ok (code, value) w' ∧
          Site.Runs ⟨m, frame, callers⟩ code k.registers k.memory R' k.memory := by
  obtain ⟨m, hm, hnames, s, hs, layout, hlayout, hsize, accesses, steps, -, hfollow, hsteps, hinline, hsmall,
    hdistance, hn⟩ :=
    boxesUnit_path
  refine ⟨m, hm, s, hs, accesses, steps, hfollow, fun frame callers => ?_⟩
  have hdeclare : declareVariable ⟨.struct s.ref, 2⟩ "p" { scope := { caching := false } } = .ok (0, _) _ := rfl
  have hruns : Site.Runs ⟨m, frame, callers⟩ [.set 0 (.alloc (TypeRef.storageType ⟨.struct s.ref, 2⟩))] [] .empty _ _ :=
    .alloc (show sizeOf m _ = .ok 8 from rfl) (by decide)
  have hk : Session.Reached ⟨m, frame, callers⟩ ⟨{ scope := { caching := false } }, [], .empty, []⟩ _ :=
    .step .refl (.declare hdeclare hruns)
  obtain ⟨n, hn', ⟨code, value, w', hwalk, hreads⟩, -⟩ := null_access hm hnames hs hlayout (by rw [hsize]; decide)
    hfollow hsteps hinline hsmall rfl rfl Memory.proper_empty hk (i := 0) rfl rfl rfl
  cases hn.symm.trans hn'
  rw [hdistance] at hreads
  obtain ⟨-, R', -, hreads, -⟩ | ⟨hhas, -⟩ := hreads
  · exact ⟨_, hk, rfl, code, value, w', R', hwalk, hreads⟩
  · exact absurd (show (Memory.empty.grow 8).Has 9 4 from ⟨by decide, by decide⟩) hhas

/-- A pair of numbers, and a function that reads the second one of the pair at the null address. -/
def nullUnit : SourceUnit where
  structures := [
    { name := "Pair"
      fields := [⟨"a", "i64", {}⟩, ⟨"b", "i64", {}⟩] }]
  functions := [
    { constantFunction "main" [] true (.constant ⟨.integer 0, {}⟩) with
      returnType := "i64"
      body := some ⟨[
        .declare ⟨1, "Pair", [], {}⟩ "p" {},
        .ret (some (.place ⟨"p", [.field "b"], {}⟩)) {}], {}⟩ }]

/-- The second number is found in the variable that holds the null address. -/
theorem nullUnit_reads_variable : ∃ m, (compileUnit 0 {} nullUnit).2.hasErrors = false ∧
    (compileUnit 0 {} nullUnit).1 = .ok m ∧ runFresh m "main" [] = .ok (some (.int 0)) := by
  rw [exists_and_left]
  decide +kernel

end Lowering
