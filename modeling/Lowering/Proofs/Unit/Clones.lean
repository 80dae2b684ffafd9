import Lowering.Proofs.Body.Aggregate
import Lowering.Proofs.Body.Coherent
import Lowering.Proofs.Machine.Progress
import Lowering.Proofs.Unit.Layout
import Lowering.Proofs.Unit.Overloads
/-!
# Copies of structures are on their own

A copy has all bytes of its structure and lies where no memory was before, so that stores into the one never change the
other. This rests on the machine and the compiler agreeing on how many bytes a structure has, and so on the names of
structures.
-/

namespace Lowering

open IR (Argument StructDeclaration)

/-! ### Stores into a range of memory -/

/-- Any number of stores into a range, of scalars or of bytes. -/
inductive Memory.Stores (m : IR.Module) (start count : Nat) : Memory → Memory → Prop where
  | nil (M : Memory) : Stores m start count M M
  | scalar {ty : IR.Ty} {size : Nat} {address : UInt64} {s : Scalar} {M M' M'' : Memory}
      (hsize : sizeOf m ty = .ok size) (hstart : start ≤ address.toNat) (hstop : address.toNat + size ≤ start + count)
      (hstore : storeScalar m ty address s M = .ok () M') (h : Stores m start count M' M'') : Stores m start count M M''
  | bytes {address : UInt64} {bytes : List UInt8} {M M' M'' : Memory} (hstart : start ≤ address.toNat)
      (hstop : address.toNat + bytes.length ≤ start + count) (hwrite : Effect.write address bytes M = .ok () M')
      (h : Stores m start count M' M'') : Stores m start count M M''

variable {m : IR.Module} {start count : Nat} {M M' : Memory}

theorem Effect.write_patches :
    Ensures (Effect.write address bytes) M (fun _ M' => M' = M.patch address.toNat bytes) fun _ _ => True :=
  .bind (.get (.bind (.lift (fun _ _ => .modify rfl) fun _ _ => trivial)))

theorem storeScalar_patches (hsize : sizeOf m ty = .ok size) :
    Ensures (storeScalar m ty address s) M
      (fun _ M' => ∃ bytes : List UInt8, bytes.length = size ∧ M' = M.patch address.toNat bytes) fun _ _ => True := by
  refine .bind (.lift_ok hsize (.bind (.lift (fun word _ => .bind (.get (.bind (.lift (fun _ _ => ?_) ?_)))) ?_)))
  · split
    · exact .throw trivial
    · exact Effect.write_patches.mono (fun _ _ _ h => ⟨_, Word.length_toBytes .., h⟩) fun _ _ _ h => h
  · exact fun _ _ => trivial
  · exact fun _ _ => trivial

/-- **Stores change nothing outside of the range.** -/
theorem Memory.Stores.frame (h : M.Stores m start count M') (hhas : M.Has start count) :
    M'.size = M.size ∧ ∀ i, ¬ (start ≤ i ∧ i < start + count) → M'.byteAt i = M.byteAt i := by
  have hallocated := hhas.allocated
  have hpatch {M : Memory} {address : Nat} {bytes : List UInt8} (hM : start + count ≤ M.size) (hstart : start ≤ address)
      (hstop : address + bytes.length ≤ start + count) (i : Nat) (hi : ¬ (start ≤ i ∧ i < start + count)) :
      (M.patch address bytes).byteAt i = M.byteAt i := by
    rw [byteAt_patch _ _ _ (by omega), if_neg (by omega)]
  clear hhas
  induction h with
  | nil => simp
  | scalar hsize hstart hstop hstore _ ih =>
    obtain ⟨bytes, rfl, rfl⟩ := (storeScalar_patches hsize).of_ok hstore
    simp_all
  | bytes hstart hstop hwrite _ ih =>
    cases Effect.write_patches.of_ok hwrite
    simp_all

theorem Memory.Stores.slice_eq (h : M.Stores m start count M') (hhas : M.Has start count)
    (hapart : a + n ≤ start ∨ start + count ≤ a) : M'.slice a n = M.slice a n :=
  slice_congr fun i hlow hhigh => (h.frame hhas).2 i (by omega)

/-! ### Copies -/

/-- **Cloning isolates.** Where the names of structures differ, the code of `cloneStructure` either stops for want of
memory or budget, or gives the address of bytes behind all memory that there was. They are the bytes at `source`, no
earlier byte is changed, and later stores (`Stores`) into the one place never show in the other. The code of
`copyStructure` gives `destination` the bytes that `source` had, also if they overlap, and changes no other byte. -/
theorem clone_isolates {fileId : Nat} {options : Options} {u : SourceUnit} {m : IR.Module}
    (hm : (compileUnit fileId options u).1 = .ok m) (hnames : (m.structures.map StructDeclaration.name).Nodup)
    {s : Structure} (hs : s ∈ (typesOf fileId u).structures) {layout : Layout} (hlayout : s.layout? = some layout)
    (w : Workspace) {source : Argument} (hsource : source.value.Below w.fresh) :
    (∃ code clone w', cloneStructure s.ref source w = .ok (code, clone) w' ∧
      ∀ {site : Site} {R : Registers} {M : Memory} {x : Scalar}, site.program = m → M.Proper →
        R.argument source = .ok x → M.Has x.word.toNat layout.size →
          site.Yields code R M (fun e => e = .stepLimit ∨ e = .outOfMemory) fun R' M' =>
            ∃ b : UInt64, R'.argument clone = .ok (.int b) ∧ M.size ≤ b.toNat ∧ M'.Has b.toNat layout.size ∧
              M'.slice b.toNat layout.size = M.slice x.word.toNat layout.size ∧
              (∀ i < M.size, M'.byteAt i = M.byteAt i) ∧
              ∀ M'', (M'.Stores m x.word.toNat layout.size M'' →
                  M''.slice b.toNat layout.size = M'.slice b.toNat layout.size) ∧
                (M'.Stores m b.toNat layout.size M'' →
                  M''.slice x.word.toNat layout.size = M'.slice x.word.toNat layout.size)) ∧
    ∀ destination : Argument, destination.value.Below w.fresh →
      ∃ code w', copyStructure s.ref destination source w = .ok code w' ∧
        ∀ {site : Site} {R : Registers} {M : Memory} {x y : Scalar}, site.program = m → M.Proper →
          R.argument source = .ok x → M.Has x.word.toNat layout.size →
          R.argument destination = .ok y → M.Has y.word.toNat layout.size →
            site.Yields code R M (· = .stepLimit) fun _ M' =>
              M'.size = M.size ∧ M'.slice y.word.toNat layout.size = M.slice x.word.toNat layout.size ∧
              ∀ i, ¬ (y.word.toNat ≤ i ∧ i < y.word.toNat + layout.size) → M'.byteAt i = M.byteAt i := by
  have hc := (typesOf_sound fileId u).1
  have hdeclared := compileUnit_declaredIn hm hnames
  obtain ⟨href, hsame⟩ := hc.of_mem hs
  have hsizeOf {M : Memory} {a : Nat} (hM : M.Proper) (hhas : M.Has a layout.size) :
      sizeOf m s.ref.irType = .ok layout.size :=
    (Catalog.sizeOf_irType hc hdeclared href (hsame.trans hlayout)).trans (Memory.fit_of_lt (hhas.count_lt hM))
  have hkept {o : Argument} (ho : o.value.Below w.fresh) {R R' : Registers} {x : Scalar} {last : Nat}
      (hx : R.argument o = .ok x) (h : Registers.Changes w.fresh last R R') : R'.argument o = .ok x :=
    (h.agreeBelow.operand ho o.ty).trans hx
  constructor
  · obtain ⟨code, clone, hcode, hruns⟩ := cloneStructure_runs s.ref source w
    refine ⟨code, clone, _, hcode, ?_⟩
    rintro site R M x rfl hM hx hhas
    obtain hfails | ⟨R', M', hruns, hclone, hM', hhas', hbytes, hothers⟩ :=
      hruns (hsizeOf hM hhas) hM (fun _ h => hkept hsource hx h) hhas
    · exact hfails.yields (.inl rfl) (.inr rfl)
    · have hword : (UInt64.ofNat M.size).toNat = M.size := hhas'.toNat_word hM'
      refine hruns.yields (.inl rfl) ⟨UInt64.ofNat M.size, hclone, ?_⟩
      rw [hword]
      refine ⟨le_rfl, hhas', hbytes, hothers, fun M'' => ⟨fun h => ?_, fun h => ?_⟩⟩
      · refine h.slice_eq ⟨hhas.guarded, ?_⟩ (.inr hhas.allocated)
        exact (Nat.le_trans hhas.allocated (Nat.le_add_right ..)).trans hhas'.allocated
      · exact h.slice_eq hhas' (.inl hhas.allocated)
  · intro destination hdestination
    obtain ⟨code, hcode, hruns⟩ := copyStructure_runs s.ref destination source w
    refine ⟨code, _, hcode, ?_⟩
    rintro site R M x y rfl hM hx hhas hy hhas'
    obtain ⟨R', -, hruns⟩ := hruns (hsizeOf hM hhas) hM (fun _ h => hkept hsource hx h)
      (fun _ h => hkept hdestination hy h) hhas hhas'
    have hfits : y.word.toNat + (M.slice x.word.toNat layout.size).length ≤ M.size := by
      rw [Memory.length_slice]
      exact hhas'.allocated
    refine hruns.yields ?_ ⟨Memory.size_patch .., ?_, fun i hi => ?_⟩
    · rfl
    · have hslice := Memory.slice_patch M _ _ hfits
      rwa [Memory.length_slice] at hslice
    · rw [Memory.byteAt_patch _ _ _ hfits, if_neg (by rwa [Memory.length_slice])]

/-- A node of `boxesUnit` in the first 13 bytes that can be used. -/
theorem clone_isolates_boxesUnit :
    ∃ m s layout, (compileUnit 0 {} boxesUnit).1 = .ok m ∧ (m.structures.map StructDeclaration.name).Nodup ∧
      s ∈ (typesOf 0 boxesUnit).structures ∧ s.layout? = some layout ∧ layout.size = 13 ∧
      ∃ w : Workspace, (Argument.register s.ref.irType.pointerTo 0).value.Below w.fresh ∧ ∃ code clone w',
        cloneStructure s.ref (.register s.ref.irType.pointerTo 0) w = .ok (code, clone) w' ∧
        ∀ frame callers, Site.Yields ⟨m, frame, callers⟩ code [(0, .int 8)] (Memory.empty.grow 13)
          (fun e => e = .stepLimit ∨ e = .outOfMemory) fun R' M' => ∃ b : UInt64, R'.argument clone = .ok (.int b) ∧
            21 ≤ b.toNat ∧ M'.slice b.toNat 13 = (Memory.empty.grow 13).slice 8 13 := by
  obtain ⟨m, hm, hstructures, -⟩ := compileUnit_emits 0 {} boxesUnit
  have hnames : (m.structures.map StructDeclaration.name).Nodup := by
    rw [hstructures]
    decide +kernel
  obtain ⟨s, hs, layout, hlayout, hsize⟩ : ∃ s ∈ (typesOf 0 boxesUnit).structures, ∃ layout, s.layout? = some layout ∧
      layout.size = 13 := ⟨_, .head _, _, rfl, rfl⟩
  have hM : (Memory.empty.grow 13).Proper := ⟨by decide, by decide⟩
  have hhas : (Memory.empty.grow 13).Has (Scalar.int 8).word.toNat layout.size := ⟨by decide, by rw [hsize]; decide⟩
  have hbelow : (Argument.register s.ref.irType.pointerTo 0).value.Below 1 := IR.Operand.below_register Nat.one_pos
  obtain ⟨code, clone, w', hcode, hclone⟩ :=
    (clone_isolates hm hnames hs hlayout ⟨1, { caching := true }, false⟩ hbelow).1
  refine ⟨m, s, layout, hm, hnames, hs, hlayout, hsize, _, hbelow, code, clone, w', hcode, fun frame callers => ?_⟩
  refine (hclone rfl hM rfl hhas).mono fun R' M' h => ?_
  obtain ⟨b, hb, hbeyond, -, hbytes, -⟩ := h
  rw [hsize] at hbytes
  exact ⟨b, hb, hbeyond, hbytes⟩

/-- Two structures of one name in code, of which the first is smaller, and a function that takes a copy of the other. -/
def clashUnit : SourceUnit where
  structures := [
    { name := "A.0"
      fields := [⟨"a", "i8", {}⟩]
      external := true },
    { name := "A"
      fields := [⟨"a", "i32", {}⟩] }]
  functions := [
    { constantFunction "get" [("p", "A")] false (.constant ⟨.integer 0, {}⟩) with
      body := some ⟨[
        .declare "i64" "z" {},
        .ret (some (.place ⟨"p", [.field "a"], {}⟩)) {}], {}⟩ },
    { constantFunction "main" [] true (.constant ⟨.integer 0, {}⟩) with
      body := some ⟨[
        .declare "A" "x" {},
        .declare "i64" "y" {},
        .assign ⟨"x", [.field "a"], {}⟩ (.constant ⟨.integer 300, {}⟩) {},
        .ret (some (.call ⟨"get", [.place "x"], {}⟩)) {}], {}⟩ }]

/-- The copy that `get` is called with has only the first of four bytes: it returns 44, although 300 was stored. -/
theorem clashUnit_clones_short :
    ∃ m, (compileUnit 0 {} clashUnit).2.hasErrors = false ∧ (compileUnit 0 {} clashUnit).1 = .ok m ∧
      (∃ s ∈ (typesOf 0 clashUnit).structures, s.ref.name = "A" ∧ s.layout?.map Layout.size = some 4 ∧
        sizeOf m s.ref.irType = .ok 1) ∧
      runFresh m "main" [] = .ok (some (.int 44)) := by
  rw [exists_and_left]
  decide +kernel

end Lowering
