import Lowering.Proofs.Body.Fields
import Lowering.Proofs.Simulation.State
/-!
# Reading variables, going to places and copying structures

What the code for these does is said of the values that variables stand for. Reading a variable may load it, and then
its value is known; going to a place inside a structure finds the part of the value that the place means; copying a
structure writes its value somewhere else.
-/

namespace Lowering

open IR (Argument Code Local)
open Meaning

/-! ### What the lowering of an expression does to variables -/

variable {numbers : Binary64 → Prop} {s : Scope} {v : Variable} {x : Value} {R : Registers} {M : Memory} {a : Nat}

theorem Scope.Admitted.put (h : s.Admitted numbers) (id : Nat) (hv : v.Admitted numbers) :
    (s.put id v).Admitted numbers := by
  intro u hu
  obtain hu | rfl := Scope.mem_put hu
  · exact h u hu
  · exact hv

theorem Scope.Admitted.push (h : s.Admitted numbers) (hv : v.Admitted numbers) : (s.push v).Admitted numbers := by
  intro u hu
  obtain hu | rfl := Scope.mem_push hu
  · exact h u hu
  · exact hv

theorem Scope.Admitted.get? (h : s.Admitted numbers) {id} (hv : s.get? id = some v) : v.Admitted numbers :=
  h v (List.mem_of_getElem? hv)

/-- The same variables, of which more may be known, and a supply that may be further ahead. -/
structure Workspace.Steady (numbers : Binary64 → Prop) (w w' : Workspace) : Prop where
  refines : w.scope.Refines w'.scope
  fresh : (w.fresh : Nat) ≤ w'.fresh
  admitted : w.scope.Admitted numbers → w'.scope.Admitted numbers

namespace Workspace.Steady

variable {numbers : Binary64 → Prop} {w w' w'' : Workspace}

theorem refl (numbers : Binary64 → Prop) (w : Workspace) : w.Steady numbers w :=
  ⟨.refl _, le_rfl, fun h => h⟩

theorem trans (h : w.Steady numbers w') (h' : w'.Steady numbers w'') : w.Steady numbers w'' :=
  ⟨h.refines.trans h'.refines, h.fresh.trans h'.fresh, fun hw => h'.admitted (h.admitted hw)⟩

theorem of_scope (hscope : w'.scope = w.scope) (hfresh : (w.fresh : Nat) ≤ w'.fresh) : w.Steady numbers w' :=
  ⟨hscope ▸ .refl _, hfresh, fun hw => hscope ▸ hw⟩

end Workspace.Steady

/-- What an operand holds for a value that lies at an address. -/
def Meaning.Value.handle (x : Value) (a : Nat) : Scalar := if x.isStruct then .address a else x.scalar

theorem Meaning.Value.handle_struct (h : x.isStruct = true) (a : Nat) : x.handle a = .address a := if_pos h

theorem Meaning.Value.handle_scalar (h : x.isStruct = false) (a : Nat) : x.handle a = x.scalar :=
  if_neg (by rw [h]; exact Bool.false_ne_true)

theorem Meaning.Value.Goes.isStruct {v u : Value} (h : v.Goes steps distance u)
    (hu : u.isStruct = true) : v.isStruct = true := by
  cases h with
  | here => exact hu
  | field => rfl

theorem Meaning.Value.Goes.of_isEmpty {v u : Value} (h : v.Goes steps distance u)
    (hsteps : steps.isEmpty = true) : distance = 0 ∧ u = v := by
  cases h with
  | here => exact ⟨rfl, rfl⟩
  | field => cases hsteps

/-- A catalog whose structures a module lays out, with fields that can be counted in 32 bits. -/
structure Catalog.LaidIn (c : Catalog) (m : IR.Module) : Prop extends c.DeclaredIn m where
  sound : c.Sound
  short : ∀ ref layout, c.layout? ref = some layout → layout.fields.length ≤ 2 ^ 31

variable {c : Catalog} {numbers : Binary64 → Prop} {w : Workspace}

/-! ### Variables -/

theorem Variable.Holds.handle (h : v.Holds c R M a x) (hvalue : v.cache = some value) :
    R.argument ⟨v.ty.irType, value⟩ = .ok (x.handle a) := by
  have hlin : v.ty.isLinear = x.isStruct := by rw [h.ty, Value.isLinear_ty]
  cases hx : x.isStruct with
  | true =>
    obtain ⟨-, -, other, hother, haddr⟩ := h.linear (hlin.trans hx)
    cases hvalue.symm.trans hother
    rw [Value.handle_struct hx]
    exact haddr
  | false =>
    rw [Value.handle_scalar hx]
    exact h.cached (hlin.trans hx) value hvalue

theorem Variable.Holds.not_linear (h : v.Holds c R M a x) (hcache : v.cache = none) : v.ty.isLinear = false := by
  rcases hlin : v.ty.isLinear with _ | _
  · rfl
  obtain ⟨-, -, value, hvalue, -⟩ := h.linear hlin
  simp_all

theorem Variable.Holds.with_cache (h : v.Holds c R M a x) (hlin : v.ty.isLinear = false) (hy : y.Fits c)
    (hty : v.ty = y.ty) (hvalue : R.operand v.ty.irType value = .ok y.scalar)
    (hsize : y.bytes.length = x.bytes.length) (dirty : Bool) :
    Variable.Holds c R M { v with cache := some value, dirty } a y where
  ty := hty
  fits := hy
  has := hsize ▸ h.has
  linear hlin' := by rw [hlin] at hlin'; cases hlin'
  stored := h.stored
  cached _ other hother := by
    cases hother
    exact hvalue
  kept _ hcache := by cases hcache
  dirty _ := ⟨value, rfl⟩

theorem Variable.Holds.primitive (h : v.Holds c R M a x) (hlin : v.ty.isLinear = false) :
    x.isStruct = false ∧ ∃ kind, v.ty = .primitive kind ∧ x.ty = .primitive kind := by
  have hx : x.isStruct = false := by rw [← Value.isLinear_ty, ← h.ty, hlin]
  obtain ⟨kind, hkind, -⟩ := h.fits.primitive hx
  exact ⟨hx, kind, h.ty.trans hkind, hkind⟩

variable (c numbers)

/-- **Reading a variable** gives the value it stands for. -/
theorem readVariable_simulates (id : Nat) : Attains (readVariable id) w fun result w' =>
    w.Steady numbers w' ∧ (w.scope.Admitted numbers → result.2.value.Admitted numbers) ∧
      ∀ {site : Site} {R M place env entry},
        w.scope.Holds c R M place env → env.at? id = some entry → M.Proper → R.Blank w.fresh w'.fresh →
          ∃ R', site.Runs result.1 R M R' M ∧ Quiet env place w.fresh w'.fresh R M R' M ∧
            w'.scope.Holds c R' M place env ∧ result.2.ty = entry.2.ty.irType ∧
              R'.argument result.2 = .ok (entry.2.handle (place id)) := by
  refine (readVariable_ensures id w).attains.mono fun result w' _ hres => ?_
  obtain ⟨v, hv, ⟨cache, hcache, rfl, rfl⟩ | ⟨address, hcache, hstor, rfl, rfl⟩⟩ := hres
  · refine ⟨.refl numbers w', fun hw => (hw.get? hv).value cache hcache, ?_⟩
    intro site R M place env entry hholds hentry hM hblank
    obtain ⟨x, hx, hvar⟩ := hholds.vars id v hv
    cases hentry.symm.trans hx
    exact ⟨R, .nil, .refl env place _ _ R hM, hholds, by rw [hvar.ty], hvar.handle hcache⟩
  -- The value is loaded into a register, and known from there on if values are kept.
  have hnew : Variable.Refines v { v with cache := some (.register w.fresh) } :=
    ⟨rfl, rfl, rfl, fun value hvalue => (by simp_all), fun hdirty => hdirty⟩
  refine ⟨⟨?_, Nat.le_succ _, fun hw => ?_⟩, fun _ => trivial, ?_⟩
  · split
    · exact .put hv hnew
    · exact .refl _
  · split
    · exact hw.put id ⟨fun _ hvalue => (by cases hvalue; trivial), fun _ => ⟨_, rfl⟩⟩
    · exact hw
  intro site R M place env entry hholds hentry hM hblank
  obtain ⟨x, hx, hvar⟩ := hholds.vars id v hv
  cases hentry.symm.trans hx
  have hlin := hvar.not_linear hcache
  obtain ⟨hscalar, kind, hkind, hxkind⟩ := hvar.primitive hlin
  obtain ⟨address', hstor', haddr⟩ := hvar.stored hlin
  cases hstor.symm.trans hstor'
  have hruns : site.Runs [.set w.fresh (.load v.ty.storageType address)] R M (R.set w.fresh x.scalar) M := by
    rw [hkind]
    exact .load hM haddr hvar.fits hxkind (hvar.kept hlin hcache)
  have hquiet : Quiet env place w.fresh (w.fresh + 1) R M (R.set w.fresh x.scalar) M :=
    .set le_rfl (Nat.lt_succ_self _) (hblank _ le_rfl (Nat.lt_succ_self _)) hM _
  have hget := Registers.get?_set_self R w.fresh x.scalar
  refine ⟨_, hruns, hquiet, ?_, by rw [← hvar.ty]; rfl, ?_⟩
  · split
    · refine hholds.refresh hv rfl hquiet.le le_rfl hx ?_ fun _ _ _ _ _ _ => rfl
      exact (hvar.mono hquiet.le le_rfl fun _ _ => rfl).with_cache hlin hvar.fits hvar.ty
        (Registers.argument_register hget) rfl v.dirty
    · exact hholds.mono hquiet.le le_rfl fun _ _ => rfl
  · rw [Value.handle_scalar hscalar]
    exact Registers.argument_register hget

/-- **Writing a known value back.** The value was known already in every scope that the present one refines, so the code
can be run where that scope holds; nothing changes but the bytes of the variable. -/
theorem flushVariable_simulates (hrefines : s.Refines w.scope) (id : Nat) :
    Attains (flushVariable id) w fun code w' =>
      w.Steady numbers w' ∧ w'.fresh = w.fresh ∧
      (∀ {R M place env},
        w.scope.Holds c R M place env → w'.scope.Holds c R M place env) ∧
      ∀ {site : Site} {R M place env}, s.Holds c R M place env → M.Proper →
        ∃ M', M'.size = M.size ∧ site.Runs code R M R M' ∧ s.Holds c R M' place env ∧
          ∀ b, ¬ env.Owns place b → M'.byteAt b = M.byteAt b := by
  refine (flushVariable_ensures id w).attains.mono fun code w' _ hres => ?_
  obtain ⟨v, hv, ⟨address, cache, hdirty, hstor, hcache, rfl, rfl⟩ | ⟨rfl, rfl⟩⟩ := hres
  · refine ⟨?_, rfl, ?_, ?_⟩
    · have hclean : Variable.Refines v { v with dirty := false } :=
        ⟨rfl, rfl, rfl, fun _ hvalue => hvalue, fun hdirty => by cases hdirty⟩
      exact ⟨.put hv hclean, le_rfl, fun hw => hw.put id ⟨(hw.get? hv).value, nofun⟩⟩
    · intro R M place env hholds
      obtain ⟨x, hx, hvar⟩ := hholds.vars id v hv
      refine hholds.refresh hv rfl (.refl R) le_rfl hx ?_ fun _ _ _ _ _ _ => rfl
      exact ⟨hvar.ty, hvar.fits, hvar.has, hvar.linear, hvar.stored, hvar.cached, hvar.kept,
        fun hdirty => by cases hdirty⟩
    intro site R M place env hholds hM
    obtain ⟨u, hu, huv⟩ := hrefines.get?_left hv
    obtain ⟨x, hx, hvar⟩ := hholds.vars id u hu
    obtain ⟨value, hvalue⟩ := hvar.dirty (huv.dirty hdirty)
    cases hcache.symm.trans (huv.cache value hvalue)
    rw [huv.storage] at hstor
    have hlin : u.ty.isLinear = false := by
      cases hlin : u.ty.isLinear with
      | false => rfl
      | true => cases hstor.symm.trans (hvar.linear hlin).1
    obtain ⟨hscalar, kind, hkind, hxkind⟩ := hvar.primitive hlin
    obtain ⟨address', hstor', haddr⟩ := hvar.stored hlin
    cases hstor.symm.trans hstor'
    have hstore := hvar.cached hlin cache hvalue
    rw [hkind] at hstore
    obtain ⟨hpatched, hothers⟩ := hvar.has.patch
    have hsize := Memory.size_patch M (place id) x.bytes
    refine ⟨M.patch (place id) x.bytes, hsize, ?_, ?_, fun b hb => hothers b fun hcovers => hb ⟨id, _, hx, hcovers⟩⟩
    · rw [huv.ty, hkind]
      exact .store hM haddr hvar.fits hxkind hstore hvar.has
    refine hholds.transport fun other t y hy hother => ?_
    by_cases hid : other = id
    · subst hid
      obtain rfl : x = y := (Prod.mk.inj (Option.some.inj (hx.symm.trans hy))).2
      exact ⟨hother.ty, hother.fits, hpatched.has,
        fun h => ⟨(hother.linear h).1, hpatched, (hother.linear h).2.2⟩, hother.stored, hother.cached,
        fun _ _ => hpatched, hother.dirty⟩
    · exact hother.mono (.refl R) (Nat.le_of_eq hsize.symm) fun b hb =>
        hothers b fun hcovers => hholds.apart other id _ _ hid hy hx b hb hcovers
  refine ⟨.refl numbers w', rfl, fun h => h, ?_⟩
  intro site R M place env hholds hM
  exact ⟨M, rfl, .nil, hholds, fun _ _ => rfl⟩

/-! ### Places inside structures -/

/-- The part of a value that steps go to is where a path through the structures leads. -/
theorem Meaning.Value.Goes.inside (hlaid : c.LaidIn m) {v u : Value}
    (h : v.Goes steps distance u) (hv : v.Fits c) : c.Inside v.ty steps u.ty ∧ c.distance steps = distance ∧ u.Fits c ∧
      ∀ step ∈ steps, step.index < 2 ^ 31 := by
  induction h with
  | here => exact ⟨.here _, rfl, hv, by simp⟩
  | @field ref fields step steps distance next u hstruct hnext hty _ ih =>
    cases hv with
    | @struct _ layout _ hlists hlayout htypes hfields =>
      obtain ⟨hinside, hdistance, hu, hsmall⟩ := ih (hfields next (List.mem_of_getElem? hnext))
      obtain ⟨struct, index, ty⟩ := step
      subst hstruct hty
      have hmap : (fields.map Value.ty)[index]? = some next.ty := by rw [List.getElem?_map, hnext]; rfl
      rw [htypes, List.getElem?_map, Option.map_eq_some_iff] at hmap
      obtain ⟨slot, hslot, hslotType⟩ := hmap
      rw [← hslotType] at hinside ⊢
      refine ⟨.field rfl hlayout hslot hinside, ?_, hu, List.forall_mem_cons.2 ⟨?_, hsmall⟩⟩
      · rw [Catalog.distance_cons hlayout, fieldsSize_take hlaid.sound htypes hfields, hdistance]
      · exact Nat.lt_of_lt_of_le (List.getElem?_eq_some_iff.1 hslot).1 (hlaid.short struct layout hlayout)

theorem accessField_steady (base : Argument) (reading : Bool) :
    Attains (accessField c ref index base reading) w fun access w' =>
      w'.scope = w.scope ∧ (w.fresh : Nat) ≤ w'.fresh ∧ access.value.value.Admitted numbers := by
  unfold accessField
  split
  · split
    · refine .bind (.fresh ?_)
      split
      · exact .bind (.fresh (.pure ⟨rfl, Nat.le_add_right _ 2, trivial⟩))
      · exact .pure ⟨rfl, Nat.le_succ _, trivial⟩
    · exact .workAbort
  · exact .workAbort

theorem walkSteps_steady (reading : Bool) (base : Argument) (steps : List Step) :
    Attains (walkSteps c reading base steps) w fun result w' =>
      w'.scope = w.scope ∧ (w.fresh : Nat) ≤ w'.fresh ∧
      (base.value.Admitted numbers → result.2.value.Admitted numbers) := by
  induction steps generalizing w base with
  | nil => exact .pure ⟨rfl, le_rfl, fun h => h⟩
  | cons step rest ih =>
    refine .bind ((accessField_steady c numbers base _).mono fun access w1 _ haccess => ?_)
    obtain ⟨hscope1, hfresh1, hadmitted⟩ := haccess
    refine .bind ((ih access.value).mono fun result w2 _ hres => ?_)
    exact .pure ⟨hres.1.trans hscope1, hfresh1.trans hres.2.1, fun _ => hres.2.2 hadmitted⟩

/-- **Going along steps**, for the value at their end or for its address. -/
theorem walkSteps_simulates (reading : Bool) (base : Argument) (steps : List Step) :
    Attains (walkSteps c reading base steps) w fun result w' =>
      w'.scope = w.scope ∧ (w.fresh : Nat) ≤ w'.fresh ∧
      (base.value.Admitted numbers → result.2.value.Admitted numbers) ∧
        ∀ {site : Site} {R M a distance v u},
          c.LaidIn site.program → M.Proper → v.Fits c → (v.isStruct = true → M.Holds a v) → v.Goes steps distance u →
          base.ty = v.ty.irType → R.argument base = .ok (v.handle a) → R.Blank w.fresh w'.fresh →
            ∃ R', site.Runs result.1 R M R' M ∧ Registers.Changes w.fresh w'.fresh R R' ∧
              result.2.ty = (if reading || steps.isEmpty then u.ty.irType else u.ty.storageType.pointerTo) ∧
              R'.argument result.2 = .ok (if reading || steps.isEmpty then u.handle (a + distance)
                else .address (a + distance)) := by
  refine (walkSteps_steady c numbers reading base steps).mono fun result w' hres hsteady => ?_
  refine ⟨hsteady.1, hsteady.2.1, hsteady.2.2, ?_⟩
  intro site R M a distance v u hlaid hM hv hholds hgoes hty hbase hblank
  obtain ⟨hinside, rfl, hu, hsmall⟩ := hgoes.inside c hlaid hv
  by_cases hsteps : steps = []
  · subst hsteps
    cases hgoes
    cases hres
    exact ⟨R, .nil, .refl _ _ R, by simpa using hty, by simpa [Catalog.distance] using hbase⟩
  have hstruct : v.isStruct = true := by rw [← Value.isLinear_ty]; exact hinside.isLinear hsteps
  have hstop : a + (c.sizeOf? v.ty).getD 0 < 2 ^ 64 := by
    rw [hv.size hlaid.sound]
    exact (hholds hstruct).has.stop_lt hM
  rw [Value.handle_struct hstruct] at hbase
  obtain ⟨code, address, hcode, hread, hruns⟩ := hinside.walk hlaid.sound hv.usable hsmall base w
  obtain ⟨haddressType, hread⟩ := hread hsteps
  obtain ⟨R', hchanges, hruns, haddress⟩ := hruns hlaid.toDeclaredIn hstop hbase
  have hempty : steps.isEmpty = false := by simpa using hsteps
  rcases reading with _ | _
  · cases hcode.symm.trans hres
    simpa [hempty] using ⟨R', hruns M, hchanges, haddressType, haddress⟩
  cases hlin : u.isStruct with
  | true =>
    rw [Value.isLinear_ty, hlin] at hread
    cases hread.symm.trans hres
    refine ⟨R', hruns M, hchanges, haddressType.trans ?_, ?_⟩
    · simp [TypeRef.irType_of_linear, Value.isLinear_ty, hlin]
    · simpa [Value.handle_struct hlin] using haddress
  | false =>
    rw [Value.isLinear_ty, hlin] at hread
    cases hread.symm.trans hres
    obtain ⟨kind, hkind, -⟩ := hu.primitive hlin
    rw [hkind]
    refine ⟨_, (hruns M).append (.load hM haddress hu hkind (hgoes.holds (hholds hstruct)).1), ?_, rfl, ?_⟩
    · exact (hchanges.mono le_rfl (Nat.le_succ _)).trans (.set (Nat.le_add_right ..) (Nat.lt_succ_self _) _ _)
    · rw [Value.handle_scalar hlin]
      exact Registers.argument_set_self ..

/-- **Going to a place** that a variable leads to, for its value or for its address. -/
theorem walkTo_simulates (l : Location) (reading : Bool) : Attains (walkTo c l reading) w fun result w' =>
    w.Steady numbers w' ∧ (w.scope.Admitted numbers → result.2.value.Admitted numbers) ∧
      ∀ {site : Site} {R} {M} {place} {env} {entry} {distance}
        {u}, c.LaidIn site.program → w.scope.Holds c R M place env → env.at? l.root = some entry → M.Proper →
          entry.2.Goes l.steps distance u → R.Blank w.fresh w'.fresh →
            ∃ R', site.Runs result.1 R M R' M ∧ Quiet env place w.fresh w'.fresh R M R' M ∧
              w'.scope.Holds c R' M place env ∧
              result.2.ty = (if reading || l.steps.isEmpty then u.ty.irType else u.ty.storageType.pointerTo) ∧
              R'.argument result.2 = .ok (if reading || l.steps.isEmpty then u.handle (place l.root + distance)
                else .address (place l.root + distance)) := by
  refine .bind ((readVariable_simulates c numbers l.root).mono fun read w1 _ hread => ?_)
  obtain ⟨hsteady, hadmitted, hread⟩ := hread
  refine .bind ((walkSteps_simulates c numbers reading read.2 l.steps).mono fun result w2 _ hres => ?_)
  obtain ⟨hscope, hfresh, hadmitted', hres⟩ := hres
  have hsteady' : w1.Steady numbers w2 := .of_scope hscope hfresh
  refine .pure ⟨hsteady.trans hsteady', fun hw => hadmitted' (hadmitted hw), ?_⟩
  intro site R M place env entry distance u hlaid hholds hentry hM hgoes hblank
  obtain ⟨R1, hruns1, hquiet1, hholds1, hty1, hvalue1⟩ :=
    hread hholds hentry hM (hblank.mono le_rfl hsteady'.fresh)
  obtain ⟨v, -, -, hvar⟩ := hholds.exists_var hentry
  have hstruct (hv : entry.2.isStruct = true) : M.Holds (place l.root) entry.2 :=
    (hvar.linear (by rw [hvar.ty, Value.isLinear_ty, hv])).2.1
  have hblank1 := (hblank.mono hsteady.fresh le_rfl).changes hquiet1.changes (.inr le_rfl)
  obtain ⟨R2, hruns2, hchanges2, hty2, hvalue2⟩ :=
    hres hlaid hM hvar.fits hstruct hgoes hty1 hvalue1 hblank1
  have hquiet2 : Quiet env place w1.fresh w2.fresh R1 M R2 M :=
    ⟨hchanges2, hchanges2.le hblank1, hM, le_rfl, fun _ _ _ => rfl⟩
  refine ⟨R2, hruns1.append hruns2, hquiet1.append hquiet2 hsteady.fresh hsteady'.fresh, ?_, hty2, hvalue2⟩
  rw [hscope]
  exact hholds1.mono hquiet2.le le_rfl fun _ _ => rfl

/-! ### New memory -/

/-- What taking memory leaves alone: older registers, and all bytes. -/
structure Enters (first last : Nat) (R : Registers) (M : Memory) (R' : Registers) (M' : Memory) : Prop where
  changes : Registers.Changes first last R R'
  size : M.size ≤ M'.size
  bytes : ∀ b < M.size, M'.byteAt b = M.byteAt b

/-- **Memory is taken** for a value. All its bytes are zero. -/
theorem Site.Simulates.room {setting : Setting} (hlimit : setting.limit = some Memory.limit) {site : Site}
    (hlaid : setting.catalog.LaidIn site.program) (hx : x.Fits setting.catalog) (hM : M.Proper) (r : Local) :
    site.Simulates (setting.reserve x.ty) [.set r (.alloc x.ty.storageType)] rest R M fun _ R' M' =>
      R' = R.set r (.address M.size) ∧ Enters r (r + 1) R M R' M' ∧ M'.Proper ∧ M'.Has M.size x.bytes.length ∧
        ∀ b, M.size ≤ b → M'.byteAt b = 0 := by
  refine .reserve hlimit hlaid.sound hlaid.toDeclaredIn hx.usable (hx.size hlaid.sound) fun hroom => ?_
  refine ⟨rfl, ⟨.set le_rfl (Nat.lt_succ_self r) R _, ?_, fun _ _ => Memory.byteAt_grow ..⟩, hM.grow hroom,
    hM.has_new _, fun b hb => ?_⟩
  · simp
  · rw [Memory.byteAt_grow]
    exact Memory.byteAt_of_size_le hb

/-! ### Copies -/

/-- **Copying a structure** to where there is room for it. -/
theorem copyStructure_simulates (ref : StructureRef) (destination source : Argument) :
    Attains (copyStructure ref destination source) w fun code w' =>
      w'.scope = w.scope ∧ w'.fresh = w.fresh + 3 ∧
        ∀ {site : Site} {R M x a b},
          c.LaidIn site.program → M.Proper → x.Fits c → x.ty = ⟨.struct ref, 1⟩ →
          R.argument source = .ok (.address a) → M.Holds a x →
          R.argument destination = .ok (.address b) → M.Has b x.bytes.length → R.Blank w.fresh w'.fresh →
            ∃ R', Registers.Changes w.fresh w'.fresh R R' ∧ site.Runs code R M R' (M.patch b x.bytes) := by
  obtain ⟨code, hcode, hruns⟩ := copyStructure_runs ref destination source w
  refine Ensures.of_eq hcode ⟨rfl, rfl, ?_⟩
  intro site R M x a b hlaid hM hx hty hsrc hholds hdest hhas hblank
  have hsize : sizeOf site.program ref.irType = .ok x.bytes.length := by
    have hsize := Value.Fits.sizeOf hlaid.sound hlaid.toDeclaredIn hx
    rw [hty] at hsize
    exact hsize.trans (Memory.fit_of_lt (hhas.count_lt hM))
  have hword := hholds.has.toNat_word hM
  have hword' := hhas.toNat_word hM
  obtain ⟨R', hchanges, hruns⟩ := hruns hsize hM (fun _ h => (h.le hblank).argument hsrc)
    (fun _ h => (h.le hblank).argument hdest) (by rw [hword]; exact hholds.has) (by rwa [hword'])
  rw [hword, hword', hholds.bytes] at hruns
  exact ⟨R', hchanges, hruns⟩

/-- **Copying a structure to new memory.** -/
theorem cloneStructure_simulates (setting : Setting) (hlimit : setting.limit = some Memory.limit) (ref : StructureRef)
    (source : Argument) : Attains (cloneStructure ref source) w fun result w' =>
      w'.scope = w.scope ∧ (w.fresh : Nat) ≤ w'.fresh ∧
        ∀ {site : Site} {rest : Code} {R M x a},
          setting.catalog.LaidIn site.program → M.Proper → x.Fits setting.catalog → x.ty = ⟨.struct ref, 1⟩ →
          R.argument source = .ok (.address a) → M.Holds a x → R.Blank w.fresh w'.fresh →
            site.Simulates (setting.reserve x.ty) result.1 rest R M fun _ R' M' =>
              Registers.Changes w.fresh w'.fresh R R' ∧ R'.argument result.2 = .ok (.address M.size) ∧ M'.Proper ∧
                M.size ≤ M'.size ∧ M'.Holds M.size x ∧ ∀ b < M.size, M'.byteAt b = M.byteAt b := by
  refine .bind (.fresh (.bind ((copyStructure_simulates setting.catalog ref _ source).mono fun copy w' _ hcopy => ?_)))
  obtain ⟨hscope, hfresh, hcopy⟩ := hcopy
  have hlast : (w.fresh : Nat) < w'.fresh := by
    grind
  refine .pure ⟨hscope, hlast.le, ?_⟩
  intro site rest R M x a hlaid hM hx hty hsrc hholds hblank
  have hstor : x.ty.storageType = ref.irType := by rw [hty]; rfl
  rw [← hstor]
  refine Site.Simulates.behind ((Site.Simulates.room hlimit hlaid hx hM w.fresh).mono fun _ R1 M1 hroom => ?_)
  obtain ⟨hR1, hentered, hM1, hhas, -⟩ := hroom
  have hchanges1 := hentered.changes.mono le_rfl hlast
  have hholds1 : M1.Holds a x := hholds.of_bytes hentered.size fun b hb =>
    hentered.bytes b (hb.2.trans_le hholds.has.allocated)
  have hblank1 : R1.Blank (w.fresh + 1) w'.fresh :=
    (hblank.mono (Nat.le_succ _) le_rfl).changes hentered.changes (.inr le_rfl)
  have hclone (ty : IR.Ty) : R1.argument (.register ty w.fresh) = .ok (.address M.size) := by
    rw [hR1]
    exact R.argument_set_self ..
  obtain ⟨R2, hchanges2, hruns2⟩ :=
    hcopy hlaid hM1 hx hty ((hchanges1.le hblank).argument hsrc) hholds1 (hclone _) hhas hblank1
  obtain ⟨hpatched, hothers⟩ := hhas.patch
  refine ⟨R2, _, Memory.size_patch .., hruns2, ?_, ?_, hM1.patch .., ?_, hpatched, fun b hb => ?_⟩
  · exact hchanges1.trans (hchanges2.mono (Nat.le_succ _) le_rfl)
  · exact (hchanges2.le hblank1).argument (hclone _)
  · rw [Memory.size_patch]
    exact hentered.size
  · rw [hothers b fun hcovers => Nat.not_lt.2 hcovers.1 hb]
    exact hentered.bytes b hb

end Lowering
