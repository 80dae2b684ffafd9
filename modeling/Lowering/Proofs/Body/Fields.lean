import Lowering.Proofs.Body.Aggregate
import Lowering.Proofs.Body.Places
import Lowering.Proofs.Machine.Scalar
/-!
# Fields of structures as places in memory

The steps of a path that follows no pointer stay inside of one structure (`Inside`), at a distance from its first byte.
Two paths lead to bytes that do not overlap unless one goes on where the other ends (`Inside.apart`), and every byte of
the structure is one of a scalar (`Sound.exists_leaf`). The code that goes along such a path adds up the distance,
whether or not there is memory at the end (`Inside.walk`).
-/

namespace Lowering

open List
open IR (Argument)

namespace Catalog

variable {c : Catalog} {t target : TypeRef} {ref : StructureRef} {layout : Layout} {steps : List Step} {index : Nat}
  {field : Field}

/-- The bytes of the fields before each step of a path. -/
def distance (c : Catalog) (steps : List Step) : Nat :=
  (steps.map fun step => (c.layout? step.struct).elim 0 fun layout => c.fieldsSize (layout.fields.take step.index)).sum

/-- Steps that lead from a value to a part of it: each goes to a field of a structure, and not through a pointer. -/
inductive Inside (c : Catalog) : TypeRef → List Step → TypeRef → Prop where
  | here (t : TypeRef) : c.Inside t [] t
  | field {t target : TypeRef} {ref : StructureRef} {layout : Layout} {index : Nat} {field : Field} {steps : List Step}
      (href : t.linear? = some ref) (hlayout : c.layout? ref = some layout)
      (hfield : layout.fields[index]? = some field)
      (hrest : c.Inside field.ty steps target) : c.Inside t (⟨ref, index, field.ty⟩ :: steps) target

/-- A path as accesses into a structure are resolved, on which no pointer is followed. -/
def PathInto (c : Catalog) (ref : StructureRef) (steps : List Step) (target : TypeRef) : Prop :=
  (∃ accesses, c.follow ⟨.struct ref, 1⟩ accesses = .ok (steps, target)) ∧
    ∀ step ∈ steps.dropLast, step.ty.isLinear = true

/-- A path through structures only stays inside, also where it starts at a pointer. -/
theorem Leads.inside (h : c.Leads t steps target) (hinline : ∀ step ∈ steps.dropLast, step.ty.isLinear = true)
    (href : t.structure? = some ref) (hsteps : steps = [] → t.isLinear = true) :
    c.Inside ⟨.struct ref, 1⟩ steps target := by
  have heq {t : TypeRef} {ref} (href : t.structure? = some ref) (hlin : t.isLinear = true) : t = ⟨.struct ref, 1⟩ := by
    obtain ⟨inner, hinner⟩ := TypeRef.isLinear_iff.1 hlin
    cases (structure?_of_linear? hinner).symm.trans href
    exact TypeRef.linear?_eq_some hinner
  induction steps generalizing t ref with
  | nil =>
    cases h
    rw [heq href (hsteps rfl)]
    exact .here _
  | cons step rest ih =>
    obtain ⟨struct, index, ty⟩ := step
    obtain ⟨⟨hstructure, -⟩, ⟨layout, hlayout, field, hfield, hty⟩, hrest⟩ := h
    cases hstructure.symm.trans href
    subst hty
    refine .field rfl hlayout hfield ?_
    rcases rest with _ | ⟨next, rest⟩
    · cases hrest
      exact .here _
    have hlin : field.ty.isLinear = true := hinline _ (.head _)
    obtain ⟨inner, hinner⟩ := TypeRef.isLinear_iff.1 hlin
    have hnext := structure?_of_linear? hinner
    rw [heq hnext hlin]
    exact ih hrest (fun step hstep => hinline step (.tail _ hstep)) hnext fun _ => hlin

theorem Inside.isLinear (h : c.Inside t steps target) (hsteps : steps ≠ []) : t.isLinear = true := by
  cases h with
  | here => exact absurd rfl hsteps
  | field href => exact TypeRef.isLinear_iff.2 ⟨_, href⟩

theorem Inside.eq_of_nil (h : c.Inside t [] target) : t = target := by
  cases h
  rfl

theorem LaidOut.named?_eq (h : c.LaidOut layout) (hfield : layout.fields[index]? = some field) :
    layout.named? field.name = some (index, field.ty) := by
  obtain ⟨hindex, rfl⟩ := List.getElem?_eq_some_iff.1 hfield
  have hfirst : layout.fields.findIdx? (fun f => f.name == layout.fields[index].name) = some index := by
    refine findIdx?_eq_some_iff_getElem.2 ⟨hindex, beq_self_eq_true _, fun j hj => ?_⟩
    simpa using pairwise_iff_getElem.1 (pairwise_map.1 h.distinct) j index (by omega) hindex hj
  simp [Layout.named?, hfirst, hfield]

theorem Inside.resolves (hc : c.Sound) (h : c.Inside t steps target) :
    (∃ accesses, c.follow t accesses = .ok (steps, target)) ∧ ∀ step ∈ steps.dropLast, step.ty.isLinear = true := by
  induction h with
  | here t => exact ⟨⟨[], rfl⟩, by simp⟩
  | @field t _ ref layout index field steps href hlayout hfield hrest ih =>
    obtain ⟨⟨accesses, haccesses⟩, hinline⟩ := ih
    constructor
    · refine ⟨.field field.name :: accesses, ?_⟩
      have hkey : FieldKey.ofAccess (.field field.name) = .ok (.byName field.name) := rfl
      have hnamed := (hc.laidOut ref layout hlayout).named?_eq hfield
      have hstep (span : Span) : c.fieldOf t (.byName field.name) span = .ok ⟨ref, index, field.ty⟩ := by
        rw [TypeRef.linear?_eq_some href, fieldOf]
        simp [TypeRef.structure?, hlayout, FieldKey.lookup, hnamed, pure, Except.pure]
      rw [follow, hkey]
      simp only [bind, Except.bind, hstep, haccesses]
      rfl
    intro step hstep
    rcases steps with _ | ⟨next, rest⟩
    · cases hstep
    rcases mem_cons.1 hstep with rfl | hstep
    · exact hrest.isLinear (by simp)
    · exact hinline step hstep

theorem Sound.pathInto_iff (hc : c.Sound) : c.PathInto ref steps target ↔ c.Inside ⟨.struct ref, 1⟩ steps target := by
  refine ⟨fun h => ?_, Inside.resolves hc⟩
  obtain ⟨⟨accesses, haccesses⟩, hinline⟩ := h
  exact (follow_leads haccesses).inside hinline rfl fun _ => rfl

theorem Sound.usable_of_mem (hc : c.Sound) (hs : s ∈ c.structures) (hlayout : s.layout? = some layout) :
    c.layout? s.ref = some layout ∧ c.Usable ⟨.struct s.ref, 1⟩ ∧
      (c.sizeOf? ⟨.struct s.ref, 1⟩).getD 0 = layout.size := by
  obtain ⟨href, hsame⟩ := hc.of_mem hs
  rw [hlayout] at hsame
  refine ⟨hsame,
    ⟨fun ref h => ?_, fun _ _ => Nat.one_ne_zero, fun ref h => ?_⟩, by simp [sizeOf?, TypeRef.linear?, hsame]⟩
  · cases h
    exact href
  · cases h
    exact ⟨layout, hsame⟩

/-! ### Ranges of bytes -/

theorem distance_cons (hlayout : c.layout? ref = some layout) :
    c.distance (⟨ref, index, t⟩ :: steps) = c.fieldsSize (layout.fields.take index) + c.distance steps := by
  simp [distance, hlayout]

theorem fieldsSize_take_add_le {fields : List Field} (hfield : fields[index]? = some field)
    (hlater : index < later) :
    c.fieldsSize (fields.take index) + (c.sizeOf? field.ty).getD 0 ≤ c.fieldsSize (fields.take later) := by
  obtain ⟨more, rfl⟩ := Nat.exists_eq_add_of_le hlater
  rw [take_add, take_add_one, hfield]
  simp [fieldsSize]

variable (hc : c.Sound)
include hc

/-- **A path stays inside**, and what it leads to can be used. -/
theorem Inside.within (h : c.Inside t steps target) (ht : c.Usable t) :
    c.Usable target ∧ c.distance steps + (c.sizeOf? target).getD 0 ≤ (c.sizeOf? t).getD 0 := by
  induction h with
  | here => exact ⟨ht, by simp [distance]⟩
  | @field t _ ref layout index field steps href hlayout hfield _ ih =>
    have hlaid := hc.laidOut ref layout hlayout
    obtain ⟨husable, hle⟩ := ih (hlaid.usable field (mem_of_getElem? hfield))
    have hfits := c.fieldsSize_take_add_le hfield (List.getElem?_eq_some_iff.1 hfield).1
    have hsize : (c.sizeOf? t).getD 0 = layout.size := by simp [sizeOf?, href, hlayout]
    rw [take_length, ← hlaid.size] at hfits
    rw [distance_cons hlayout]
    exact ⟨husable, by omega⟩

/-- **Paths are apart** unless one goes on where the other ends. -/
theorem Inside.apart {p q : List Step} {t1 t2 : TypeRef} (hp : c.Inside t p t1) (hq : c.Inside t q t2) (ht : c.Usable t)
    (hpq : ¬ p <+: q) (hqp : ¬ q <+: p) : c.distance p + (c.sizeOf? t1).getD 0 ≤ c.distance q ∨
      c.distance q + (c.sizeOf? t2).getD 0 ≤ c.distance p := by
  induction hp generalizing q with
  | here => exact absurd q.nil_prefix hpq
  | @field t _ ref layout index field p href hlayout hfield hrest ih =>
    cases hq with
    | here => exact absurd List.nil_prefix hqp
    | @field _ _ ref' layout' index' field' q href' hlayout' hfield' hrest' =>
      cases href.symm.trans href'
      cases hlayout.symm.trans hlayout'
      have hlaid := hc.laidOut ref layout hlayout
      have husable := hlaid.usable field (mem_of_getElem? hfield)
      rw [distance_cons hlayout, distance_cons hlayout]
      rcases Nat.lt_trichotomy index index' with hlt | rfl | hlt
      · have hend := c.fieldsSize_take_add_le hfield hlt
        have hinside := (hrest.within hc husable).2
        omega
      · -- Both go to one field, so that they part later.
        cases hfield.symm.trans hfield'
        have := ih hrest' husable (fun h => hpq ((prefix_cons_inj _).2 h)) fun h => hqp ((prefix_cons_inj _).2 h)
        omega
      have hend := c.fieldsSize_take_add_le hfield' hlt
      have hinside := (hrest'.within hc (hlaid.usable field' (mem_of_getElem? hfield'))).2
      omega

omit hc in
theorem exists_field (fields : List Field) (hi : i < c.fieldsSize fields) : ∃ index field,
    fields[index]? = some field ∧ c.fieldsSize (fields.take index) ≤ i ∧
      i < c.fieldsSize (fields.take index) + (c.sizeOf? field.ty).getD 0 := by
  induction fields generalizing i with
  | nil => simp [fieldsSize] at hi
  | cons first fields ih =>
    by_cases hfirst : i < (c.sizeOf? first.ty).getD 0
    · exact ⟨0, first, rfl, by simp [fieldsSize], by simpa [fieldsSize] using hfirst⟩
    · have hcons (fields : List Field) :
          c.fieldsSize (first :: fields) = (c.sizeOf? first.ty).getD 0 + c.fieldsSize fields := by simp [fieldsSize]
      rw [hcons] at hi
      obtain ⟨index, field, hfield, hstart, hstop⟩ := ih (i := i - (c.sizeOf? first.ty).getD 0) (by omega)
      refine ⟨index + 1, field, by simpa using hfield, ?_⟩
      rw [take_succ_cons, hcons]
      omega

/-- **Every byte is one of a scalar** that a path leads to. -/
theorem Sound.exists_leaf (hlayout : c.layout? ref = some layout) (hi : i < layout.size) :
    ∃ steps target, c.Inside ⟨.struct ref, 1⟩ steps target ∧ target.isScalar = true ∧ c.distance steps ≤ i ∧
      i < c.distance steps + (c.sizeOf? target).getD 0 := by
  obtain ⟨rank, hrank⟩ := hc.ranked
  -- Structures inside have a smaller rank.
  induction hn : rank ref.id using Nat.strong_induction_on generalizing ref layout i with
  | _ n ih =>
    have hlaid := hc.laidOut ref layout hlayout
    rw [hlaid.size] at hi
    obtain ⟨index, field, hfield, hstart, hstop⟩ := exists_field layout.fields hi
    have hmem := mem_of_getElem? hfield
    rcases hlin : field.ty.isLinear with _ | _
    · refine ⟨[⟨ref, index, field.ty⟩], field.ty, .field rfl hlayout hfield (.here _), ?_, ?_⟩
      · exact TypeRef.isScalar_of_usable (hlaid.usable field hmem) (hlaid.notVoid field hmem) hlin
      · rw [distance_cons hlayout]
        exact ⟨hstart, hstop⟩
    obtain ⟨inner, hinner⟩ := TypeRef.isLinear_iff.1 hlin
    obtain ⟨layout', hlayout'⟩ := (hlaid.usable field hmem).linked inner hinner
    have hsize : (c.sizeOf? field.ty).getD 0 = layout'.size := by simp [sizeOf?, hinner, hlayout']
    obtain ⟨steps, target, hinside, hscalar, hlow, hhigh⟩ :=
      ih (rank inner.id) (hn ▸ (hrank ref layout hlayout).2 field hmem inner hinner) hlayout'
        (i := i - c.fieldsSize (layout.fields.take index)) (by omega) rfl
    rw [← TypeRef.linear?_eq_some hinner] at hinside
    refine ⟨_, target, .field rfl hlayout hfield hinside, hscalar, ?_⟩
    rw [distance_cons hlayout]
    omega

/-! ### The code for a path -/

omit hc in
theorem accessField_finds (hlayout : c.layout? ref = some layout) (hfield : layout.fields[index]? = some field)
    (hreading : reading = true → field.ty.isLinear = true) (base : Argument) (w : Workspace) :
    accessField c ref index base reading w = .ok
      ⟨[.set w.fresh (.elementPointer ref.irType base [.i32 0, .i32 index] field.ty.storageType.pointerTo)],
        .register field.ty.storageType.pointerTo w.fresh, field.ty⟩ { w with fresh := w.fresh + 1 } := by
  have hat : layout.at? index = some (index, field.ty) := by simp [Layout.at?, hfield]
  have hfind : (reading && !field.ty.isLinear) = false := by
    cases reading with
    | false => rfl
    | true => simp [hreading rfl]
  unfold accessField
  simp only [hlayout, hat, hfind]
  rfl

omit hc in
theorem accessField_reads (hlayout : c.layout? ref = some layout) (hfield : layout.fields[index]? = some field)
    (hlin : field.ty.isLinear = false) (base : Argument) (w : Workspace) :
    accessField c ref index base true w = .ok
      ⟨[.set w.fresh (.elementPointer ref.irType base [.i32 0, .i32 index] field.ty.storageType.pointerTo),
        .set (w.fresh + 1) (.load field.ty.storageType (.register field.ty.storageType.pointerTo w.fresh))],
        .register field.ty.irType (w.fresh + 1), field.ty⟩ { w with fresh := w.fresh + 2 } := by
  have hat : layout.at? index = some (index, field.ty) := by simp [Layout.at?, hfield]
  unfold accessField
  simp only [hlayout, hat, hlin]
  rfl

/-- **Going along a path** gives the address at its distance; and reading a scalar there loads it from that address. -/
theorem Inside.walk (h : c.Inside t steps target) (ht : c.Usable t) (hsmall : ∀ step ∈ steps, step.index < 2 ^ 31)
    (base : Argument) (w : Workspace) : ∃ code address,
      walkSteps c false base steps w = .ok (code, address) { w with fresh := w.fresh + steps.length } ∧
      (steps ≠ [] → address.ty = target.storageType.pointerTo ∧ walkSteps c true base steps w =
        if target.isLinear then .ok (code, address) { w with fresh := w.fresh + steps.length }
        else .ok (code ++ [.set (w.fresh + steps.length) (.load target.storageType address)],
          .register target.irType (w.fresh + steps.length)) { w with fresh := w.fresh + steps.length + 1 }) ∧
      ∀ {site : Site} {R a}, c.DeclaredIn site.program → a + (c.sizeOf? t).getD 0 < 2 ^ 64 →
        R.argument base = .ok (.address a) → ∃ R', Registers.Changes w.fresh (w.fresh + steps.length) R R' ∧
          (∀ M, site.Runs code R M R' M) ∧ R'.argument address = .ok (.address (a + c.distance steps)) := by
  induction h generalizing base w with
  | here =>
    refine ⟨[], base, rfl, fun h => absurd rfl h, ?_⟩
    intro site R a hm hstop hbase
    exact ⟨R, .refl _ _ R, fun _ => .nil, hbase⟩
  | @field t target ref layout index field steps href hlayout hfield hrest ih =>
    have hlaid := hc.laidOut ref layout hlayout
    have husable := hlaid.usable field (mem_of_getElem? hfield)
    have hreading : (false || !steps.isEmpty) = true → field.ty.isLinear = true := by
      intro h
      exact hrest.isLinear (by simpa using h)
    obtain ⟨code, address, hcode, hread, hruns⟩ := ih husable (fun step hstep => hsmall step (.tail _ hstep))
      (.register field.ty.storageType.pointerTo w.fresh) { w with fresh := w.fresh + 1 }
    have hlength : w.fresh + 1 + steps.length = w.fresh + (steps.length + 1) := Nat.add_right_comm ..
    rw [hlength] at hcode hread hruns
    refine ⟨.set w.fresh (.elementPointer ref.irType base [.i32 0, .i32 index] field.ty.storageType.pointerTo) :: code,
      address, ?_, fun _ => ?_, ?_⟩
    · rw [walkSteps]
      simp only [bind, EStateM.bind, accessField_finds hlayout hfield hreading, hcode]
      rfl
    · rw [walkSteps]
      by_cases hsteps : steps = []
      · subst hsteps
        cases hrest.eq_of_nil
        cases hcode
        refine ⟨rfl, ?_⟩
        rcases hlin : field.ty.isLinear with _ | _
        · simp only [bind, EStateM.bind, Bool.true_or, accessField_reads hlayout hfield hlin]
          rfl
        simp only [bind, EStateM.bind, accessField_finds hlayout hfield fun _ => hlin]
        rfl
      obtain ⟨hty, hread⟩ := hread hsteps
      refine ⟨hty, ?_⟩
      simp only [bind, EStateM.bind, accessField_finds hlayout hfield fun _ => hrest.isLinear hsteps, hread]
      cases target.isLinear <;> rfl
    intro site R a hm hstop hbase
    have hlists := ht.known ref (structure?_of_linear? href)
    have hsize : (c.sizeOf? t).getD 0 = layout.size := by simp [sizeOf?, href, hlayout]
    have hfits := c.fieldsSize_take_add_le hfield (List.getElem?_eq_some_iff.1 hfield).1
    rw [take_length, ← hlaid.size] at hfits
    rw [hsize] at hstop
    obtain ⟨R', hchanges, hruns, haddress⟩ := hruns hm (by omega) (Registers.argument_set_self R w.fresh
      (.address (a + c.fieldsSize (layout.fields.take index))) field.ty.storageType.pointerTo)
    refine ⟨R', ?_, fun M => ?_, ?_⟩
    · exact (Registers.Changes.set le_rfl (Nat.lt_add_of_pos_right (Nat.succ_pos _)) R _).trans
        (hchanges.mono (Nat.le_succ _) le_rfl)
    · exact (Site.Runs.field hc hm hbase hlists hlayout hstop hfield (hsmall _ (.head _)) _ _).append (hruns M)
    · rw [distance_cons hlayout, ← Nat.add_assoc]
      exact haddress

end Catalog

end Lowering
