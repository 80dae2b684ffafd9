import Lowering.Proofs.Types.Embedding
/-!
# Units without pointers

Where no pointer mark is written anywhere in a unit, also not inside templates and their arguments, no type in it is a
pointer: parameters of templates stand for types without pointers, so the fields of instances are built-in values and
structures, like all other fields (`catalogOf_direct`).
-/

namespace Lowering

open List

/-! ### Written types -/

mutual

/-- Whether a written type has no pointer mark in it. -/
def TypeName.isDirect : TypeName → Bool
  | ⟨depth, _, arguments, _⟩ => depth == 0 && TemplateArgument.allDirect arguments

/-- Whether an argument of a template has no pointer mark in it. -/
def TemplateArgument.isDirect : TemplateArgument → Bool
  | .type ty => ty.isDirect
  | .constant _ => true

/-- Whether arguments of a template have no pointer mark in them. -/
def TemplateArgument.allDirect : List TemplateArgument → Bool
  | [] => true
  | first :: rest => first.isDirect && TemplateArgument.allDirect rest

end

/-- Whether a unit has no pointer mark in it. -/
def SourceUnit.isDirect (u : SourceUnit) : Bool :=
  u.structures.all (fun s => s.fields.all fun field => field.ty.isDirect) &&
    u.functions.all fun f => f.writtenTypes.all TypeName.isDirect

theorem TemplateArgument.allDirect_eq_true :
    TemplateArgument.allDirect arguments = true ↔ ∀ a ∈ arguments, a.isDirect = true := by
  induction arguments with
  | nil => simp [TemplateArgument.allDirect]
  | cons first rest ih => rw [TemplateArgument.allDirect, Bool.and_eq_true, ih, forall_mem_cons]

theorem TypeName.isDirect_eq_true {ty : TypeName} :
    ty.isDirect = true ↔ ty.depth = 0 ∧ ∀ a ∈ ty.arguments, a.isDirect = true := by
  obtain ⟨depth, name, arguments, span⟩ := ty
  rw [TypeName.isDirect, Bool.and_eq_true, beq_iff_eq, TemplateArgument.allDirect_eq_true]

/-! ### Resolved types -/

/-- A type without pointers: its values are built-in ones and structures. -/
def TypeRef.Direct (t : TypeRef) : Prop := (∃ kind, t = .primitive kind) ∨ ∃ ref, t = ⟨.struct ref, 1⟩

theorem TypeRef.Direct.storageType {t : TypeRef} (h : t.Direct) : t.storageType.pointer = 0 := by
  obtain ⟨kind, rfl⟩ | ⟨ref, rfl⟩ := h <;> rfl

theorem TypeRef.Direct.irType {t : TypeRef} (h : t.Direct) (hlin : t.isLinear = false) : t.irType.pointer = 0 := by
  obtain ⟨kind, rfl⟩ | ⟨ref, rfl⟩ := h
  · rfl
  · cases hlin

/-- What template parameters stand for has no pointers. -/
def Bindings.Direct (bindings : Bindings) : Prop := ∀ b ∈ bindings, b.2.depth = 0

/-- A definition whose fields are written without pointers. -/
def StructureDefinition.Direct (definition : StructureDefinition) : Prop :=
  ∀ field ∈ definition.fields, field.ty.isDirect = true

namespace Catalog

/-- No structure has a pointer in it. -/
def Direct (c : Catalog) : Prop := ∀ ref layout, c.layout? ref = some layout → ∀ f ∈ layout.fields, f.ty.Direct

variable {c : Catalog} {bindings : Bindings} {ty : TypeName} {t : TypeRef}

theorem resolve_depth (hbinds : bindings.Direct) (hty : ty.isDirect = true) (h : c.resolve bindings ty = .ok t) :
    t.depth = 0 := by
  have hdepth := (TypeName.isDirect_eq_true.1 hty).1
  obtain ⟨bound, hbound, rfl⟩ | ⟨kind, rfl⟩ | ⟨id, s, -, -, rfl⟩ := resolve_cases h
  · obtain ⟨before, after, hsplit, -⟩ := lookup_eq_some_iff.1 hbound
    have hzero : bound.depth = 0 := hbinds (ty.name.symbol, bound) (by simp [hsplit])
    rw [hdepth, TypeRef.offset, hzero]
    rfl
  · exact congrArg UInt64.toNat hdepth
  · exact congrArg UInt64.toNat hdepth

theorem lowered_direct (h : t.depth = 0) : t.lowered.Direct := by
  obtain ⟨head, depth⟩ := t
  cases h
  cases head with
  | primitive kind => exact .inl ⟨kind, rfl⟩
  | struct ref => exact .inr ⟨ref, rfl⟩

/-- The type of a place is without pointers if it is written without. -/
theorem resolveValue_direct (hbinds : bindings.Direct) (hty : ty.isDirect = true)
    (h : c.resolveValue bindings ty = .ok t) : t.Direct := by
  obtain ⟨t, ht, rfl⟩ := map_eq_ok h
  exact lowered_direct (resolve_depth hbinds hty ht)

theorem resolveArguments_depth (hbinds : bindings.Direct) {ts : List TypeRef}
    (hargs : ∀ a ∈ arguments, a.isDirect = true) (h : c.resolveArguments bindings arguments = .ok ts) :
    ∀ t ∈ ts, t.depth = 0 := by
  induction arguments generalizing ts with
  | nil =>
    cases h
    simp
  | cons first rest ih =>
    obtain ⟨t, ht, h⟩ := bind_eq_ok h
    obtain ⟨ts', hts, h⟩ := bind_eq_ok h
    cases h
    refine forall_mem_cons.2 ⟨?_, ih (fun a ha => hargs a (.tail _ ha)) hts⟩
    cases first with
    | type ty =>
      have hdir := hargs _ (.head _)
      exact resolve_depth hbinds hdir ht
    | constant constant =>
      cases ht

/-! ### Catalogs -/

/-- All that structures will be laid out from is without pointers. -/
structure Pointerless (c : Catalog) : Prop where
  structures : ∀ s ∈ c.structures, s.bindings.Direct ∧ s.source.Direct
  templates : ∀ t ∈ c.templates, t.source.Direct

theorem Pointerless.addStructure (hc : c.Pointerless) (name represent : String)
    (hbinds : bindings.Direct) (hsrc : source.Direct) :
    (c.addStructure name represent source bindings).Pointerless where
  structures := forall_mem_append.2 ⟨hc.structures, by simpa using ⟨hbinds, hsrc⟩⟩
  templates := hc.templates

theorem Pointerless.declare (hc : c.Pointerless) (hdefn : definition.Direct)
    (h : c.declare definition = .ok c') : c'.Pointerless := by
  unfold Catalog.declare at h
  dsimp only at h
  split at h
  · cases h
  split at h
  · cases h
    have hnone : Bindings.Direct [] := by simp [Bindings.Direct]
    exact ⟨(hc.addStructure _ _ hnone hdefn).structures, hc.templates⟩
  · cases h
    exact ⟨hc.structures, forall_mem_append.2 ⟨hc.templates, by simpa using hdefn⟩⟩

/-- What a written type may be that instances are made for. -/
def Admissible (bindings : Bindings) (ty : TypeName) : Prop := bindings.Direct ∧ ty.isDirect = true

theorem pointerless_stable : Stable Pointerless fun _ => Admissible where
  add {c bindings ty id template arguments} hc hty htemplate hargs _ _ := by
    have hdepth := resolveArguments_depth hty.1 (TypeName.isDirect_eq_true.1 hty.2).2 hargs
    have hsrc : template.source.Direct := hc.templates template (mem_of_getElem? htemplate)
    have hbinds : (Bindings.ofPairs ((template.source.parameters.map Identifier.symbol).zip arguments)).Direct := by
      intro b hb
      rw [Bindings.ofPairs, mem_reverse] at hb
      exact hdepth b.2 (of_mem_zip hb).2
    refine ⟨⟨(hc.addStructure _ _ hbinds hsrc).structures, fun t ht => ?_⟩, fun field hfield =>
      ⟨hbinds, hsrc field hfield⟩⟩
    obtain ht | rfl := mem_or_eq_of_mem_set ht
    · exact hc.templates t ht
    · exact hsrc
  arguments hty inner hinner := by
    have hdir := (TypeName.isDirect_eq_true.1 hty.2).2 _ hinner
    exact ⟨hty.1, hdir⟩
  mono _ hty := hty

end Catalog

/-! ### Units -/

section Units

theorem unlinkedOf_fresh (fileId : Nat) (u : SourceUnit) (r : Reporter) : (unlinkedOf fileId u r).Fresh := by
  refine unlinkedOf_induct (by simp [Catalog.Fresh, Catalog.structure?]) ?_ Catalog.fresh_stable
    (fun _ _ _ => trivial) r
  intro definition _ c c' hc h
  exact hc.declare h

/-- The types of a unit are laid out as its definitions say. -/
theorem catalogOf_traces (fileId : Nat) (u : SourceUnit) (r : Reporter) :
    Catalog.Traces (unlinkedOf fileId u r) (catalogOf fileId u r).1 :=
  (Catalog.linkEach_tries (unlinkedOf_sound fileId u r) (.refl (unlinkedOf_fresh fileId u r)) _).1

variable {u : SourceUnit}

theorem SourceUnit.isDirect_eq_true : u.isDirect = true ↔
    (∀ s ∈ u.structures, s.Direct) ∧ ∀ f ∈ u.functions, ∀ ty ∈ f.writtenTypes, ty.isDirect = true := by
  simp [SourceUnit.isDirect, StructureDefinition.Direct]

/-- **The types of a unit without pointers are without pointers.** -/
theorem catalogOf_direct (hu : u.isDirect = true) (fileId : Nat) (r : Reporter) : (catalogOf fileId u r).1.Direct := by
  obtain ⟨hstructs, hfns⟩ := SourceUnit.isDirect_eq_true.1 hu
  have hnone : Bindings.Direct [] := by simp [Bindings.Direct]
  have hwritten : ∀ ty ∈ u.writtenTypes, Catalog.Admissible [] ty := by
    refine forall_mem_append.2 ⟨fun ty hty => ⟨hnone, ?_⟩, fun ty hty => ⟨hnone, ?_⟩⟩
    · obtain ⟨s, hs, hty⟩ := mem_flatMap.1 hty
      unfold StructureDefinition.writtenTypes at hty
      split at hty
      · obtain ⟨field, hfield, rfl⟩ := mem_map.1 hty
        exact hstructs s hs field hfield
      · cases hty
    · grind
  have hpointerless : (unlinkedOf fileId u r).Pointerless :=
    unlinkedOf_induct ⟨by simp, by simp⟩
      (fun definition hdefn c c' hc h => hc.declare (hstructs definition hdefn) h)
      Catalog.pointerless_stable (fun ty hty _ => hwritten ty hty) r
  have htraces := catalogOf_traces fileId u r
  intro ref layout hlayout f hf
  obtain ⟨s, hs, hlayout⟩ := Option.bind_eq_some_iff.1 hlayout
  have hsrc := hpointerless.structures _ (mem_of_getElem? (htraces.structure? hs))
  obtain ⟨field, hfield, -, hresolve, -⟩ := exists_left (htraces.described ref.id s layout hs hlayout).matched hf
  exact Catalog.resolveValue_direct hsrc.1 (hsrc.2 field hfield) hresolve

end Units

end Lowering
