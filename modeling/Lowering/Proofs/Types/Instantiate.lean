import Lowering.Proofs.Blames
import Lowering.Proofs.Types.Makes
/-!
# What making instances keeps

A property of catalogs that one new instance keeps is kept all the way (`Catalog.Stable.instantiate`): through the
arguments of a written type and through the fields of each new instance, with what the parameters of its template stand
for.
-/

namespace Lowering.Catalog

open List

/-- The step keeps `P` and everything the catalog `c` has, also when it fails, which it does with an error only. -/
def Keeps {α : Type} (P : Catalog → Prop) (x : Cataloging α) (c : Catalog) : Prop :=
  Ensures x c (fun _ c' => P c' ∧ c.Extends c') fun d c' => P c' ∧ c.Extends c' ∧ d.isError = true

theorem openInstance_isError {c : Catalog} {ty : TypeName} {id d}
    (h : c.openInstance bindings ty id = .error d) : d.isError = true := by
  rcases hargs : c.resolveArguments bindings ty.arguments with d' | arguments
  · obtain ⟨hd, -⟩ := resolveArguments_blames _ d' hargs
    rw [openInstance, hargs] at h
    cases h
    exact hd
  rcases ht : c.templates[id]? with _ | t
  · rw [openInstance, hargs, ht] at h
    cases h
  rw [openInstance_eq hargs ht] at h
  split at h
  · cases h
    rfl
  · split at h <;> cases h

/-- A property of catalogs that a new instance keeps, if it is made for a written type that is admitted; all types that
instances are made for on the way are then admitted too. -/
structure Stable (P : Catalog → Prop) (Admits : Catalog → Bindings → TypeName → Prop) : Prop where
  add : ∀ {c : Catalog} {bindings : Bindings} {ty : TypeName} {id : Nat} {template : Template}
    {arguments : List TypeRef}, P c → Admits c bindings ty → c.templates[id]? = some template →
      c.resolveArguments bindings ty.arguments = .ok arguments →
      arguments.length = template.source.parameters.length → template.instances.lookup arguments = none →
        P (c.addInstance id template arguments) ∧ ∀ field ∈ template.source.fields,
          Admits (c.addInstance id template arguments)
            (Bindings.ofPairs ((template.source.parameters.map Identifier.symbol).zip arguments)) field.ty
  arguments : ∀ {c bindings ty}, Admits c bindings ty → ∀ inner, .type inner ∈ ty.arguments → Admits c bindings inner
  mono : ∀ {c c' bindings ty}, c.Extends c' → Admits c bindings ty → Admits c' bindings ty

namespace Stable

variable {P : Catalog → Prop} {Admits : Catalog → Bindings → TypeName → Prop} {bindings : Bindings} {c : Catalog}

theorem openInstance (h : Stable P Admits) (hc : P c) {ty : TypeName} (hty : Admits c bindings ty) {id opened inner}
    {types : List TypeName} (hopen : c.openInstance bindings ty id = .ok (opened, inner, types)) :
    P opened ∧ c.Extends opened ∧ ∀ ty ∈ types, Admits opened inner ty := by
  obtain ⟨arguments, hargs, ⟨rfl, rfl, -⟩ | ⟨t, ht, hlen, hnew, rfl, rfl, rfl⟩⟩ := openInstance_inv hopen
  · exact ⟨hc, .refl _, fun _ hmem => absurd hmem not_mem_nil⟩
  · obtain ⟨hadded, hfields⟩ := h.add hc hty ht hargs hlen hnew
    exact ⟨hadded, (addInstance_adds ..).toExtends, forall_mem_map.2 hfields⟩

/-- However making instances ends, the property is kept. -/
theorem makes (h : Stable P Admits) {depth : Nat} {tys : List TypeName}
    (hmakes : Makes depth bindings tys c ending) (hc : P c) (htys : ∀ ty ∈ tys, Admits c bindings ty) :
    Keeps P (fun _ => ending) c := by
  induction hmakes with
  | nil => exact ⟨hc, .refl _⟩
  | plain _ _ ih =>
    obtain ⟨hty, hrest⟩ := forall_mem_cons.1 htys
    refine ih hc (forall_mem_append.2 ⟨fun inner hmem => ?_, hrest⟩)
    exact h.arguments hty inner (TypeName.mem_inner.1 hmem)
  | tooDeep => exact ⟨hc, .refl _, rfl⟩
  | argumentFails _ _ _ ih =>
    exact ih hc fun inner hmem => h.arguments (htys _ (.head _)) inner (TypeName.mem_inner.1 hmem)
  | refused _ _ _ hopen ih =>
    obtain ⟨hc', hextends⟩ := ih hc fun inner hmem => h.arguments (htys _ (.head _)) inner (TypeName.mem_inner.1 hmem)
    exact ⟨hc', hextends, openInstance_isError hopen⟩
  | fieldFails _ _ _ hopen _ ihArguments ihFields =>
    have hty := htys _ (.head _)
    obtain ⟨hc', hextends⟩ := ihArguments hc fun inner hmem => h.arguments hty inner (TypeName.mem_inner.1 hmem)
    obtain ⟨hopened, hextends', htypes⟩ := h.openInstance hc' (h.mono hextends hty) hopen
    obtain ⟨hc'', hextends'', hd⟩ := ihFields hopened htypes
    exact ⟨hc'', (hextends.trans hextends').trans hextends'', hd⟩
  | made _ _ _ hopen _ _ ihArguments ihFields ihRest =>
    obtain ⟨hty, hrest⟩ := forall_mem_cons.1 htys
    obtain ⟨hc', hextends⟩ := ihArguments hc fun inner hmem => h.arguments hty inner (TypeName.mem_inner.1 hmem)
    obtain ⟨hopened, hextends', htypes⟩ := h.openInstance hc' (h.mono hextends hty) hopen
    obtain ⟨hc'', hextends''⟩ := ihFields hopened htypes
    have hextended := (hextends.trans hextends').trans hextends''
    exact (ihRest hc'' fun ty hmem => h.mono hextended (hrest ty hmem)).mono
      (fun _ _ _ hc => ⟨hc.1, hextended.trans hc.2⟩) fun _ _ _ hc => ⟨hc.1, hextended.trans hc.2.1, hc.2.2⟩

/-- **Making instances** for an admitted type keeps the property. -/
theorem instantiate (h : Stable P Admits) (hc : P c) {ty : TypeName} (hty : Admits c bindings ty) :
    Keeps P (Catalog.instantiate bindings ty) c :=
  h.makes (makes_instantiate.2 rfl) hc (forall_mem_singleton.2 hty)

end Stable

theorem instantiate_isError {c c' : Catalog} {ty : TypeName} (h : c.instantiate bindings ty = .error d c') :
    d.isError = true := by
  have hstable : Stable (fun _ => True) fun _ _ _ => True :=
    ⟨fun _ _ _ _ _ _ => ⟨trivial, fun _ _ => trivial⟩, fun _ _ _ => trivial, fun _ _ => trivial⟩
  exact ((hstable.instantiate trivial trivial).of_error h).2.2

/-- An instance that is made with types the catalog knows leaves it in good order. -/
theorem sound_stable : Stable Sound fun c bindings _ => ∀ b ∈ bindings, c.Knows b.2 where
  add {c _ _ id template arguments} hc hb _ hargs _ _ := by
    have hadds := addInstance_adds c id template arguments
    have hinner : ∀ b ∈ Bindings.ofPairs ((template.source.parameters.map Identifier.symbol).zip arguments),
        c.Knows b.2 := by
      intro b hb'
      rw [Bindings.ofPairs, mem_reverse] at hb'
      exact resolveArguments_knows hc.placed hb hargs b.2 (of_mem_zip hb').2
    exact ⟨hadds.sound hc hinner, fun _ _ b hb => hadds.toExtends.knows (hinner b hb)⟩
  arguments hb _ _ := hb
  mono hextends hb b hmem := hextends.knows (hb b hmem)

end Lowering.Catalog
