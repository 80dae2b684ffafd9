import Lowering.Proofs.Function.Linking
import Lowering.Proofs.Types.Link
/-!
# A function that can be called has its types

Linking a registry gives every function a signature whose types can be used, one type for each parameter, or marks it as
failed. So what a call comes down to is a function with a signature that fits the arguments, or a conversion between
numbers.
-/

namespace Lowering

/-- A function whose types are resolved, one for each parameter. -/
structure Function.Linked (c : Catalog) (f : Function) (types : Signature) : Prop where
  signature : f.signature = some types
  resolved : Function.resolveSignature c f.source = .ok types
  arity : types.parameters.length = f.source.parameters.length
  parameters : ∀ t ∈ types.parameters, c.Usable t ∧ t.isVoid = false
  result : c.Usable types.returnType

/-- Every function that can be called has its types. -/
def Registry.Sound (c : Catalog) (r : Registry) : Prop :=
  ∀ f ∈ r.functions, f.failed = false → ∃ types, f.Linked c types

variable {c : Catalog}

/-! ### Linking -/

theorem Function.resolveParameter_eq_ok {t : TypeRef} (h : resolveParameter c p = .ok t) :
    c.resolveValue [] p.ty = .ok t ∧ t.isVoid = false := by
  obtain ⟨t', ht, h⟩ := bind_eq_ok h
  split at h
  · cases h
  rename_i hvoid
  cases h
  exact ⟨ht, by simpa using hvoid⟩

theorem Registry.link_sound (hc : c.Sound) (hsettled : c.Settled) {r : Registry} (hr : r.Unlinked)
    {order : List String} : (r.link c order).1.Sound c := by
  intro f hf hok
  obtain ⟨i, hi⟩ := List.mem_iff_getElem?.1 hf
  obtain ⟨hsig, hfailed⟩ := hr.link_function? hi
  obtain ⟨o, htold, -⟩ := hfailed.1 hok
  unfold FunctionDefinition.overload? at htold
  split at htold
  · next types htypes =>
    have hresolved := htypes
    rw [htypes] at hsig
    obtain ⟨result, hres, htypes⟩ := bind_eq_ok htypes
    obtain ⟨parameters, hparams, htypes⟩ := bind_eq_ok htypes
    cases htypes
    refine ⟨_, hsig, hresolved, (mapM_eq_ok hparams).length_eq.symm, fun t ht => ?_,
      hc.resolveValue_usable hsettled hres⟩
    obtain ⟨p, -, hp⟩ := exists_of_mem_mapM hparams ht
    obtain ⟨ht, hvoid⟩ := Function.resolveParameter_eq_ok hp
    exact ⟨hc.resolveValue_usable hsettled ht, hvoid⟩
  · cases htold

/-! ### Finding -/

theorem Registry.findConversion_eq_some_iff {arguments : List TypeRef} :
    findConversion name arguments = some callee ↔ ∃ source target, callee = .conversion source target ∧
      arguments = [.primitive source] ∧ source.isNumeric = true ∧ target.isNumeric = true ∧
        Primitive.ofName? name = some target := by
  constructor
  · intro h
    unfold findConversion at h
    split at h
    · next argument =>
      obtain ⟨target, htgt, h⟩ := Option.bind_eq_some_iff.1 h
      obtain ⟨source, hsrc, h⟩ := Option.bind_eq_some_iff.1 h
      split at h
      · next hnum =>
        cases h
        simp only [Bool.and_eq_true] at hnum
        rw [Catalog.primitive?_eq_some hsrc]
        exact ⟨source, target, rfl, rfl, hnum.2, hnum.1, htgt⟩
      · cases h
    · cases h
  · rintro ⟨source, target, rfl, rfl, hsrc, htgt, hname⟩
    simp [findConversion, hname, TypeRef.primitive?, TypeRef.primitive, hsrc, htgt]

/-- What a call comes down to: a function that takes the arguments, or a conversion between numbers. -/
theorem Registry.find_cases {r : Registry} {arguments : List TypeRef}
    (h : r.find name arguments = some callee) :
    (∃ id f, callee = .function id f ∧ r.functions[id]? = some f ∧ f.name = name ∧ f.accepts arguments = true) ∨
    ∃ source target, callee = .conversion source target ∧ arguments = [.primitive source] ∧
      source.isNumeric = true ∧ target.isNumeric = true ∧ Primitive.ofName? name = some target := by
  unfold find at h
  split at h
  · next id hid =>
    obtain ⟨hlt, hmatches, -⟩ := List.findIdx?_eq_some_iff_getElem.1 hid
    obtain ⟨f, hf, rfl⟩ := Option.map_eq_some_iff.1 h
    simp only [Bool.and_eq_true, beq_iff_eq, (List.getElem?_eq_some_iff.1 hf).2] at hmatches
    exact .inl ⟨id, f, rfl, hf, hmatches⟩
  · exact .inr (findConversion_eq_some_iff.1 h)

end Lowering
