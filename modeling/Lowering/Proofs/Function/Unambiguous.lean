import Mathlib.Data.List.Nodup
import Lowering.Proofs.Function.Registry
/-!
# Overload resolution is unambiguous

`Registry.link` marks a function exactly if one before it has the same name and the same types of parameters, whether
that one is marked or not. It does not matter in which order it goes through the names (`Unlinked.link_eq`), and what
`Registry.find` finds is the first function that is told by a name and types (`Unlinked.findIdx?_eq`).
-/

namespace Lowering.Registry

/-! ### Linking -/

section Linking

variable {c : Catalog} {r : Registry} {order : List String}

/-- What is found is the first function that is told by the name and the types. -/
theorem Unlinked.findIdx?_eq (h : r.Unlinked) (name : String) (types : List TypeRef) :
    ((r.link c order).1.functions.findIdx? fun f => f.name == name && f.accepts types) =
      (r.functions.map Function.source).findIdx? fun d => d.overload? c == some (name, types) := by
  have htold : ∀ {i f}, (r.link c order).1.function? i = some f → (f.name == name && f.accepts types) = true →
      f.source.overload? c = some (name, types) := by
    intro i f hf haccepts
    rw [← Function.overload?_eq (h.link_function? hf).1]
    exact (Function.accepts_iff_overload?.1 haccepts).2
  rw [← h.link_source c order, List.findIdx?_map]
  cases hfound : (r.link c order).1.functions.findIdx?
    ((fun d => d.overload? c == some (name, types)) ∘ Function.source) with
  | none =>
    rw [List.findIdx?_eq_none_iff] at hfound ⊢
    intro f hf
    by_contra haccepts
    obtain ⟨i, hi⟩ := List.mem_iff_getElem?.1 hf
    exact absurd (hfound f hf) (by simp [htold hi (by simpa using haccepts)])
  | some i =>
    obtain ⟨hi, htells, hfirst⟩ := List.findIdx?_eq_some_iff_getElem.1 hfound
    have hget : (r.link c order).1.function? i = some (r.link c order).1.functions[i] := List.getElem?_eq_getElem hi
    have hoverload : (r.link c order).1.functions[i].source.overload? c = some (name, types) := by simpa using htells
    obtain ⟨hsig, hfailed⟩ := h.link_function? hget
    refine List.findIdx?_eq_some_iff_getElem.2
      ⟨hi, Function.accepts_iff_overload?.2 ⟨hfailed.2 ⟨_, hoverload, ?_⟩, ?_⟩, ?_⟩
    · intro d hd htold
      rw [← h.link_source c order, ← List.map_take] at hd
      obtain ⟨f, hf, rfl⟩ := List.mem_map.1 hd
      obtain ⟨j, hj, rfl⟩ := List.mem_take_iff_getElem.1 hf
      exact hfirst j (by omega) (by simp [htold])
    · rw [Function.overload?_eq hsig, hoverload]
    · intro j hj haccepts
      exact hfirst j hj (by simp [htold (List.getElem?_eq_getElem (by omega)) haccepts])

end Linking

/-- **Overload resolution is unambiguous after linking**, in whatever order `Registry.link` goes through the names
(every order is that of some `order`, by `groupNames_eq`). A function can be called exactly if its types can be resolved
and no function declared before it has the same name and types of parameters. So of the functions that have them in
common `Registry.find` finds the first, and it finds a conversion between numbers only where there is none. There is one
report for each function that cannot be called. -/
theorem link_unambiguous (fileId : Nat) (definitions : List FunctionDefinition) (c : Catalog) (order : List String) :
    let declared : Registry := definitions.foldl declare { fileId }
    let r := (declared.link c order).1
    let reports := (declared.link c order).2
    (∀ order', r = (declared.link c order').1 ∧ reports.Perm (declared.link c order').2) ∧
    r.functions.map Function.source = definitions ∧
    (∀ i f, r.function? i = some f → (f.failed = false ↔
      ∃ o, f.source.overload? c = some o ∧ ∀ d ∈ definitions.take i, d.overload? c ≠ some o)) ∧
    (r.functions.Pairwise fun f g => f.failed = false → g.failed = false → f.name = g.name →
      f.signature.map Signature.parameters ≠ g.signature.map Signature.parameters) ∧
    (∀ name types,
      (∀ i, (definitions.findIdx? fun d => d.overload? c == some (name, types)) = some i →
        ∃ f, r.function? i = some f ∧ r.find name types = some (.function i f)) ∧
      ((∀ d ∈ definitions, d.overload? c ≠ some (name, types)) → ∀ callee, r.find name types = some callee ↔
        ∃ source target, callee = .conversion source target ∧ types = [.primitive source] ∧ source.isNumeric = true ∧
          target.isNumeric = true ∧ Primitive.ofName? name = some target)) ∧
    reports.Perm ((r.functions.filter (·.failed)).map fun f => f.source.complaint c) := by
  intro declared r reports
  have h : declared.Unlinked := foldl_declare_unlinked fileId definitions
  have hdefinitions : declared.functions.map Function.source = definitions :=
    foldl_declare_source definitions { fileId }
  refine ⟨fun order' => ⟨?_, (h.link_perm order).trans (h.link_perm order').symm⟩,
    (h.link_source c order).trans hdefinitions, ?_, ?_, ?_, h.link_complaints c order⟩
  · exact (congrArg Prod.fst (h.link_eq order)).trans (congrArg Prod.fst (h.link_eq order')).symm
  · intro i f hf
    rw [← hdefinitions]
    exact (h.link_function? hf).2
  · refine (h.link_pairwise c order).imp fun hapart hok hok' hname hsame => hapart hok hok' ?_
    have hoverload (f : Function) : f.overload? = (f.signature.map Signature.parameters).map (Prod.mk f.name) := by
      rw [Option.map_map]
      rfl
    simp_all
  · intro name types
    have hfound : (r.functions.findIdx? fun f => f.name == name && f.accepts types) = _ := h.findIdx?_eq name types
    rw [hdefinitions] at hfound
    refine ⟨fun i hi => ?_, fun hnone callee => ?_⟩
    · rw [hi] at hfound
      obtain ⟨hlt, -⟩ := List.findIdx?_eq_some_iff_getElem.1 hfound
      simp [find, function?, *]
    · rw [List.findIdx?_eq_none_iff.2 fun d hd => beq_false_of_ne (hnone d hd)] at hfound
      simp only [find, hfound]
      exact findConversion_eq_some_iff

/-- A function from values of a type to nothing. -/
def consumer (name type : String) : FunctionDefinition where
  name := name
  parameters := [⟨"x", type, {}⟩]
  returnType := "void"
  body := none

/-- Between two functions of the same types stands one whose types cannot be resolved. -/
theorem link_unambiguous_consumers :
    let definitions :=
      [consumer "f" "i32", consumer "f" "Missing", consumer "g" "i32", consumer "f" "i32", consumer "g" "i32"]
    let linked := (definitions.foldl declare { fileId := 0 }).link { fileId := 0 } ["g", "f"]
    groupNames ["g", "f"] (definitions.map fun d => d.name.symbol) = ["g", "f"] ∧
      linked.1.functions.map (·.failed) = [false, true, false, true, true] ∧
      linked.2.length = 3 ∧ ∃ f, linked.1.find "f" [.primitive .i32] = some (.function 0 f) := by
  intro definitions linked
  obtain ⟨-, -, -, -, hfind, hreports⟩ := link_unambiguous 0 definitions { fileId := 0 } ["g", "f"]
  have hfailed : linked.1.functions.map (·.failed) = [false, true, false, true, true] := by decide +kernel
  refine ⟨by decide +kernel, hfailed, hreports.length_eq.trans (by decide +kernel), ?_⟩
  obtain ⟨f, -, hf⟩ := (hfind "f" [.primitive .i32]).1 0 (by decide +kernel)
  exact ⟨f, hf⟩

end Lowering.Registry
