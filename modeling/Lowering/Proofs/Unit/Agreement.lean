import Lowering.Proofs.Unit.Caching
import Lowering.Proofs.Unit.Meaning
/-!
# Code that keeps values in registers runs like code that does not

Both kinds of code do what the functions of the unit mean, memory that is taken included, so they come to the same
results and failures. Values that are kept are compared where branches meet, and zeros of both signs are equal there: of
two branches that assign a zero each, with different signs, only the first one counts (`zeroUnit_disagrees`).
-/

namespace Lowering

open List
open IR (Procedure)
open Meaning

section Unit

variable {fileId : Nat} {options options' : Options} {u : SourceUnit} {m m' : IR.Module}

theorem Compiles.of_options (h : Compiles fileId options u m) (hm' : (compileUnit fileId options' u).1 = .ok m') :
    Compiles fileId options' u m' := by
  obtain ⟨-, hstructs, hheaders⟩ := compileUnit_same h.module hm'
  have hnames : m.procedures.map Procedure.name = m'.procedures.map Procedure.name := by
    have hnames := congrArg (List.map fun header => header.1.name) hheaders
    rwa [map_map, map_map] at hnames
  have herrors : (compileUnit fileId options' u).2.hasErrors = false :=
    (compileUnit_perm fileId options' options u).any_eq.trans h.errors
  exact ⟨herrors, hm', hstructs ▸ h.structures, hnames ▸ h.procedures, h.memcpy, hnames ▸ h.abstract,
    hstructs ▸ h.fields⟩

/-- **Keeping values in registers changes no result.** In a unit without pointers (`isDirect`) and strings, in which
constants that are equal are the same (`Exact`), `runFresh` of a function `f` that takes and returns numbers comes to
the same result or failure in the modules `m` and `m'` of any two options, unless it runs too long in one of them. -/
theorem runs_agree (h : Compiles fileId options u m) (hm' : (compileUnit fileId options' u).1 = .ok m')
    (hdirect : u.isDirect = true) (hexact : u.Exact) {f : Function} (hf : f ∈ (functionsOf fileId u).functions)
    {types : Signature} (htypes : f.signature = some types) (hreturn : types.returnType.isLinear = false)
    {vs : List Value} (hvs : ∀ v ∈ vs, v.Fits (typesOf fileId u) ∧ v.isStruct = false)
    (hty : vs.map Value.ty = types.parameters)
    (hends : runFresh m f.represent (vs.map Value.scalar) ≠ .error .stepLimit)
    (hends' : runFresh m' f.represent (vs.map Value.scalar) ≠ .error .stepLimit) :
    runFresh m f.represent (vs.map Value.scalar) = runFresh m' f.represent (vs.map Value.scalar) := by
  have hfailed := ((compileUnit_complete h.errors).2 f hf).1
  obtain ⟨types', hlinked⟩ := functionsOf_sound fileId u f hf hfailed
  cases htypes.symm.trans hlinked.signature
  have hrun := ((h.realizes hdirect hexact).runFresh_eq hf hfailed hlinked hreturn hvs hty).resolve_left hends
  have hrun' :=
    (((h.of_options hm').realizes hdirect hexact).runFresh_eq hf hfailed hlinked hreturn hvs hty).resolve_left hends'
  cases hanswer : callWithin (typesOf fileId u) (functionsOf fileId u) (some Memory.limit) callDepthLimit f vs
      Memory.empty.size with
  | ok result used => exact (Ensures.of_ok hrun hanswer).trans (Ensures.of_ok hrun' hanswer).symm
  | error stop used =>
    obtain ⟨e, rfl, herror⟩ := Ensures.of_error hrun hanswer
    obtain ⟨e', he, herror'⟩ := Ensures.of_error hrun' hanswer
    cases he
    exact herror.trans herror'.symm

end Unit

/-- A function that assigns a zero to a variable in both branches, of the signs given. -/
def zeroUnit (first second : Binary64) : SourceUnit where
  functions := [{
    name := "zero"
    parameters := [⟨"c", "bool", {}⟩]
    returnType := "f64"
    body := some ⟨[
      .declareAssign "f64" "x" (.constant ⟨.float ⟨0x3ff0000000000000⟩, {}⟩) {},
      .cond (.place "c")
        ⟨[.assign "x" (.constant ⟨.float first, {}⟩) {}], {}⟩ []
        (some ⟨[.assign "x" (.constant ⟨.float second, {}⟩) {}], {}⟩) {},
      .ret (some (.place "x")) {}], {}⟩
    exported := true }]

-- The first branch is taken for a condition that holds.
example : (compileUnit 0 { caching := false } (zeroUnit ⟨0⟩ ⟨0x4000000000000000⟩)).1.toOption.any (fun m =>
    decide (runFresh m "zero" [.int 1] = .ok (some (.float ⟨0⟩)))) = true := by decide +kernel

/-- With zero in one branch and two in the other, both kinds of code give two for the other branch. -/
theorem runs_agree_zeroUnit :
    ∃ m m', Compiles 0 { caching := true } (zeroUnit ⟨0⟩ ⟨0x4000000000000000⟩) m ∧
      (compileUnit 0 { caching := false } (zeroUnit ⟨0⟩ ⟨0x4000000000000000⟩)).1 = .ok m' ∧
      (zeroUnit ⟨0⟩ ⟨0x4000000000000000⟩).Exact ∧
      runFresh m "zero" [.int 0] = .ok (some (.float ⟨0x4000000000000000⟩)) ∧
      runFresh m "zero" [.int 0] = runFresh m' "zero" [.int 0] := by
  set u := zeroUnit ⟨0⟩ ⟨0x4000000000000000⟩
  obtain ⟨m, -, hcompiles, hrun⟩ : ∃ m, (compileUnit 0 { caching := true } u).1 = .ok m ∧
      Compiles 0 { caching := true } u m ∧
      runFresh m "zero" [.int 0] = .ok (some (.float ⟨0x4000000000000000⟩)) := by decide +kernel
  obtain ⟨m', hm', hends'⟩ : ∃ m, (compileUnit 0 { caching := false } u).1 = .ok m ∧
      runFresh m "zero" [.int 0] ≠ .error .stepLimit := by decide +kernel
  have hexact : u.Exact := by
    have hliterals : ∀ f ∈ u.functions, f.literals =
        [Binary64.mk 0x3ff0000000000000, ⟨0⟩, ⟨0x4000000000000000⟩].map Literal.float := by
      intro f hf
      obtain rfl := mem_singleton.1 hf
      rfl
    have hdistinct : ∀ x ∈ [Binary64.mk 0x3ff0000000000000, ⟨0⟩, ⟨0x4000000000000000⟩],
        ∀ y ∈ [Binary64.mk 0x3ff0000000000000, ⟨0⟩, ⟨0x4000000000000000⟩], x.equal y = true → x = y := by decide
    refine fun f hf => ⟨fun s hs => ?_, fun x y hx hy => ?_⟩
    · rw [hliterals f hf] at hs
      obtain ⟨x, -, hx⟩ := mem_map.1 hs
      cases hx
    · rw [FunctionDefinition.numbers, hliterals f hf] at hx hy
      obtain ⟨x, hx, ⟨⟩⟩ := mem_map.1 hx
      obtain ⟨y, hy, ⟨⟩⟩ := mem_map.1 hy
      exact hdistinct x hx y hy
  obtain ⟨f, hf, hname, htypes⟩ : ∃ f ∈ (functionsOf 0 u).functions, f.represent = "zero" ∧
      f.signature = some ⟨[.primitive .bool], .primitive .f64⟩ := by decide +kernel
  have hends : runFresh m "zero" [.int 0] ≠ .error .stepLimit := by
    rw [hrun]
    exact nofun
  refine ⟨m, m', hcompiles, hm', hexact, hrun, ?_⟩
  have hvs : ∀ v ∈ [Value.boolean false], v.Fits (typesOf 0 u) ∧ v.isStruct = false := by
    intro v hv
    obtain rfl := mem_singleton.1 hv
    exact ⟨.boolean false, rfl⟩
  have hagree := runs_agree hcompiles hm' (by decide +kernel) hexact hf htypes rfl hvs rfl
  rw [hname] at hagree
  exact hagree hends hends'

/-- With zeros of both signs, the code that keeps values in registers gives the zero of the first branch for both. -/
theorem zeroUnit_disagrees :
    ∃ m m', (compileUnit 0 { caching := true } (zeroUnit ⟨0⟩ ⟨0x8000000000000000⟩)).2.hasErrors = false ∧
      (compileUnit 0 { caching := true } (zeroUnit ⟨0⟩ ⟨0x8000000000000000⟩)).1 = .ok m ∧
      (compileUnit 0 { caching := false } (zeroUnit ⟨0⟩ ⟨0x8000000000000000⟩)).1 = .ok m' ∧
      runFresh m "zero" [.int 0] = .ok (some (.float ⟨0⟩)) ∧
      runFresh m' "zero" [.int 0] = .ok (some (.float ⟨0x8000000000000000⟩)) := by
  simp only [exists_and_left]
  decide +kernel

end Lowering
