import Lowering.Proofs.Machine.Relocation
import Lowering.Proofs.Unit.Meaning
/-!
# Earlier calls leave no trace

In a unit without pointers no address can be told from another, as addresses are neither stored nor returned. So a call
on a machine that has run gives the same result as on a fresh one, or fails for the same reason, whatever was called on
it before (`call_after_eq_runFresh`); only memory and budget may run out earlier.

An address does come to light where a call of an abstract function reaches another function that has its name in code,
and takes the address of a structure for a number (`leakUnit_remembers`).
-/

namespace Lowering

open IR (Argument Procedure)

theorem Function.Linked.prototype_returns {f : Function} (hf : f.Linked c types)
    (hwritten : ∀ ty ∈ f.source.writtenTypes, ty.isDirect = true) : (f.prototype types).returnType.pointer = 0 := by
  unfold Function.prototype
  split
  · rfl
  · next hlin => exact (hf.direct hwritten).1.irType (by simpa using hlin)

namespace Compiles

variable {fileId : Nat} {options : Options} {u : SourceUnit} {m : IR.Module} (h : Compiles fileId options u m)
include h

/-- No procedure of a unit without pointers returns an address. -/
theorem returns_plain (hdir : u.isDirect = true) : ∀ p ∈ m.procedures, p.returnType.pointer = 0 := by
  intro p hp
  obtain ⟨f, hf, types, hlinked, hproto, -⟩ := h.function hp
  have hreturns := hlinked.prototype_returns (functionsOf_written hdir hf)
  rwa [← hproto] at hreturns

theorem parameters_plain (hdir : u.isDirect = true) (hf : f ∈ (functionsOf fileId u).functions)
    (hplain : f.isPlain = true) (hp : m.procedure? f.represent = some p) :
    ∀ ty ∈ p.parameters.map Argument.ty, ty.pointer = 0 := by
  obtain ⟨types, hlinked⟩ := functionsOf_sound fileId u f hf ((compileUnit_complete h.errors).2 f hf).1
  rw [(h.callees_agree hf hlinked hp).1]
  exact hlinked.prototype_plain (functionsOf_written hdir hf) hplain

end Compiles

/-- **Earlier calls leave no trace.** In a unit without pointers (`isDirect`), a call of a function `f` that takes and
returns no structures (`isPlain`) gives the same result or fails for the same reason after the calls `earlier` as
`runFresh` does, unless it comes to the end of its budget or its memory on one of the machines (`Exhausted`). Any
procedures may have been called before, with any arguments, and any of those calls may have failed. -/
theorem call_after_eq_runFresh {fileId : Nat} {options : Options} {u : SourceUnit} {m : IR.Module}
    (h : Compiles fileId options u m) (hdirect : u.isDirect = true) {f : Function}
    (hf : f ∈ (functionsOf fileId u).functions) (hplain : f.isPlain = true) (earlier : List (String × List Scalar))
    (ss : List Scalar) :
    Exhausted (runFresh m f.represent ss) ∨ Exhausted ((Machine.fresh.after m earlier).call m f.represent ss).1 ∨
      ((Machine.fresh.after m earlier).call m f.represent ss).1 = runFresh m f.represent ss := by
  have hsound := h.sound fun _ : True => hdirect
  exact Machine.call_eq_runFresh hsound (h.returns_plain hdirect) (Machine.after_proper Memory.proper_empty earlier)
    (h.memcpy f hf) (fun _ hp => h.parameters_plain hdirect hf hplain hp) ss

-- Two divisions that failed leave no more of a trace than one.
example : (compileUnit 0 {} quotientUnit).1.toOption.any (fun m =>
    decide (((Machine.fresh.after m [("main", [.int 7, .int 0]), ("main", [.int 1, .int 0])]).call m "main"
      [.int 9, .int 2]).1 = .ok (some (.int 4)))) = true := by decide +kernel

/-- A division after one that failed, which has its numbers somewhere else in memory. -/
theorem call_after_eq_runFresh_quotientUnit :
    ∃ m f, Compiles 0 {} quotientUnit m ∧ f ∈ (functionsOf 0 quotientUnit).functions ∧ f.isPlain = true ∧
      runFresh m f.represent [.int 7, .int 0] = .error .divisionByZero ∧
      (Machine.fresh.after m [(f.represent, [.int 7, .int 0])]).memory.size = 32 ∧
      runFresh m f.represent [.int 9, .int 2] = .ok (some (.int 4)) ∧
      ((Machine.fresh.after m [(f.represent, [.int 7, .int 0])]).call m f.represent [.int 9, .int 2]).1 =
        runFresh m f.represent [.int 9, .int 2] := by
  obtain ⟨m, -, hcompiles, hfails, hsize, hrun, hsteps, hmemory⟩ :
      ∃ m, (compileUnit 0 {} quotientUnit).1 = .ok m ∧ Compiles 0 {} quotientUnit m ∧
      runFresh m "main" [.int 7, .int 0] = .error .divisionByZero ∧
      (Machine.fresh.after m [("main", [.int 7, .int 0])]).memory.size = 32 ∧
      runFresh m "main" [.int 9, .int 2] = .ok (some (.int 4)) ∧
      ((Machine.fresh.after m [("main", [.int 7, .int 0])]).call m "main" [.int 9, .int 2]).1 ≠ .error .stepLimit ∧
      ((Machine.fresh.after m [("main", [.int 7, .int 0])]).call m "main" [.int 9, .int 2]).1 ≠
        .error .outOfMemory := by decide +kernel
  obtain ⟨f, hf, hname, hplain⟩ : ∃ f ∈ (functionsOf 0 quotientUnit).functions, f.represent = "main" ∧
    f.isPlain = true := by
    decide +kernel
  have hsame := call_after_eq_runFresh hcompiles (by decide +kernel) hf hplain [(f.represent, [.int 7, .int 0])]
    [.int 9, .int 2]
  rw [hname] at hsame
  refine ⟨m, f, hcompiles, hf, hplain, ?_⟩
  rw [hname]
  refine ⟨hfails, hsize, hrun, ?_⟩
  obtain (hfresh | hfresh) | (hshared | hshared) | hsame := hsame
  · cases hrun.symm.trans hfresh
  · cases hrun.symm.trans hfresh
  · exact absurd hshared hsteps
  · exact absurd hshared hmemory
  · exact hsame

/-- An abstract function of a structure, a function of the same name that takes a number and returns it, and one that
calls the first. -/
def leakUnit : SourceUnit where
  structures := [{
    name := "Cell"
    fields := [⟨"a", "i32", {}⟩] }]
  functions := [
    { constantFunction "leak" [("c", "Cell")] true (.constant ⟨.integer 0, {}⟩) with body := none },
    constantFunction "leak" [("x", "i32")] true (.place "x"),
    { constantFunction "main" [] true (.constant ⟨.integer 0, {}⟩) with
      body := some ⟨[
        .declare "Cell" "c" {},
        .ret (some (.call ⟨"leak", [.place "c"], {}⟩)) {}], {}⟩ }]

/-- The second call returns another address than the first, although all structures and procedures have names of their
own. -/
theorem leakUnit_remembers :
    ∃ m, (compileUnit 0 {} leakUnit).2.hasErrors = false ∧ (compileUnit 0 {} leakUnit).1 = .ok m ∧
      leakUnit.isDirect = true ∧ (m.structures.map IR.StructDeclaration.name).Nodup ∧
      (m.procedures.map Procedure.name).Nodup ∧ (∀ p ∈ m.procedures, p.name ≠ IR.memcpy) ∧
      (∀ f ∈ (functionsOf 0 leakUnit).functions, f.represent = "main" → f.isPlain = true) ∧
      runFresh m "main" [] = .ok (some (.int 12)) ∧
      ((Machine.fresh.after m [("main", [])]).call m "main" []).1 = .ok (some (.int 24)) := by
  rw [exists_and_left]
  decide +kernel

end Lowering
