import Lowering.Proofs.Simulation.Procedure
import Lowering.Proofs.Unit.Layout
import Lowering.Proofs.Unit.Progress
/-!
# Compilation preserves meaning

The module of a unit has the procedures of its functions (`Compiles.realizes`), so running one of them on a fresh
machine gives what a call of the function means, unless the machine stops for its limits (`run_means`).

A call of a function that is abstract fails. If another function has its name in code, such a call reaches that one
instead (`reroutedUnit_differs`).
-/

namespace Lowering

open List
open IR (Procedure StructDeclaration)
open Meaning

namespace Compiles

variable {fileId : Nat} {options : Options} {u : SourceUnit} {m : IR.Module} (h : Compiles fileId options u m)
include h

theorem laidIn : (typesOf fileId u).LaidIn m where
  toDeclaredIn := compileUnit_declaredIn h.module h.structures
  sound := (typesOf_sound fileId u).1
  short ref layout hlayout := by
    obtain ⟨m', hm', hstructs, -⟩ := compileUnit_emits fileId options u
    cases h.module.symm.trans hm'
    obtain ⟨s, hs, hlayout⟩ := Option.bind_eq_some_iff.1 hlayout
    have hmem : s.declared ∈ m.structures := by
      rw [hstructs]
      exact mem_map_of_mem (mem_filter.2 ⟨mem_of_getElem? hs, by rw [Structure.isLinked, hlayout]; rfl⟩)
    have hfields := h.fields _ hmem
    rwa [Structure.declared, hlayout, length_map] at hfields

/-- **The module has the procedures of the functions of the unit.** -/
theorem realizes (hdir : u.isDirect = true) (hexact : u.Exact) :
    Realizes m (typesOf fileId u) (functionsOf fileId u) where
  laid := h.laidIn
  direct := catalogOf_direct hdir fileId {}
  settled := (typesOf_sound fileId u).2
  registry := functionsOf_sound fileId u
  exact f hf := hexact f.source (functionsOf_source fileId u ▸ mem_map_of_mem hf)
  memcpy := h.memcpy
  inside f hf _ types hlinked body hbody := by
    obtain ⟨habs, -⟩ | ⟨-, p, hp, -, hemits⟩ := h.procedure?_eq hf hlinked
    · rw [Function.isAbstract, hbody] at habs
      cases habs
    · exact ⟨(surroundingsOf m.structures (functionsOf fileId u)).free, options, p, hp, hemits⟩
  outside f hf hfailed hbody := by
    obtain ⟨types, hlinked⟩ := functionsOf_sound fileId u f hf hfailed
    obtain ⟨habs, hnone⟩ | ⟨hconcrete, p, hp, -, hemits⟩ := h.procedure?_eq hf hlinked
    · have hext : f.source.external = false := by simpa [Function.isAbstract, hbody] using habs
      simp_all
    have hext : f.source.external = true := by simpa [Function.isAbstract, hbody] using hconcrete
    rw [if_pos hext]
    cases hemits with
    | outside _ hext' => exact ⟨p, hp, hext'⟩
    | inside hbody' => cases hbody.symm.trans hbody'
  types f hf body hbody ty hty := functionsOf_written hdir hf ty (mem_append_right _ (by rwa [hbody]))

end Compiles

section Meaning

variable {fileId : Nat} {options : Options} {u : SourceUnit} {m : IR.Module}

/-- **Compilation preserves meaning.** In a unit without pointers (`isDirect`), strings and zeros of two signs
(`Exact`), `runFresh` of a function `f` that takes and returns numbers gives the one `answer` that a call of `f` with
the values `vs` means (`Means`), whatever the `options` are, unless the machine stops for one of its limits. -/
theorem run_means (h : Compiles fileId options u m) (hdirect : u.isDirect = true) (hexact : u.Exact)
    (hsizes : ∀ s ∈ (typesOf fileId u).structures, ∀ layout, s.layout? = some layout → layout.size < 2 ^ 63)
    {f : Function} (hf : f ∈ (functionsOf fileId u).functions) {types : Signature} (htypes : f.signature = some types)
    (hreturn : types.returnType.isLinear = false) {vs : List Value}
    (hvs : ∀ v ∈ vs, v.Fits (typesOf fileId u) ∧ v.isStruct = false) (hty : vs.map Value.ty = types.parameters) :
    (∃ e, runFresh m f.represent (vs.map Value.scalar) = .error e ∧
      (e = .stepLimit ∨ e = .callDepth ∨ e = .outOfMemory)) ∨
      ∃ answer, Means (typesOf fileId u) (functionsOf fileId u) f vs answer ∧
        (∀ other, Means (typesOf fileId u) (functionsOf fileId u) f vs other → other = answer) ∧
        runFresh m f.represent (vs.map Value.scalar) = Option.map Value.scalar <$> answer := by
  have hfailed := ((compileUnit_complete h.errors).2 f hf).1
  obtain ⟨types', hlinked⟩ := functionsOf_sound fileId u f hf hfailed
  cases htypes.symm.trans hlinked.signature
  obtain hlimit | hrun := (h.realizes hdirect hexact).runFresh_eq hf hfailed hlinked hreturn hvs hty
  · exact .inl ⟨_, hlimit, .inl rfl⟩
  have hfit : ∀ t size, (typesOf fileId u).sizeOf? t = some size → Memory.limit + 1 + size < 0x10000000000000000 := by
    intro t size hsize
    have hsize := Catalog.size_lt_of (by decide) hsizes hsize
    have hlimit : Memory.limit = 2 ^ 24 := rfl
    omega
  have hmeans := callWithin_means (r := functionsOf fileId u) hfit callDepthLimit f vs Memory.proper_empty.limited
  cases hanswer : callWithin (typesOf fileId u) (functionsOf fileId u) (some Memory.limit) callDepthLimit f vs
      Memory.empty.size with
  | ok result used =>
    have hanswers := Ensures.of_ok hmeans hanswer
    exact .inr ⟨_, hanswers, fun _ hother => hother.unique hanswers, Ensures.of_ok hrun hanswer⟩
  | error stop used =>
    obtain ⟨e, rfl, herror⟩ := Ensures.of_error hrun hanswer
    obtain rfl | rfl | hanswers := Ensures.of_error hmeans hanswer e rfl
    · exact .inl ⟨_, herror, .inr (.inr rfl)⟩
    · exact .inl ⟨_, herror, .inr (.inl rfl)⟩
    · exact .inr ⟨_, hanswers, fun _ hother => hother.unique hanswers, herror⟩

end Meaning

-- Both numbers may be negative: minus seven divided by minus two is three.
example : (compileUnit 0 {} quotientUnit).1.toOption.any (fun m =>
    decide (runFresh m "main" [.int 0xFFFFFFF9, .int 0xFFFFFFFE] = .ok (some (.int 3)))) = true := by decide +kernel

/-- Minus seven is divided by two, by way of a structure: the quotient is minus three. -/
theorem run_means_quotientUnit :
    ∃ m f, Compiles 0 {} quotientUnit m ∧ f ∈ (functionsOf 0 quotientUnit).functions ∧
      runFresh m f.represent [.int 0xFFFFFFF9, .int 2] = .ok (some (.int 0xFFFFFFFD)) ∧
      ∃ answer, Means (typesOf 0 quotientUnit) (functionsOf 0 quotientUnit) f
        [.integer .i32 (-7), .integer .i32 2] answer ∧
        .ok (some (.int 0xFFFFFFFD)) = Option.map Value.scalar <$> answer := by
  obtain ⟨m, -, hcompiles, hrun⟩ : ∃ m, (compileUnit 0 {} quotientUnit).1 = .ok m ∧ Compiles 0 {} quotientUnit m ∧
      runFresh m "main" [.int 0xFFFFFFF9, .int 2] = .ok (some (.int 0xFFFFFFFD)) := by decide +kernel
  have hexact : quotientUnit.Exact := by
    intro f hf
    obtain rfl := mem_singleton.1 hf
    exact ⟨nofun, nofun⟩
  have hsizes :
      ∀ s ∈ (typesOf 0 quotientUnit).structures, ∀ layout, s.layout? = some layout → layout.size < 2 ^ 63 := by
    have hall :
        (typesOf 0 quotientUnit).structures.all (fun s => s.layout?.all fun layout => layout.size < 2 ^ 63) = true := by
      decide +kernel
    intro s hs layout hlayout
    have := all_eq_true.1 hall s hs
    rw [hlayout] at this
    simpa using this
  obtain ⟨f, hf, hname, htypes⟩ : ∃ f ∈ (functionsOf 0 quotientUnit).functions, f.represent = "main" ∧
      f.signature = some ⟨[.primitive .i32, .primitive .i32], .primitive .i32⟩ := by decide +kernel
  have hvs :
      ∀ v ∈ [Value.integer .i32 (-7), .integer .i32 2], v.Fits (typesOf 0 quotientUnit) ∧ v.isStruct = false := by
    intro v hv
    obtain rfl | hv := mem_cons.1 hv
    · exact ⟨.integer (.inl rfl) (by rw [Primitive.InRange]; decide), rfl⟩
    · obtain rfl := mem_singleton.1 hv
      exact ⟨.integer (.inl rfl) (by rw [Primitive.InRange]; decide), rfl⟩
  have hmeans := run_means hcompiles (by decide +kernel) hexact hsizes hf htypes rfl hvs rfl
  rw [hname] at hmeans
  obtain ⟨e, herror, -⟩ | ⟨answer, hanswer, -, hagrees⟩ := hmeans
  · cases hrun.symm.trans herror
  · exact ⟨m, f, hcompiles, hf, hname ▸ hrun, answer, hanswer, hrun.symm.trans hagrees⟩

/-- An abstract function of a small number, a function of the same name of a large one, and one that calls the first. -/
def reroutedUnit : SourceUnit where
  functions := [
    { constantFunction "pick" [("x", "i32")] true (.constant ⟨.integer 1, {}⟩) with body := none },
    { constantFunction "pick" [("x", "i64")] true (.place "x") with
      returnType := "i64" },
    constantFunction "main" [] true (.call ⟨"pick", [.constant ⟨.integer 1, {}⟩], {}⟩)]

/-- A call of the abstract function means a failure, but it reaches the other one and gives a number. -/
theorem reroutedUnit_differs :
    ∃ m f, (compileUnit 0 {} reroutedUnit).2.hasErrors = false ∧ (compileUnit 0 {} reroutedUnit).1 = .ok m ∧
      (m.structures.map StructDeclaration.name).Nodup ∧ (m.procedures.map Procedure.name).Nodup ∧
      (∀ p ∈ m.procedures, p.name ≠ IR.memcpy) ∧ reroutedUnit.isDirect = true ∧
      f ∈ (functionsOf 0 reroutedUnit).functions ∧ f.represent = "main" ∧ f.signature = some ⟨[], .primitive .i32⟩ ∧
      runFresh m f.represent [] = .ok (some (.int 1)) ∧
      Means (typesOf 0 reroutedUnit) (functionsOf 0 reroutedUnit) f [] (.error (.unknownProcedure "pick")) := by
  obtain ⟨m, hm, hstructures, hprocedures, hmemcpy, hrun⟩ : ∃ m, (compileUnit 0 {} reroutedUnit).1 = .ok m ∧
      (m.structures.map StructDeclaration.name).Nodup ∧ (m.procedures.map Procedure.name).Nodup ∧
      (∀ p ∈ m.procedures, p.name ≠ IR.memcpy) ∧ runFresh m "main" [] = .ok (some (.int 1)) := by decide +kernel
  exact ⟨m, (functionsOf 0 reroutedUnit).functions[2], by decide +kernel, hm, hstructures, hprocedures, hmemcpy,
    by decide +kernel, getElem_mem _, by decide +kernel, by decide +kernel, hrun, nofun, 2, 0, rfl⟩

end Lowering
