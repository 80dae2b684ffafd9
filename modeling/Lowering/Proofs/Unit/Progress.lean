import Lowering.Proofs.Machine.Progress
import Lowering.Proofs.Types.Direct
import Lowering.Proofs.Unit.Overloads
/-!
# The code of a unit does not get stuck

A unit without errors compiles to a module whose procedures can be run (`Compiles.sound`), so no run of one of them
reads a register that was not set, jumps to nowhere or meets a type that the machine does not have. In a unit without
pointers all addresses come from allocations, and no run leaves the memory that was allocated.

A function that is abstract has no procedure. If one of another function has its name, a call of the abstract function
reaches that one, whatever it takes (`abstractUnit_stuck`).
-/

namespace Lowering

open List
open IR (Argument Procedure Prototype Setting StructDeclaration Surroundings)

/-- Whether no structure is passed to a function or comes back from it. -/
def Function.isPlain (f : Function) : Bool :=
  f.signature.all fun types => !types.returnType.isLinear && types.parameters.all (!·.isLinear)

/-- Whether numbers of a type are widened with zeros in a module. -/
def IR.Module.widens (m : Module) (ty : Ty) : Bool :=
  m.procedures.any fun p => p.blocks.any fun b => b.instructions.any fun
    | .set _ (.convert .zext value _) => value.ty = ty
    | _ => false

/-- What the code of a unit does with its surroundings: in a unit without pointers there is no memory for one, and the
byte copy is not called by its name. -/
def settingOf (u : SourceUnit) (m : IR.Module) (env : Surroundings) : Setting :=
  ⟨env, fun ty => u.isDirect = true → ty.pointer = 0, fun name => name ≠ IR.memcpy, fun ty => m.widens ty = true⟩

/-- A unit that compiles without an error, to a module in which names tell structures and functions apart. -/
structure Compiles (fileId : Nat) (options : Options) (u : SourceUnit) (m : IR.Module) : Prop where
  errors : (compileUnit fileId options u).2.hasErrors = false
  module : (compileUnit fileId options u).1 = .ok m
  structures : (m.structures.map StructDeclaration.name).Nodup
  procedures : (m.procedures.map Procedure.name).Nodup
  /-- No function has the name of the byte copy. -/
  memcpy : ∀ f ∈ (functionsOf fileId u).functions, f.represent ≠ IR.memcpy
  /-- No procedure has the name of a function without one. -/
  abstract : ∀ f ∈ (functionsOf fileId u).functions, f.isAbstract = true → f.represent ∉ m.procedures.map Procedure.name
  fields : ∀ s ∈ m.structures, s.fields.length ≤ 2 ^ 31

instance (fileId : Nat) (options : Options) (u : SourceUnit) (m : IR.Module) :
    Decidable (Compiles fileId options u m) :=
  decidable_of_iff
    ((compileUnit fileId options u).2.hasErrors = false ∧ (compileUnit fileId options u).1 = .ok m ∧
      (m.structures.map StructDeclaration.name).Nodup ∧ (m.procedures.map Procedure.name).Nodup ∧
      (∀ f ∈ (functionsOf fileId u).functions, f.represent ≠ IR.memcpy) ∧
      (∀ f ∈ (functionsOf fileId u).functions, f.isAbstract = true → f.represent ∉ m.procedures.map Procedure.name) ∧
      ∀ s ∈ m.structures, s.fields.length ≤ 2 ^ 31)
    ⟨fun ⟨h1, h2, h3, h4, h5, h6, h7⟩ => ⟨h1, h2, h3, h4, h5, h6, h7⟩,
      fun h => ⟨h.errors, h.module, h.structures, h.procedures, h.memcpy, h.abstract, h.fields⟩⟩

section Types

variable {c : Catalog} {f : Function} {types : Signature}

theorem TypeRef.irType_ne_bytes (t : TypeRef) (length : Nat) : t.irType ≠ ⟨.array length (.int 8), 0⟩ := by
  intro h
  have hbase : t.irType.base = t.storageType.base := by
    unfold TypeRef.irType
    split <;> rfl
  rw [h] at hbase
  obtain ⟨head, depth⟩ := t
  cases head with
  | primitive kind => cases kind <;> cases hbase
  | struct => cases hbase

theorem Function.Linked.prototype_isScalar (hf : f.Linked c types) :
    ∀ ty ∈ (f.prototype types).parameters, ty.IsScalar := by
  have hparams : ∀ ty ∈ types.parameters.map TypeRef.irType, ty.IsScalar := by
    intro ty hty
    obtain ⟨t, ht, rfl⟩ := mem_map.1 hty
    exact TypeRef.irType_isScalar (hf.parameters t ht).1 (hf.parameters t ht).2
  unfold Function.prototype
  split
  · next hlin =>
    refine forall_mem_cons.2 ⟨TypeRef.irType_isScalar hf.result ?_, hparams⟩
    obtain ⟨ref, href⟩ := Option.isSome_iff_exists.1 hlin
    rcases hvoid : types.returnType.isVoid with _ | _
    · rfl
    have hprimitive := Catalog.primitive?_eq_some (beq_iff_eq.1 hvoid)
    rw [hprimitive] at href
    cases href
  · exact hparams

theorem Function.prototype_result (f : Function) (types : Signature) (length : Nat) :
    (f.prototype types).returnType ≠ ⟨.array length (.int 8), 0⟩ := by
  unfold Function.prototype
  split
  · intro h
    cases h
  · exact TypeRef.irType_ne_bytes _ length

theorem Function.Linked.direct (hf : f.Linked c types) (hwritten : ∀ ty ∈ f.source.writtenTypes, ty.isDirect = true) :
    types.returnType.Direct ∧ ∀ t ∈ types.parameters, t.Direct := by
  have hnone : Bindings.Direct [] := by simp [Bindings.Direct]
  refine forall_mem_cons.1 fun t ht => ?_
  obtain ⟨ty, hty, hresolved⟩ := hf.written t ht
  exact Catalog.resolveValue_direct hnone (hwritten ty hty) hresolved

theorem Function.Linked.prototype_plain (hf : f.Linked c types)
    (hwritten : ∀ ty ∈ f.source.writtenTypes, ty.isDirect = true) (hplain : f.isPlain = true) :
    ∀ ty ∈ (f.prototype types).parameters, ty.pointer = 0 := by
  rw [Function.isPlain, hf.signature] at hplain
  simp only [Option.all_some, Bool.and_eq_true, Bool.not_eq_true', all_eq_true] at hplain
  unfold Function.prototype
  rw [if_neg (by simp [hplain.1])]
  intro ty hty
  obtain ⟨t, ht, rfl⟩ := mem_map.1 hty
  exact ((hf.direct hwritten).2 t ht).irType (hplain.2 t ht)

end Types

section Unit

variable {fileId : Nat} {options : Options} {u : SourceUnit} {m : IR.Module}

theorem functionsOf_written (hu : u.isDirect = true) (hf : f ∈ (functionsOf fileId u).functions) :
    ∀ ty ∈ f.source.writtenTypes, ty.isDirect = true := by
  refine (SourceUnit.isDirect_eq_true.1 hu).2 f.source ?_
  rw [← functionsOf_source fileId u]
  exact mem_map_of_mem hf

/-- A unit compiles to procedures that can be run in its setting. -/
theorem compileUnit_runs (hm : (compileUnit fileId options u).1 = .ok m)
    (hmemcpy : ∀ f ∈ (functionsOf fileId u).functions, f.represent ≠ IR.memcpy) :
    ∀ p ∈ m.procedures, p.external = false →
      p.Sound (settingOf u m (surroundingsOf m.structures (functionsOf fileId u))) := by
  have hpermits (env : Surroundings) : (settingOf u m env).Permits (functionsOf fileId u) :=
    ⟨fun _ _ => rfl, fun _ _ => rfl, fun f hf _ => hmemcpy f hf⟩
  have hallots (env : Surroundings) : ∀ f ∈ (functionsOf fileId u).functions, ∀ ty ∈ f.source.writtenTypes,
      (typesOf fileId u).Allots (settingOf u m env) ty := by
    intro f hf ty hty t ht hu
    have hnone : Bindings.Direct [] := by simp [Bindings.Direct]
    exact (Catalog.resolveValue_direct hnone (functionsOf_written hu hf ty hty) ht).storageType
  obtain ⟨m', hm', hstructs, hprocs⟩ := compileUnit_runnable fileId options u (hpermits _) rfl (hallots _)
  cases hm.symm.trans hm'
  rw [hstructs]
  intro p hp hinternal
  obtain ⟨⟨f, hf, hok, types, htypes, hproto, hemits⟩, hrunnable⟩ := hprocs p hp
  refine ⟨?_, hrunnable hinternal, fun length => ?_, fun b hb r value target hset => ?_⟩
  · cases hemits with
    | outside _ hext =>
      simp_all
    | inside _ _ _ hwellFormed => exact hwellFormed
  · have hres := f.prototype_result types length
    rwa [← hproto] at hres
  · exact any_eq_true.2 ⟨p, hp, any_eq_true.2 ⟨b, hb, any_eq_true.2 ⟨_, hset, by simp⟩⟩⟩

namespace Compiles

/-- A procedure is that of a function, and has its name and its types. -/
theorem function (h : Compiles fileId options u m) (hp : p ∈ m.procedures) :
    ∃ f ∈ (functionsOf fileId u).functions, ∃ types, f.Linked (typesOf fileId u) types ∧
      (⟨p.name, p.parameters.map Argument.ty, p.returnType⟩ : Prototype) = f.prototype types ∧
      p.name = f.represent := by
  obtain ⟨m', hm', -, hemitted⟩ := compileUnit_emits fileId options u
  cases h.module.symm.trans hm'
  obtain ⟨f, hf, -, types, hlinked, hprototype, -⟩ := hemitted p hp
  exact ⟨f, hf, types, hlinked, hprototype, (congrArg Prototype.name hprototype).trans (f.prototype_name types)⟩

variable (h : Compiles fileId options u m) {f : Function} (hf : f ∈ (functionsOf fileId u).functions)
  {types : Signature} (hlinked : f.Linked (typesOf fileId u) types)
include h hf hlinked

/-- What becomes of a function: none if it is abstract, and otherwise the procedure of its name. -/
theorem procedure?_eq :
    (f.isAbstract = true ∧ m.procedure? f.represent = none) ∨
      f.isAbstract = false ∧ ∃ p, m.procedure? f.represent = some p ∧
        (⟨p.name, p.parameters.map Argument.ty, p.returnType⟩ : Prototype) = f.prototype types ∧
        f.Emits (surroundingsOf m.structures (functionsOf fileId u)) (typesOf fileId u)
          (functionsOf fileId u) options types p := by
  have hyields := hlinked.yields options
  obtain ⟨hmodule, hall⟩ := compileUnit_complete h.errors
  have habs := h.abstract f hf
  have hnodup := h.procedures
  cases h.module.symm.trans hmodule
  obtain ⟨hok, procedure, hproc⟩ := hall f hf
  rw [hproc] at hyields
  rcases procedure with _ | p
  · exact .inl ⟨hyields, IR.Module.procedure?_eq_none (habs hyields)⟩
  have hp : procedureOf (typesOf fileId u) (functionsOf fileId u) options f = some p := by rw [procedureOf, hproc]
  refine .inr ⟨isAbstract_of_compiled hproc, p, ?_, hyields.1, hyields.2.1⟩
  rw [← name_of_procedureOf hf hok hp]
  exact IR.Module.procedure?_of_mem hnodup (mem_filterMap.2 ⟨f, hf, hp⟩)

theorem callees_agree (hp : m.procedure? f.represent = some p) :
    p.parameters.map Argument.ty = (f.prototype types).parameters ∧ p.returnType = (f.prototype types).returnType := by
  obtain ⟨-, hnone⟩ | ⟨-, q, hq, hproto, -⟩ := h.procedure?_eq hf hlinked
  · cases hnone.symm.trans hp
  · grind

end Compiles

/-- What code may call: the byte copy, and the functions of the unit. -/
theorem mem_prototypes
    (h : prototype ∈ (surroundingsOf structures (functionsOf fileId u)).prototypes) :
    prototype = .memcpy ∨ ∃ f ∈ (functionsOf fileId u).functions, ∃ types, f.Linked (typesOf fileId u) types ∧
      prototype = f.prototype types := by
  refine (mem_cons.1 h).imp_right fun h => ?_
  obtain ⟨f, hf, hproto⟩ := mem_filterMap.1 h
  obtain ⟨hf, hok⟩ := mem_filter.1 hf
  obtain ⟨types, htypes, rfl⟩ := Option.map_eq_some_iff.1 hproto
  obtain ⟨types', hlinked⟩ := functionsOf_sound fileId u f hf (by simpa using hok)
  cases htypes.symm.trans hlinked.signature
  exact ⟨f, hf, types, hlinked, rfl⟩

theorem declared_field (hm : (compileUnit fileId options u).1 = .ok m) (hs : s ∈ m.structures)
    (hty : ty ∈ s.fields) : ∃ ref layout, (typesOf fileId u).layout? ref = some layout ∧
      ∃ field ∈ layout.fields, ty = field.ty.storageType := by
  obtain ⟨m', hm', hstructs, -⟩ := compileUnit_emits fileId options u
  cases hm.symm.trans hm'
  rw [hstructs] at hs
  obtain ⟨s, hmem, rfl⟩ := mem_map.1 hs
  obtain ⟨hmem, hlinked⟩ := mem_filter.1 hmem
  obtain ⟨layout, hlayout⟩ := Option.isSome_iff_exists.1 hlinked
  obtain ⟨id, hid⟩ := mem_iff_getElem?.1 hmem
  rw [Structure.declared, hlayout] at hty
  obtain ⟨field, hfield, rfl⟩ := mem_map.1 hty
  refine ⟨s.ref, layout, ?_, field, hfield, rfl⟩
  rw [Catalog.layout?, (typesOf_sound fileId u).1.placed id s hid, show (typesOf fileId u).structure? id =
    some s from hid]
  exact hlayout

theorem compileUnit_declares (hm : (compileUnit fileId options u).1 = .ok m)
    (hnames : (m.structures.map StructDeclaration.name).Nodup) :
    m.Declares (surroundingsOf m.structures (functionsOf fileId u)) := by
  obtain ⟨hc, hsettled⟩ := typesOf_sound fileId u
  refine ⟨rfl, hnames, fun s hs ty hty => ?_⟩
  obtain ⟨ref, layout, hlayout, field, hfield, rfl⟩ := declared_field hm hs hty
  have husable := (hc.laidOut ref layout hlayout).usable field hfield
  obtain ⟨m', hm', hstructs, -⟩ := compileUnit_emits fileId options u
  cases hm.symm.trans hm'
  rw [hstructs]
  have hctx := surroundingsOf_sound hc hsettled (functionsOf_sound fileId u) (IR.Surroundings.free_permits _ _) rfl
    field.ty none husable
  exact hctx.storageType_sized husable

/-- **The module of a unit without errors can be run.** -/
theorem Compiles.sound (h : Compiles fileId options u m) (hdir : direct → u.isDirect = true) :
    m.Sound (settingOf u m (surroundingsOf m.structures (functionsOf fileId u))) direct where
  toDeclares := compileUnit_declares h.module h.structures
  short := h.fields
  bodies := compileUnit_runs h.module h.memcpy
  scalars prototype hproto := by
    obtain rfl | ⟨f, hf, types, hlinked, rfl⟩ := mem_prototypes hproto
    · intro ty hty
      simp only [Prototype.memcpy, mem_cons, not_mem_nil, or_false] at hty
      rcases hty with rfl | rfl | rfl | rfl
      · exact .inl Nat.one_ne_zero
      · exact .inl Nat.one_ne_zero
      · exact .inr ⟨64, le_rfl, .inl rfl⟩
      · exact .inr ⟨1, by decide, .inl rfl⟩
    · exact hlinked.prototype_isScalar
  callees prototype hproto hcalls := by
    obtain rfl | ⟨f, hf, types, hlinked, rfl⟩ := mem_prototypes hproto
    · exact absurd rfl hcalls
    · refine ⟨hcalls, fun p hp => h.callees_agree hf hlinked ?_⟩
      rwa [f.prototype_name types] at hp
  fields hyes s hs ty hty := by
    obtain ⟨ref, layout, hlayout, field, hfield, rfl⟩ := declared_field h.module hs hty
    exact (catalogOf_direct (hdir hyes) fileId {} ref layout hlayout field hfield).storageType
  allots hyes ty hty := hty (hdir hyes)

/-- **Code does not get stuck.** In a unit without errors, whose structures and procedures have names of their own in
code, `runFresh` of a procedure `p` never finds that the code is broken (`EvalError.isStuck`), whatever `arguments` it
gets, as many as it takes. Where there are no pointers in the unit (`isDirect`) and no structure is passed (`isPlain`),
no run leaves the memory that was allocated (`isOutOfBounds`). -/
theorem run_not_stuck (herrors : (compileUnit fileId options u).2.hasErrors = false)
    (hm : (compileUnit fileId options u).1 = .ok m) (hstructures : (m.structures.map StructDeclaration.name).Nodup)
    (hprocedures : (m.procedures.map Procedure.name).Nodup)
    (hmemcpy : ∀ f ∈ (functionsOf fileId u).functions, f.represent ≠ IR.memcpy)
    (habstract : ∀ f ∈ (functionsOf fileId u).functions, f.isAbstract = true →
      f.represent ∉ m.procedures.map Procedure.name)
    (hfields : ∀ s ∈ m.structures, s.fields.length ≤ 2 ^ 31) {p : Procedure} (hp : p ∈ m.procedures)
    {arguments : List Scalar} (hcount : arguments.length = p.parameters.length) {e : EvalError}
    (he : runFresh m p.name arguments = .error e) :
    e.isStuck = false ∧
      (u.isDirect = true → (∀ f ∈ (functionsOf fileId u).functions, f.represent = p.name → f.isPlain = true) →
        e.isOutOfBounds = false) := by
  have hcompiles : Compiles fileId options u m :=
    ⟨herrors, hm, hstructures, hprocedures, hmemcpy, habstract, hfields⟩
  have hsound :=
    hcompiles.sound (And.left (b := ∀ f ∈ (functionsOf fileId u).functions, f.represent = p.name → f.isPlain = true))
  obtain ⟨f, hf, types, hlinked, hprototype, hname⟩ := hcompiles.function hp
  have hexpected := runFresh_expected hsound (hname ▸ hmemcpy f hf) (fun q hq => ?_) he
  · exact ⟨hexpected.1, fun hu hplain => hexpected.2 ⟨hu, hplain⟩⟩
  · cases (IR.Module.procedure?_of_mem hprocedures hp).symm.trans hq
    refine forall₂_iff_get.2 ⟨hcount.symm, fun i hi hj => .of_plain (fun hdirect => ?_) _⟩
    have hplain := hlinked.prototype_plain (functionsOf_written hdirect.1 hf) (hdirect.2 f hf hname.symm)
    rw [← hprototype] at hplain
    exact hplain _ (mem_map_of_mem (getElem_mem hi))

end Unit

/-- A function that copies a pair of its arguments and divides one field of the copy by the other. -/
def quotientUnit : SourceUnit where
  structures := [{
    name := "Pair"
    fields := [⟨"a", "i32", {}⟩, ⟨"b", "i32", {}⟩] }]
  functions := [{
    name := "main"
    parameters := [⟨"x", "i32", {}⟩, ⟨"y", "i32", {}⟩]
    returnType := "i32"
    body := some ⟨[
      .declare "Pair" "p" {},
      .assign ⟨"p", [.field "a"], {}⟩ (.place "x") {},
      .assign ⟨"p", [.field "b"], {}⟩ (.place "y") {},
      .declareAssign "Pair" "q" (.place "p") {},
      .ret (some (.arithmetic .divide (.place ⟨"q", [.field "a"], {}⟩)
        (.place ⟨"q", [.field "b"], {}⟩) {})) {}], {}⟩
    exported := true }]

/-- Dividing by zero is a failure, but none of broken code. -/
theorem run_not_stuck_quotientUnit :
    ∃ m, (compileUnit 0 {} quotientUnit).1 = .ok m ∧ runFresh m "main" [.int 7, .int 0] = .error .divisionByZero ∧
      EvalError.divisionByZero.isStuck = false ∧ EvalError.divisionByZero.isOutOfBounds = false := by
  obtain ⟨m, hm, h, ⟨p, hp, hname, hlength⟩, hrun⟩ : ∃ m, (compileUnit 0 {} quotientUnit).1 = .ok m ∧
      Compiles 0 {} quotientUnit m ∧ (∃ p ∈ m.procedures, p.name = "main" ∧ p.parameters.length = 2) ∧
      runFresh m "main" [.int 7, .int 0] = .error .divisionByZero := by decide +kernel
  have hplain :
      ∀ f ∈ (functionsOf 0 quotientUnit).functions, f.represent = "main" → f.isPlain = true := by decide +kernel
  have hcount : [Scalar.int 7, .int 0].length = p.parameters.length := hlength.symm
  have hnotStuck := run_not_stuck h.errors hm h.structures h.procedures h.memcpy h.abstract h.fields hp hcount
    (by rw [hname]; exact hrun)
  exact ⟨m, hm, hrun, hnotStuck.1, hnotStuck.2 (by decide +kernel) (by rw [hname]; exact hplain)⟩

/-- An abstract function of one argument, a function of the same name that takes none, and one that calls the first. -/
def abstractUnit : SourceUnit where
  functions := [
    { constantFunction "pick" [("x", "i32")] true (.constant ⟨.integer 1, {}⟩) with body := none },
    constantFunction "pick" [] true (.constant ⟨.integer 2, {}⟩),
    constantFunction "main" [] true (.call ⟨"pick", [.constant ⟨.integer 1, {}⟩], {}⟩)]

/-- A call of the abstract function reaches the other one, although all procedures have names of their own. -/
theorem abstractUnit_stuck :
    ∃ m, (compileUnit 0 {} abstractUnit).2.hasErrors = false ∧ (compileUnit 0 {} abstractUnit).1 = .ok m ∧
      (m.structures.map StructDeclaration.name).Nodup ∧ (m.procedures.map Procedure.name).Nodup ∧
      (∀ p ∈ m.procedures, p.name ≠ IR.memcpy) ∧
      (∃ p ∈ m.procedures, p.name = "main" ∧ p.external = false ∧ p.parameters = []) ∧
      runFresh m "main" [] = .error (.argumentCount "pick" 0 1) := by
  rw [exists_and_left]
  decide +kernel

end Lowering
