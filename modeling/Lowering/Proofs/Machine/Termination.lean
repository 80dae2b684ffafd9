import Lowering.Proofs.Machine.Renaming
import Mathlib.Data.List.Perm.Subperm
import Mathlib.Logic.Relation
/-!
# The machine stops

A call is followed as it is made: the frame of a procedure runs its instructions one after the other, and a call among
them runs the frame of its callee first (`Executes`). Nothing bounds the calls but the budget, and every instruction
takes from it before it does anything, so every call comes to an end (`exists_executes`). The machine, which keeps the
frames that wait in a list, comes to the same one (`Executes.run_eq`).

Sizes are taken in the same way: the size of a structure asks for the sizes of the structures it contains (`Measured`),
and that ends where no structure contains itself (`measured_iff`).
-/

namespace Lowering

open List
open IR (Base Instruction Module StructDeclaration)

/-! ### Sizes -/

/-- The structure whose size the size of a base type asks for. -/
def IR.Base.structure? : Base → Option String
  | .struct name => some name
  | .array _ element => element.structure?
  | _ => none

/-- A structure contains another one by value. -/
def IR.Module.Contains (m : Module) (outer inner : String) : Prop :=
  ∃ s, m.structure? outer = some s ∧ ∃ ty ∈ s.fields, ty.pointer = 0 ∧ ty.base.structure? = some inner

/-- What taking the size of a structure ends with. -/
inductive Measured (m : Module) : String → Except EvalError Nat → Prop where
  | unknown {name : String} : m.structure? name = none → Measured m name (.error (.unsupportedType ⟨.struct name, 0⟩))
  | known {name : String} {s : StructDeclaration} (size : String → Except EvalError Nat) : m.structure? name = some s →
    (∀ inner, m.Contains name inner → Measured m inner (size inner)) →
      Measured m name (totalSize (typeSize size) 0 s.fields)

section Sizes

variable {m : Module} {f g : String → Except EvalError Nat} {name : String} {result : Except EvalError Nat}

theorem baseSize_congr (h : ∀ name ∈ base.structure?, f name = g name) : baseSize f base = baseSize g base := by
  induction base with
  | void | int | float => rfl
  | struct name => exact h name rfl
  | array length element ih => rw [baseSize, baseSize, ih h]

theorem typeSize_congr (h : ty.pointer = 0 → ∀ name ∈ ty.base.structure?, f name = g name) :
    typeSize f ty = typeSize g ty := by
  unfold typeSize
  split
  · next hptr => exact baseSize_congr (h hptr)
  · rfl

theorem totalSize_congr {f g tys} (h : ∀ ty ∈ tys, f ty = g ty) (total : Nat) :
    totalSize f total tys = totalSize g total tys := by
  induction tys generalizing total with
  | nil => rfl
  | cons ty rest ih =>
    simp_all [totalSize]

theorem Measured.unique (h : Measured m name result) {result'} (h' : Measured m name result') : result = result' := by
  induction h generalizing result' with
  | unknown hs =>
    cases h' with
    | unknown => rfl
    | known _ hs' => cases hs.symm.trans hs'
  | known size hs _ ih =>
    rcases h' with hs' | ⟨size', hs', hinner⟩
    · cases hs.symm.trans hs'
    cases hs.symm.trans hs'
    refine totalSize_congr (fun ty hty => typeSize_congr fun hptr inner hname => ?_) 0
    have hcontains : m.Contains _ inner := ⟨_, hs, ty, hty, hptr, hname⟩
    exact ih inner hcontains (hinner inner hcontains)

/-- Structures on the way to a structure are all different, so there are at most as many as there are structures. -/
theorem measured_structSize (hm : ∀ name, ¬ Relation.TransGen m.Contains name name) (outer : List String)
    (hnodup : outer.Nodup) (houter : ∀ other ∈ outer, Relation.TransGen m.Contains other name)
    (hlen : m.structures.length < outer.length + nesting) : Measured m name (structSize m nesting name) := by
  induction nesting generalizing name outer with
  | zero =>
    have hdecl : outer ⊆ m.structures.map StructDeclaration.name := by
      intro other hother
      obtain ⟨inner, ⟨s, hs, -⟩, -⟩ := Relation.TransGen.head'_iff.1 (houter other hother)
      exact mem_map.2 ⟨s, mem_of_find?_eq_some hs, by simpa using List.find?_some hs⟩
    have hle := (subperm_of_subset hnodup hdecl).length_le
    grind
  | succ nesting ih =>
    rcases hs : m.structure? name with _ | s
    · rw [structSize, hs]
      exact .unknown hs
    rw [structSize, hs]
    refine .known _ hs fun inner hinner => ih (name :: outer) ?_ ?_ ?_
    · exact nodup_cons.2 ⟨fun hmem => hm name (houter name hmem), hnodup⟩
    · exact forall_mem_cons.2 ⟨.single hinner, fun other hother => (houter other hother).tail hinner⟩
    · grind

theorem measured_iff (hm : ∀ name, ¬ Relation.TransGen m.Contains name name) :
    Measured m name result ↔ result = sizeOf m ⟨.struct name, 0⟩ := by
  have h : Measured m name (sizeOf m ⟨.struct name, 0⟩) :=
    measured_structSize hm [] nodup_nil (forall_mem_nil _) (by rw [length_nil]; omega)
  exact ⟨fun h' => h'.unique h, fun heq => heq ▸ h⟩

end Sizes

/-! ### Calls -/

section Calls

variable (m : Module)

/-- How running a frame ends that is the `depth`-th one, with what is left of the budget. A call runs the frame of the
procedure first, and the frame that called it goes on with what was left. -/
inductive Executes : Nat → Frame → Machine → Except EvalError (Option Scalar) × Machine → Prop where
  | unterminated {depth frame machine} : frame.rest = [] →
    Executes depth frame machine (.error (.unterminatedBlock frame.label), machine)
  | stepLimit {depth frame i rest memory} : frame.rest = i :: rest →
    Executes depth frame ⟨memory, 0⟩ (.error .stepLimit, ⟨memory, 0⟩)
  | fails {depth budget frame i rest memory memory' e} :
    frame.rest = i :: rest → outcome m depth { frame with rest } i memory = .error e memory' →
      Executes depth frame ⟨memory, budget + 1⟩ (.error e, ⟨memory', budget⟩)
  | leaves {depth budget frame i rest memory memory' result} :
    frame.rest = i :: rest → outcome m depth { frame with rest } i memory = .ok (.leaves result) memory' →
      Executes depth frame ⟨memory, budget + 1⟩ (.ok result, ⟨memory', budget⟩)
  | goes {depth budget frame frame' i rest memory memory' ending} :
    frame.rest = i :: rest → outcome m depth { frame with rest } i memory = .ok (.goes frame') memory' →
      Executes depth frame' ⟨memory', budget⟩ ending → Executes depth frame ⟨memory, budget + 1⟩ ending
  | callFails {depth budget frame frame' inner i rest memory memory' destination e machine} :
    frame.rest = i :: rest →
    outcome m depth { frame with rest } i memory = .ok (.calls inner frame' destination) memory' →
      Executes (depth + 1) inner ⟨memory', budget⟩ (.error e, machine) →
      Executes depth frame ⟨memory, budget + 1⟩ (.error e, machine)
  | noResult {depth budget frame frame' inner i rest memory memory' destination result machine e} :
    frame.rest = i :: rest →
    outcome m depth { frame with rest } i memory = .ok (.calls inner frame' destination) memory' →
      Executes (depth + 1) inner ⟨memory', budget⟩ (.ok result, machine) →
      frame'.deliver destination result = .error e → Executes depth frame ⟨memory, budget + 1⟩ (.error e, machine)
  | returns {depth budget frame frame' frame'' inner i rest memory memory' destination result machine ending} :
    frame.rest = i :: rest →
    outcome m depth { frame with rest } i memory = .ok (.calls inner frame' destination) memory' →
      Executes (depth + 1) inner ⟨memory', budget⟩ (.ok result, machine) →
      frame'.deliver destination result = .ok frame'' →
      Executes depth frame'' machine ending → Executes depth frame ⟨memory, budget + 1⟩ ending

/-- How a call ends. -/
inductive Calls (machine : Machine) (name : String) (arguments : List Scalar) :
    Except EvalError (Option Scalar) × Machine → Prop where
  | fails {e memory} : beginCall m 0 name arguments machine.memory = .error e memory →
    Calls machine name arguments (.error e, ⟨memory, machine.budget⟩)
  | copies {memory} : beginCall m 0 name arguments machine.memory = .ok none memory →
    Calls machine name arguments (.ok none, ⟨memory, machine.budget⟩)
  | enters {frame memory ending} :
    beginCall m 0 name arguments machine.memory = .ok (some frame) memory →
      Executes m 1 frame ⟨memory, machine.budget⟩ ending → Calls machine name arguments ending

/-- The frames that wait go on where the innermost one has come to an end. -/
def resume : List Caller → Except EvalError (Option Scalar) × Machine → Except EvalError (Option Scalar) × Machine
  | caller :: callers, (.ok result, machine) =>
    match caller.frame.deliver caller.destination result with
    | .ok frame => Machine.run m machine.budget frame callers machine.memory
    | .error e => (.error e, machine)
  | _, ending => ending

end Calls

variable {m : Module} {depth : Nat} {frame : Frame} {machine : Machine} {callers : List Caller}
  {ending : Except EvalError (Option Scalar) × Machine} {memory memory' : Memory} {i : Instruction} {rest : IR.Code}

theorem resume_error (callers : List Caller) (e : EvalError) (machine : Machine) :
    resume m callers (.error e, machine) = (.error e, machine) := by
  cases callers <;> rfl

theorem step_of_ok (ho : outcome m (callers.length + 1) frame i memory = .ok o memory') :
    step m frame callers i memory = (liftM (o.complete callers) : Effect Progress) memory' := by
  rw [step_eq]
  show EStateM.bind _ _ _ = _
  rw [EStateM.bind, ho]

theorem step_of_error (ho : outcome m (callers.length + 1) frame i memory = .error e memory') :
    step m frame callers i memory = .error e memory' := by
  rw [step_eq]
  show EStateM.bind _ _ _ = _
  rw [EStateM.bind, ho]

theorem run_calls {inner} (hrest : frame.rest = i :: rest)
    (ho : outcome m (callers.length + 1) { frame with rest } i memory = .ok (.calls inner frame' destination) memory')
    (budget : Nat) : Machine.run m (budget + 1) frame callers memory =
      Machine.run m budget inner (⟨frame', destination⟩ :: callers) memory' := by
  rw [Machine.run, hrest]
  simp only [step_of_ok ho]
  rfl

/-- **The machine comes to the same end**, with the frames that wait in a list. -/
theorem Executes.run_eq (h : Executes m depth frame machine ending) (hdepth : depth = callers.length + 1) :
    Machine.run m machine.budget frame callers machine.memory = resume m callers ending := by
  induction h generalizing callers with
  | @unterminated _ _ machine hrest =>
    rw [resume_error]
    obtain ⟨memory, budget⟩ := machine
    cases budget with
    | zero =>
      rw [Machine.run, hrest]
      rfl
    | succ => rw [Machine.run, hrest]
  | stepLimit hrest =>
    rw [resume_error, Machine.run, hrest]
    rfl
  | fails hrest ho =>
    subst hdepth
    rw [resume_error, Machine.run, hrest]
    simp [step_of_error ho]
  | @leaves _ _ _ _ _ _ _ result hrest ho =>
    subst hdepth
    rw [Machine.run, hrest]
    simp only [step_of_ok ho]
    rcases callers with _ | ⟨caller, callers⟩
    · rfl
    rw [Outcome.complete_leaves, resume]
    cases caller.frame.deliver caller.destination result <;> rfl
  | goes hrest ho _ ih =>
    subst hdepth
    rw [Machine.run, hrest]
    simp only [step_of_ok ho]
    exact ih rfl
  | callFails hrest ho _ ih =>
    subst hdepth
    rw [resume_error]
    exact (run_calls hrest ho _).trans ((ih rfl).trans (resume_error ..))
  | noResult hrest ho _ hdeliver ih =>
    subst hdepth
    refine (run_calls hrest ho _).trans ((ih rfl).trans ?_)
    rw [resume_error, resume, hdeliver]
  | returns hrest ho _ hdeliver _ ihInner ih =>
    subst hdepth
    refine (run_calls hrest ho _).trans ((ihInner rfl).trans ?_)
    rw [resume, hdeliver]
    exact ih rfl

theorem Executes.budget_le (h : Executes m depth frame machine ending) : ending.2.budget ≤ machine.budget := by
  induction h with
  | unterminated | stepLimit => exact Nat.le_refl _
  | fails | leaves => exact Nat.le_succ _
  | goes _ _ _ ih | callFails _ _ _ ih | noResult _ _ _ _ ih => exact Nat.le_succ_of_le ih
  | returns _ _ _ _ _ ihInner ih => exact Nat.le_succ_of_le (ih.trans ihInner)

/-- **Every frame comes to an end**: each instruction takes from the budget before anything else is run. -/
theorem exists_executes (m : Module) (depth : Nat) (frame : Frame) (machine : Machine) :
    ∃ ending, Executes m depth frame machine ending := by
  induction hbudget : machine.budget using Nat.strongRecOn generalizing depth frame machine with
  | _ budget ih =>
    obtain ⟨memory, left⟩ := machine
    subst hbudget
    cases hrest : frame.rest with
    | nil => exact ⟨_, .unterminated hrest⟩
    | cons i rest =>
      cases left with
      | zero => exact ⟨_, .stepLimit hrest⟩
      | succ left =>
        cases ho : outcome m depth { frame with rest } i memory with
        | error => exact ⟨_, .fails hrest ho⟩
        | ok o memory' =>
          cases o with
          | leaves => exact ⟨_, .leaves hrest ho⟩
          | goes frame' =>
            obtain ⟨ending, h⟩ := ih left (Nat.lt_succ_self _) depth frame' ⟨memory', left⟩ rfl
            exact ⟨ending, .goes hrest ho h⟩
          | calls inner frame' destination =>
            obtain ⟨⟨result, machine⟩, h⟩ := ih left (Nat.lt_succ_self _) (depth + 1) inner ⟨memory', left⟩ rfl
            rcases result with _ | result
            · exact ⟨_, .callFails hrest ho h⟩
            rcases hdeliver : frame'.deliver destination result with _ | frame''
            · exact ⟨_, .noResult hrest ho h hdeliver⟩
            obtain ⟨ending, h'⟩ := ih machine.budget (Nat.lt_succ_of_le h.budget_le) depth frame'' machine rfl
            exact ⟨ending, .returns hrest ho h hdeliver h'⟩

theorem Calls.eq (h : Calls m machine name arguments ending) : ending = machine.call m name arguments := by
  unfold Machine.call
  cases h with
  | fails hbegin | copies hbegin => rw [hbegin]
  | enters hbegin h =>
    rw [hbegin]
    exact (h.run_eq (show 1 = ([] : List Caller).length + 1 from rfl)).symm

theorem exists_calls (m : Module) (machine : Machine) (name : String) (arguments : List Scalar) :
    ∃ ending, Calls m machine name arguments ending := by
  cases hbegin : beginCall m 0 name arguments machine.memory with
  | error => exact ⟨_, .fails hbegin⟩
  | ok entered memory =>
    rcases entered with _ | frame
    · exact ⟨_, .copies hbegin⟩
    obtain ⟨ending, h⟩ := exists_executes m 1 frame ⟨memory, machine.budget⟩
    exact ⟨ending, .enters hbegin h⟩

/-- **The machine always stops.** Where no structure contains itself, sizes can be taken by asking for the sizes of what
a structure contains; and `Machine.call`, for whatever procedure and from whatever state, comes to one end, with a
result or a failure, by running its instructions and the calls among them one after the other. The failure may be
`EvalError.trap`: the machine itself broke off, as in `peekModule_breaksOff`. -/
theorem call_ends (hm : ∀ name, ¬ Relation.TransGen m.Contains name name) :
    (∀ name size, Measured m name size ↔ size = sizeOf m ⟨.struct name, 0⟩) ∧
    ∀ machine name arguments ending, Calls m machine name arguments ending ↔
      ending = machine.call m name arguments := by
  refine ⟨fun name size => measured_iff hm, fun machine name arguments ending => ⟨Calls.eq, ?_⟩⟩
  rintro rfl
  obtain ⟨ending, h⟩ := exists_calls m machine name arguments
  rwa [← h.eq]

/-- A structure in a structure, a procedure that calls itself and one that jumps to itself. -/
def restlessModule : Module where
  structures := [⟨"outer", [⟨.array 2 (.struct "inner"), 0⟩, ⟨.struct "outer", 1⟩]⟩, ⟨"inner", [⟨.int 16, 0⟩]⟩]
  procedures := [
    { name := "again", returnType := .void, parameters := [], blocks :=
      [⟨0, [.call .void "again" [], .ret none], []⟩] },
    { name := "stay", returnType := .void, parameters := [], blocks := [⟨0, [.jump 0], []⟩] }]

theorem restlessModule_contains {inner} (h : restlessModule.Contains outer inner) :
    outer = "outer" ∧ inner = "inner" := by
  obtain ⟨s, hs, ty, hty, hptr, hbase⟩ := h
  have hname : s.name = outer := by simpa using List.find?_some hs
  subst hname
  obtain rfl | rfl : s = _ ∨ s = _ := by simpa [restlessModule] using mem_of_find?_eq_some hs
  · obtain rfl | rfl : ty = _ ∨ ty = _ := by simpa using hty
    · exact ⟨rfl, (Option.some.inj hbase).symm⟩
    · cases hptr
  · cases mem_singleton.1 hty
    cases hbase

/-- Whatever is left of the budget is used up where control goes round in circles. -/
theorem call_ends_restlessModule : (∀ name, ¬ Relation.TransGen restlessModule.Contains name name) ∧
    Measured restlessModule "outer" (.ok 12) ∧
    Calls restlessModule ⟨.empty, 5⟩ "stay" [] (.error .stepLimit, ⟨.empty, 0⟩) ∧
    Calls restlessModule ⟨.empty, 7⟩ "again" [] (.error .stepLimit, ⟨.empty, 0⟩) := by
  have hm : ∀ name, ¬ Relation.TransGen restlessModule.Contains name name := by
    intro name h
    obtain ⟨_, hfirst, -⟩ := Relation.TransGen.head'_iff.1 h
    obtain ⟨_, -, hlast⟩ := Relation.TransGen.tail'_iff.1 h
    obtain ⟨rfl, -⟩ := restlessModule_contains hfirst
    exact absurd (restlessModule_contains hlast).2 (by decide)
  obtain ⟨hsizes, hcalls⟩ := call_ends hm
  exact ⟨hm, (hsizes ..).2 rfl, (hcalls ..).2 rfl, (hcalls ..).2 rfl⟩

/-- A procedure that loads a number from the address it is called with. -/
def peekModule : Module where
  procedures := [
    { name := "main"
      returnType := .int 64
      parameters := [⟨.int 64, .register 0⟩]
      blocks := [⟨1, [.set 2 (.load (.int 64) ⟨.int 64, .register 0⟩), .ret (some ⟨.int 64, .register 2⟩)], []⟩] }]

/-- Close to the largest word the end of the number is no word, and `main` has neither a result nor an error to tell. -/
theorem peekModule_breaksOff : (∀ name, ¬ Relation.TransGen peekModule.Contains name name) ∧
    (Machine.fresh.call peekModule "main" [.int 18446744073709551612]).1 = .error .trap := by
  refine ⟨fun name h => ?_, by decide +kernel⟩
  obtain ⟨_, ⟨s, hs, -⟩, -⟩ := Relation.TransGen.head'_iff.1 h
  cases hs

end Lowering
