import Lowering.Machine.Run
/-!
# Runs of the machine, step by step

A `Moment` is a call in progress with the frames that wait for it and the memory. `Steps` is any number of steps between
two moments, and `Halts` a run that comes to its end, with a result or a failure. The budget of a machine only decides
whether the end is reached (`Halts.run`).

Code without jumps is run inside one frame (`Site.Runs`, `Site.Fails`): what stands behind it does not matter. A frame
only holds what is left of the block it is in, so of any code it holds what comes before the next label
(`IR.Code.untilLabel`).
-/

namespace Lowering

open IR (Code Instruction)

/-- A moment of a run. -/
structure Moment where
  frame : Frame
  callers : List Caller
  memory : Memory

namespace Moment

section Steps

variable (m : IR.Module)

def run (s : Moment) (budget : Nat) : Except EvalError (Option Scalar) × Machine :=
  Machine.run m budget s.frame s.callers s.memory

/-- One instruction takes the machine from one moment to the next. -/
def Step (s s' : Moment) : Prop :=
  ∃ i rest, s.frame.rest = i :: rest ∧
    step m { s.frame with rest } s.callers i s.memory = .ok (.running s'.frame s'.callers) s'.memory

/-- Any number of instructions. -/
inductive Steps : Moment → Moment → Prop where
  | refl (s : Moment) : Steps s s
  | head {s s' s'' : Moment} : Step m s s' → Steps s' s'' → Steps s s''

/-- The next instruction is the last one. -/
def Finishes (s : Moment) (result : Except EvalError (Option Scalar)) (memory : Memory) : Prop :=
  ∃ i rest, s.frame.rest = i :: rest ∧ step m { s.frame with rest } s.callers i s.memory =
    match result with
    | .ok r => .ok (.finished r) memory
    | .error e => .error e memory

/-- The machine comes to an end. -/
def Halts (s : Moment) (result : Except EvalError (Option Scalar)) : Prop :=
  ∃ s' memory, Steps m s s' ∧ Finishes m s' result memory

/-- The machine comes to the end of a procedure while callers wait: the next instruction leaves it with a result. -/
def Exits (s : Moment) (callers : List Caller) (out : Option Scalar) (memory : Memory) : Prop :=
  ∃ frame value rest, Steps m s ⟨frame, callers, memory⟩ ∧ frame.rest = .ret value :: rest ∧
    value.mapM frame.registers.argument = .ok out

end Steps

variable {m : IR.Module} {s s' s'' : Moment} {result : Except EvalError (Option Scalar)} {memory : Memory}
  {out : Option Scalar}

theorem Steps.single (h : Step m s s') : Steps m s s' := .head h (.refl s')

theorem Steps.trans (h : Steps m s s') (h' : Steps m s' s'') : Steps m s s'' := by
  induction h with
  | refl => exact h'
  | head hstep _ ih => exact .head hstep (ih h')

theorem Steps.halts (h : Steps m s s') (h' : Halts m s' result) : Halts m s result := by
  obtain ⟨last, memory, hsteps, hfinishes⟩ := h'
  exact ⟨last, memory, h.trans hsteps, hfinishes⟩

theorem Steps.exits (h : Steps m s s') {callers} (h' : Exits m s' callers out memory) :
    Exits m s callers out memory := by
  obtain ⟨frame, value, rest, hsteps, hrest, hvalue⟩ := h'
  exact ⟨frame, value, rest, h.trans hsteps, hrest, hvalue⟩

theorem step_ret (frame : Frame) (hvalue : value.mapM frame.registers.argument = .ok out)
    (callers : List Caller) (memory : Memory) :
    step m frame callers (.ret value) memory = (liftM (leave out callers) : Effect Progress) memory := by
  rcases value with _ | a
  · cases hvalue
    rfl
  rcases ha : frame.registers.argument a with e | v
  · rw [Option.mapM_some, ha] at hvalue
    cases hvalue
  rw [Option.mapM_some, ha] at hvalue
  cases hvalue
  rw [step, ha]
  rfl

theorem Exits.halts (h : Exits m s [] out memory) : Halts m s (.ok out) := by
  obtain ⟨frame, value, rest, hsteps, hrest, hvalue⟩ := h
  exact ⟨_, memory, hsteps, _, rest, hrest, step_ret { frame with rest } hvalue [] memory⟩

theorem Exits.returns {caller callers} (h : Exits m s (caller :: callers) out memory) {frame}
    (hdeliver : caller.frame.deliver caller.destination out = .ok frame) : Steps m s ⟨frame, callers, memory⟩ := by
  obtain ⟨last, value, rest, hsteps, hrest, hvalue⟩ := h
  refine hsteps.trans (.single ⟨_, rest, hrest, ?_⟩)
  refine (step_ret { last with rest } hvalue (caller :: callers) memory).trans ?_
  rw [leave, hdeliver]
  rfl

theorem Step.run (h : Step m s s') (budget : Nat) :
    (s.run m 0).1 = .error .stepLimit ∧ s.run m (budget + 1) = s'.run m budget := by
  obtain ⟨i, rest, hrest, hstep⟩ := h
  simp [Moment.run, Machine.run, hrest, hstep]

/-- With any budget, steps are made or it comes to its end on the way. -/
theorem Steps.run (h : Steps m s s') (budget : Nat) :
    (s.run m budget).1 = .error .stepLimit ∨ ∃ budget', s.run m budget = s'.run m budget' := by
  induction h generalizing budget with
  | refl s => exact .inr ⟨budget, rfl⟩
  | head hstep _ ih =>
    rcases budget with _ | budget
    · exact .inl (hstep.run 0).1
    rw [(hstep.run budget).2]
    exact ih budget

/-- **The end of a run does not depend on the budget**, as long as there is enough of it. -/
theorem Halts.run (h : Halts m s result) (budget : Nat) :
    (s.run m budget).1 = .error .stepLimit ∨ (s.run m budget).1 = result := by
  obtain ⟨last, memory, hsteps, i, rest, hrest, hlast⟩ := h
  obtain hlimit | ⟨budget, hrun⟩ := hsteps.run budget
  · exact .inl hlimit
  rw [hrun]
  rcases budget with _ | budget
  · simp [Moment.run, Machine.run, hrest]
  refine .inr ?_
  cases result <;> simp only [Moment.run, Machine.run, hrest, hlast]

end Moment

/-! ### Code without jumps -/

/-- Whether an instruction begins a block. -/
def IR.Instruction.isLabel : Instruction → Bool
  | .label _ => true
  | _ => false

/-- The code of a block, of which the beginning is given together with all that follows. -/
def IR.Code.untilLabel (code : Code) : Code := code.takeWhile fun i => !i.isLabel

variable {i : Instruction}

theorem IR.Code.untilLabel_cons (h : i.isLabel = false) (rest : Code) :
    IR.Code.untilLabel (i :: rest) = i :: rest.untilLabel :=
  List.takeWhile_cons_of_pos (by rw [h]; rfl)

/-- Where code without jumps is run: a frame, of which the registers and the code are left open. -/
structure Site where
  program : IR.Module
  frame : Frame
  callers : List Caller

namespace Site

variable (site : Site)

/-- The frame with some registers, and some code to come. -/
def holding (registers : Registers) (rest : Code) : Frame := { site.frame with registers, rest := rest.untilLabel }

/-- Running code changes registers and memory. -/
def Runs (code : Code) (registers : Registers) (memory : Memory) (registers' : Registers) (memory' : Memory) : Prop :=
  ∀ rest, Moment.Steps site.program ⟨site.holding registers (code ++ rest), site.callers, memory⟩
    ⟨site.holding registers' rest, site.callers, memory'⟩

def Fails (code : Code) (registers : Registers) (memory : Memory) (e : EvalError) : Prop :=
  ∀ rest, Moment.Halts site.program ⟨site.holding registers (code ++ rest), site.callers, memory⟩ (.error e)

variable {site} {code more : Code} {R R' R'' : Registers} {M M' M'' : Memory} {e : EvalError}

theorem Runs.nil : site.Runs [] R M R M := fun _ => .refl _

theorem Runs.append (h : site.Runs code R M R' M') (hmore : site.Runs more R' M' R'' M'') :
    site.Runs (code ++ more) R M R'' M'' := fun rest => by
  rw [List.append_assoc]
  exact (h (more ++ rest)).trans (hmore rest)

theorem Runs.fails (h : site.Runs code R M R' M') (hmore : site.Fails more R' M' e) :
    site.Fails (code ++ more) R M e := fun rest => by
  rw [List.append_assoc]
  exact (h (more ++ rest)).halts (hmore rest)

theorem Fails.append (h : site.Fails code R M e) (more : Code) : site.Fails (code ++ more) R M e := fun rest => by
  rw [List.append_assoc]
  exact h (more ++ rest)

/-- Whatever the budget and what stands behind it, code is run until one of some failures, or control goes on behind it
with registers and memory that `Q` holds of. -/
def Yields (site : Site) (code : Code) (R : Registers) (M : Memory) (stops : EvalError → Prop)
    (Q : Registers → Memory → Prop) : Prop :=
  ∀ rest budget, let begun := Machine.run site.program budget (site.holding R (code ++ rest)) site.callers M
    (∃ e, stops e ∧ begun.1 = .error e) ∨
      ∃ R' M' budget', begun = Machine.run site.program budget' (site.holding R' rest) site.callers M' ∧ Q R' M'

theorem Yields.mono (h : site.Yields code R M stops Q)
    (hQ : ∀ R' M', Q R' M' → Q' R' M') : site.Yields code R M stops Q' := fun rest budget =>
  (h rest budget).imp_right fun ⟨R', M', budget', hrun, h⟩ => ⟨R', M', budget', hrun, hQ R' M' h⟩

theorem Runs.yields (h : site.Runs code R M R' M') (hlimit : stops .stepLimit)
    (hQ : Q R' M') : site.Yields code R M stops Q := by
  intro rest budget
  obtain hstop | ⟨budget', hrun⟩ := (h rest).run budget
  · exact .inl ⟨_, hlimit, hstop⟩
  · exact .inr ⟨R', M', budget', hrun, hQ⟩

theorem Fails.yields (h : site.Fails code R M e) (hlimit : stops .stepLimit) (he : stops e) :
    site.Yields code R M stops Q := by
  intro rest budget
  obtain hstop | hstop := (h rest).run budget
  · exact .inl ⟨_, hlimit, hstop⟩
  · exact .inl ⟨_, he, hstop⟩

theorem Runs.of_step (hi : i.isLabel = false)
    (h : ∀ rest, step site.program (site.holding R rest) site.callers i M =
      .ok (.running (site.holding R' rest) site.callers) M') : site.Runs [i] R M R' M' :=
  fun rest => .single ⟨i, rest.untilLabel, IR.Code.untilLabel_cons hi rest, h rest⟩

theorem Fails.of_step (hi : i.isLabel = false)
    (h : ∀ rest, step site.program (site.holding R rest) site.callers i M = .error e M') : site.Fails [i] R M e :=
  fun rest => ⟨_, M', .refl _, i, rest.untilLabel, IR.Code.untilLabel_cons hi rest, h rest⟩

theorem Runs.set (h : ∀ rest, evaluate site.program (site.holding R rest) value M = .ok (.done v) M') :
    site.Runs [.set r value] R M (R.set r v) M' := by
  refine .of_step rfl fun rest => ?_
  rw [step]
  simp only [bind, EStateM.bind, h rest]
  rfl

theorem Fails.set (h : ∀ rest, evaluate site.program (site.holding R rest) value M = .error e M') :
    site.Fails [.set r value] R M e := by
  have hstep (rest : Code) : step site.program (site.holding R rest) site.callers (.set r value) M = .error e M' := by
    rw [step]
    simp [bind, EStateM.bind, h rest]
  exact .of_step rfl hstep

end Site

end Lowering
