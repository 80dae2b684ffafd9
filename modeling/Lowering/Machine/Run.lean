import Lowering.Machine.Layout
/-!
# Running code

A call in progress is a `Frame`; the frames that wait for a call to come back are kept in a list, innermost first. Every
instruction costs one step of a machine's budget, and running is recursion on that budget. A machine keeps its memory
and the rest of its budget from one call to the next, also when a call fails.
-/

namespace Lowering

open IR (Local)

abbrev Registers := List (Local × Scalar)

namespace Registers

def get? (registers : Registers) (id : Local) : Option Scalar := registers.lookup id

def set : Registers → Local → Scalar → Registers
  | [], id, value => [(id, value)]
  | (key, old) :: rest, id, value =>
    if key = id then (id, value) :: rest else (key, old) :: set rest id value

theorem get?_cons (key : Local) (value : Scalar) (rest : Registers) (id : Local) :
    get? ((key, value) :: rest) id = if id = key then some value else get? rest id := by
  unfold get?
  rw [List.lookup_cons]
  by_cases h : id = key
  · rw [if_pos h, h, beq_self_eq_true]
  · rw [if_neg h, beq_false_of_ne h]

/-- A register has the value it was given last. -/
theorem get?_set (registers : Registers) (id : Local) (value : Scalar) (other : Local) :
    (registers.set id value).get? other = if other = id then some value else registers.get? other := by
  induction registers with
  | nil => rw [set, get?_cons]
  | cons entry rest ih =>
    obtain ⟨key, old⟩ := entry
    rw [set, get?_cons]
    split
    · next same => rw [get?_cons, same]; split <;> rfl
    · next same => rw [get?_cons]; split <;> simp_all

def operand (registers : Registers) (ty : IR.Ty) : IR.Operand → Except EvalError Scalar
  | .register id =>
    match registers.get? id with
    | some value => .ok value
    | none => .error (.undefinedRegister id)
  | .int n => .ok (.int (Word.mask (wordBits ty) (UInt64.ofInt n)))
  | .float x => .ok (.float x)
  | .bool b => .ok (.ofBool b)
  | .bytes _ => .error (.unsupportedType ty)

def argument (registers : Registers) (a : IR.Argument) : Except EvalError Scalar :=
  registers.operand a.ty a.value

def arguments (registers : Registers) (as : List IR.Argument) : Except EvalError (List Scalar) :=
  as.mapM registers.argument

def index (registers : Registers) (a : IR.Argument) : Except EvalError Int64 :=
  (fun value => Word.signed (wordBits a.ty) value.word) <$> registers.argument a

/-- Gives the registers of parameters their values. -/
def bind : Registers → List IR.Argument → List Scalar → Registers
  | registers, parameter :: parameters, value :: values =>
    match parameter.value with
    | .register id => bind (registers.set id value) parameters values
    | _ => bind registers parameters values
  | registers, _, _ => registers

end Registers

/-- A call in progress. -/
structure Frame where
  procedure : IR.Procedure
  /-- The block that is being run. -/
  label : Local
  /-- What is left to do in it. -/
  rest : IR.Code
  /-- The block control came from. -/
  previous : Option Local
  registers : Registers
deriving DecidableEq, Repr

/-- A frame that waits for a call to come back, and the register that takes the result. -/
structure Caller where
  frame : Frame
  destination : Option Local
deriving DecidableEq, Repr

/-- What a value comes down to: a scalar, or a call that has to be made first. -/
inductive Evaluation where
  | done (value : Scalar)
  | call (callee : String) (arguments : List Scalar)
deriving DecidableEq, Repr

/-- Where a step leads. -/
inductive Progress where
  | running (frame : Frame) (callers : List Caller)
  | finished (result : Option Scalar)
deriving DecidableEq, Repr

/-- How deep calls may nest. -/
def callDepthLimit : Nat := 256

/-- How many instructions a machine may run. -/
def stepLimit : Nat := 1000000

namespace Frame

def goTo (frame : Frame) (label : Local) : Except EvalError Frame :=
  match frame.procedure.block? label with
  | some block =>
    .ok { frame with label := block.label, rest := block.instructions, previous := some frame.label }
  | none => .error (.unknownLabel label)

def deliver (frame : Frame) : Option Local → Option Scalar → Except EvalError Frame
  | none, _ => .ok frame
  | some destination, some value => .ok { frame with registers := frame.registers.set destination value }
  | some _, none => .error (.unsupportedType .void)

def enter (procedure : IR.Procedure) (arguments : List Scalar) : Except EvalError Frame :=
  match procedure.blocks with
  | [] => .error (.external procedure.name)
  | block :: _ =>
    .ok ⟨procedure, block.label, block.instructions, none, .bind [] procedure.parameters arguments⟩

end Frame

section Stepping

variable (m : IR.Module)

/-- Begins a call when `depth` calls are in progress. The byte copy is done at once and has no frame. -/
def beginCall (depth : Nat) (callee : String) (arguments : List Scalar) : Effect (Option Frame) := do
  if callee = IR.memcpy then
    match arguments with
    | destination :: source :: count :: _ =>
      Effect.copy destination.word source.word count.word.toNat
      return none
    | _ => throw (.argumentCount callee 4 arguments.length)
  else
    match m.procedure? callee with
    | none => throw (.unknownProcedure callee)
    | some procedure =>
      if procedure.external then
        throw (.external callee)
      if procedure.parameters.length ≠ arguments.length then
        throw (.argumentCount callee procedure.parameters.length arguments.length)
      if callDepthLimit ≤ depth then
        throw .callDepth
      some <$> Frame.enter procedure arguments

def evaluate (frame : Frame) : IR.Value → Effect Evaluation
  | .alloc ty => do
    let size ← sizeOf m ty
    let address ← Effect.allocate size
    return .done (.int address)
  | .load ty address => do
    let address ← frame.registers.argument address
    let value ← loadScalar m (← get) ty address.word
    return .done value
  | .elementPointer pointee base indices _ => do
    let base ← frame.registers.argument base
    let address ← elementAddress m base.word pointee (indices.map frame.registers.index)
    return .done (.int address)
  | .binary operator mode ty lhs rhs => do
    let a ← frame.registers.operand ty lhs
    let b ← frame.registers.operand ty rhs
    let value ← evalBinary operator mode ty a b
    return .done value
  | .compare predicate ty lhs rhs => do
    let a ← frame.registers.operand ty lhs
    let b ← frame.registers.operand ty rhs
    return .done (.ofBool (evalCompare predicate ty a b))
  | .bitcast value _ => do
    let value ← frame.registers.argument value
    return .done value
  | .convert conversion value target => do
    let source := value.ty
    let value ← frame.registers.argument value
    return .done (evalConvert conversion source target value)
  | .sizeOf ty => do
    let size ← sizeOf m ty
    return .done (.int (UInt64.ofNat size))
  | .call _ callee arguments => do
    let arguments ← frame.registers.arguments arguments
    return .call callee arguments
  | .phi ty sources =>
    match sources.find? fun source => some source.1 == frame.previous with
    | none => throw .missingPhiSource
    | some (_, operand) => do
      let value ← frame.registers.operand ty operand
      return .done value

def call (frame : Frame) (callers : List Caller) (destination : Option Local) (callee : String)
    (arguments : List Scalar) : Effect Progress := do
  match ← beginCall m (callers.length + 1) callee arguments with
  | some inner => return .running inner (⟨frame, destination⟩ :: callers)
  | none => return .running (← frame.deliver destination none) callers

def leave (result : Option Scalar) : List Caller → Except EvalError Progress
  | [] => .ok (.finished result)
  | caller :: callers => do
    let frame ← caller.frame.deliver caller.destination result
    return .running frame callers

def step (frame : Frame) (callers : List Caller) : IR.Instruction → Effect Progress
  | .label _ => return .running frame callers
  | .set destination value => do
    match ← evaluate m frame value with
    | .done result => return .running (← frame.deliver destination result) callers
    | .call callee arguments => call m frame callers destination callee arguments
  | .store address value => do
    let address ← frame.registers.argument address
    match value.value with
    | .bytes data => Effect.write address.word data
    | operand => storeScalar m value.ty address.word (← frame.registers.operand value.ty operand)
    return .running frame callers
  | .call _ callee arguments => do
    let arguments ← frame.registers.arguments arguments
    call m frame callers none callee arguments
  | .branch condition positive negative => do
    let condition ← frame.registers.argument condition
    let frame ← frame.goTo (if condition.word &&& 1 = 1 then positive else negative)
    return .running frame callers
  | .jump target => do
    let frame ← frame.goTo target
    return .running frame callers
  | .ret none => leave none callers
  | .ret (some value) => do
    let value ← frame.registers.argument value
    leave (some value) callers

end Stepping

/-- Memory, and how many more instructions may be run. -/
structure Machine where
  memory : Memory
  budget : Nat

namespace Machine

def fresh : Machine := ⟨.empty, stepLimit⟩

instance : Inhabited Machine := ⟨fresh⟩

variable (m : IR.Module)

/-- Runs a frame until its outermost call comes back or fails. -/
def run : (budget : Nat) → Frame → List Caller → Memory → Except EvalError (Option Scalar) × Machine
  | 0, frame, _, memory =>
    (.error (if frame.rest.isEmpty then .unterminatedBlock frame.label else .stepLimit), ⟨memory, 0⟩)
  | budget + 1, frame, callers, memory =>
    match frame.rest with
    | [] => (.error (.unterminatedBlock frame.label), ⟨memory, budget + 1⟩)
    | instruction :: rest =>
      match step m { frame with rest } callers instruction memory with
      | .ok (.running frame callers) memory => run budget frame callers memory
      | .ok (.finished result) memory => (.ok result, ⟨memory, budget⟩)
      | .error e memory => (.error e, ⟨memory, budget⟩)

def call (machine : Machine) (name : String) (arguments : List Scalar) :
    Except EvalError (Option Scalar) × Machine :=
  match beginCall m 0 name arguments machine.memory with
  | .ok (some frame) memory => run m machine.budget frame [] memory
  | .ok none memory => (.ok none, ⟨memory, machine.budget⟩)
  | .error e memory => (.error e, ⟨memory, machine.budget⟩)

def load (machine : Machine) (ty : IR.Ty) (address : UInt64) : Except EvalError Scalar :=
  loadScalar m machine.memory ty address

end Machine

def runFresh (m : IR.Module) (name : String) (arguments : List Scalar) : Except EvalError (Option Scalar) :=
  (Machine.fresh.call m name arguments).1

end Lowering
