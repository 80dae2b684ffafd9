import Lowering.Binary64.Basic
/-!
# The register code that function bodies are lowered to

Every intermediate value lives in a register that is set once. Conditionals are labels, branches and phis, and memory
is touched only by explicit allocations, loads and stores. Registers and labels share one supply of numbers, the
*locals* of a procedure.

* `IR.Ty` is a base type behind some pointers; `IR.Argument` an operand with its type.
* `IR.Value` is what a register can be set to, `IR.Instruction` one step, `IR.Code` steps in order.
* `IR.Procedure` holds code cut into blocks, `IR.Module` procedures and the structures they use.
-/

namespace Lowering.IR

/-- The number of a register or of a label within one procedure. -/
abbrev Local := Nat

/-- What a type is behind all pointers. -/
inductive Base where
  | void
  | int (bits : Nat)
  | float (bits : Nat)
  /-- A structure, by its emitted name. -/
  | struct (name : String)
  | array (length : Nat) (element : Base)
deriving DecidableEq, Repr

/-- A base type behind `pointer` pointers. -/
structure Ty where
  base : Base
  pointer : Nat := 0
deriving DecidableEq, Repr

namespace Ty

instance : Inhabited Ty := ⟨⟨.void, 0⟩⟩

def void : Ty := ⟨.void, 0⟩

def int (bits : Nat) : Ty := ⟨.int bits, 0⟩

def bool : Ty := int 1

def bytePointer : Ty := ⟨.int 8, 1⟩

def pointerTo (t : Ty) : Ty := ⟨t.base, t.pointer + 1⟩

/-- The type that addresses of a type lead to. -/
def pointee? (t : Ty) : Option Ty :=
  match t.pointer with
  | 0 => none
  | pointer + 1 => some ⟨t.base, pointer⟩

def isVoid (t : Ty) : Bool := t.pointer == 0 && t.base == .void

end Ty

/-- Something a value can be read from. -/
inductive Operand where
  | register (id : Local)
  /-- An integer between -2^63 and 2^63 - 1. -/
  | int (n : Int)
  | float (x : Binary64)
  | bool (b : Bool)
  /-- The bytes of a constant array. -/
  | bytes (data : List UInt8)
deriving DecidableEq, Repr

/-- Whether two operands are known to have the same value. Numbers compare as numbers: the two zeros are the same, and
a NaN is not the same as itself. -/
def Operand.agrees : Operand → Operand → Bool
  | .float x, .float y => x.equal y
  | a, b => a == b

/-- The register an operand reads, if it reads one. -/
def Operand.register? : Operand → Option Local
  | .register id => some id
  | _ => none

/-- An operand with its type. -/
structure Argument where
  ty : Ty
  value : Operand
deriving DecidableEq, Repr

namespace Argument

def register (ty : Ty) (id : Local) : Argument := ⟨ty, .register id⟩

def i32 (n : Int) : Argument := ⟨.int 32, .int n⟩

end Argument

/-- Operations on two values of one type. -/
inductive BinaryOperator where
  | add | sub | mul | div | rem | and | or | xor
deriving DecidableEq, Repr

/-- How the operands of an operation are understood. -/
inductive NumericMode where
  | signed | unsigned | float
deriving DecidableEq, Repr

/-- Comparisons: of bits, of signed and unsigned integers, and of floats (ordered, except `une`). -/
inductive Predicate where
  | eq | ne | sgt | sge | slt | sle | ugt | uge | ult | ule | oeq | une | ogt | oge | olt | ole
deriving DecidableEq, Repr

def Predicate.isFloat : Predicate → Bool
  | .oeq | .une | .ogt | .oge | .olt | .ole => true
  | _ => false

/-- Conversions between integers and floats. -/
inductive Conversion where
  | trunc | zext | sext | fptrunc | fpext | sitofp | uitofp | fptosi | fptoui
deriving DecidableEq, Repr

/-- What a register can be set to. -/
inductive Value where
  /-- The address of fresh memory for a value of a type. -/
  | alloc (ty : Ty)
  /-- The value at an address. -/
  | load (ty : Ty) (address : Argument)
  /-- The address of an element of the aggregate of type `pointee` at `base`; `result` is the type of the address. -/
  | elementPointer (pointee : Ty) (base : Argument) (indices : List Argument) (result : Ty)
  | binary (operator : BinaryOperator) (mode : NumericMode) (ty : Ty) (lhs rhs : Operand)
  | compare (predicate : Predicate) (ty : Ty) (lhs rhs : Operand)
  /-- The same bits at another type. -/
  | bitcast (value : Argument) (target : Ty)
  | convert (conversion : Conversion) (value : Argument) (target : Ty)
  /-- How many bytes a value of a type takes, as a 64-bit integer. -/
  | sizeOf (ty : Ty)
  | call (returnType : Ty) (callee : String) (arguments : List Argument)
  /-- The operand that belongs to the block control came from. -/
  | phi (ty : Ty) (sources : List (Local × Operand))
deriving DecidableEq, Repr

def Value.resultType : Value → Ty
  | .alloc ty => ty.pointerTo
  | .load ty _ => ty
  | .elementPointer _ _ _ result => result
  | .binary _ _ ty _ _ => ty
  | .compare .. => .bool
  | .bitcast _ target => target
  | .convert _ _ target => target
  | .sizeOf _ => .int 64
  | .call returnType _ _ => returnType
  | .phi ty _ => ty

/-- One step of code. -/
inductive Instruction where
  /-- Begins a block. -/
  | label (id : Local)
  /-- Sets a register. -/
  | set (destination : Local) (value : Value)
  /-- Writes a value to an address. -/
  | store (address value : Argument)
  /-- A call whose result is dropped. -/
  | call (returnType : Ty) (callee : String) (arguments : List Argument)
  /-- Goes on at one of two labels. -/
  | branch (condition : Argument) (positive negative : Local)
  /-- Goes on at a label. -/
  | jump (target : Local)
  /-- Leaves the procedure. -/
  | ret (value : Option Argument)
deriving DecidableEq, Repr

namespace Instruction

def isTerminator : Instruction → Bool
  | .branch .. | .jump _ | .ret _ => true
  | _ => false

/-- The labels an instruction may go on at. -/
def successors : Instruction → List Local
  | .branch _ positive negative => [positive, negative]
  | .jump target => [target]
  | _ => []

def defined? : Instruction → Option Local
  | .label id => some id
  | .set destination _ => some destination
  | _ => none

end Instruction

abbrev Code := List Instruction

/-- The emitted name of the byte copy: destination, source, length, and a flag nothing depends on. -/
def memcpy : String := "llvm.memcpy.p0i8.p0i8.i64"

/-- A structure with the types of its fields. -/
structure StructDeclaration where
  name : String
  fields : List Ty
deriving DecidableEq, Repr

/-- A run of instructions with a single entry, and the labels of the blocks that may lead to it, ascending. -/
structure Block where
  label : Local
  instructions : Code
  predecessors : List Local := []
deriving DecidableEq, Repr

namespace Block

def last? (b : Block) : Option Instruction := b.instructions.getLast?

def returns (b : Block) : Bool :=
  match b.last? with
  | some (.ret _) => true
  | _ => false

/-- The labels of the blocks a block may lead to. -/
def successors (b : Block) : List Local :=
  match b.last? with
  | some i => i.successors
  | none => []

end Block

/-- A procedure. External ones have no blocks. -/
structure Procedure where
  name : String
  returnType : Ty
  parameters : List Argument
  external : Bool := false
  blocks : List Block
deriving DecidableEq, Repr

namespace Procedure

def block? (p : Procedure) (label : Local) : Option Block :=
  p.blocks.find? fun b => b.label == label

/-- All instructions, labels left out. -/
def instructions (p : Procedure) : Code := p.blocks.flatMap Block.instructions

/-- The values that registers are set to, in order. -/
def values (p : Procedure) : List Value :=
  p.instructions.filterMap fun
    | .set _ value => some value
    | _ => none

def localCount (p : Procedure) : Nat :=
  p.parameters.length + p.blocks.length + p.values.length

end Procedure

/-- Structures and procedures. -/
structure Module where
  structures : List StructDeclaration := []
  procedures : List Procedure := []
deriving DecidableEq, Repr

namespace Module

def procedure? (m : Module) (name : String) : Option Procedure :=
  m.procedures.find? fun p => p.name == name

def structure? (m : Module) (name : String) : Option StructDeclaration :=
  m.structures.find? fun s => s.name == name

end Module

end Lowering.IR
