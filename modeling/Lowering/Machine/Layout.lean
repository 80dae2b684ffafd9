import Lowering.Machine.Memory
/-!
# How values of a type lie in memory

Aggregates are packed: fields and elements follow each other without gaps.
-/

namespace Lowering

open IR (Ty Base Module)

def totalSize (sizeOf : Ty → Except EvalError Nat) : Nat → List Ty → Except EvalError Nat
  | total, [] => .ok total
  | total, ty :: rest => do
    let size ← sizeOf ty
    let total ← Memory.fit (total + size)
    totalSize sizeOf total rest

/-- The size of a base type, given the sizes of structures. -/
def baseSize (structSize : String → Except EvalError Nat) : Base → Except EvalError Nat
  | .void => .ok 0
  | .int bits | .float bits => .ok ((bits + 7) / 8)
  | .struct name => structSize name
  | .array length element => do
    let size ← baseSize structSize element
    Memory.fit (length * size)

/-- The size of a type, given the sizes of structures. -/
def typeSize (structSize : String → Except EvalError Nat) (ty : Ty) : Except EvalError Nat :=
  if ty.pointer = 0 then baseSize structSize ty.base else .ok 8

/-- The size of a structure whose fields hold structures at most `nesting` deep. -/
def structSize (m : Module) : (nesting : Nat) → String → Except EvalError Nat
  | 0, _ => .error .trap
  | nesting + 1, name =>
    match m.structure? name with
    | none => .error (.unsupportedType ⟨.struct name, 0⟩)
    | some s => totalSize (typeSize (structSize m nesting)) 0 s.fields

/-- The bytes a value of a type takes. A chain of structures longer than there are structures in the module goes
round in a circle, and then there is no size. -/
def sizeOf (m : Module) (ty : Ty) : Except EvalError Nat :=
  typeSize (structSize m (m.structures.length + 1)) ty

/-- The offset and the type of an element of an aggregate. -/
def elementAt (m : Module) (ty : Ty) (index : Int64) : Except EvalError (Nat × Ty) :=
  match ty.pointer, ty.base with
  | 0, .struct name =>
    match m.structure? name with
    | none => .error (.unsupportedType ty)
    | some s =>
      if index < 0 then .error (.unsupportedType ty)
      else
        let position := index.toInt.toNat
        match s.fields[position]? with
        | none => .error (.unsupportedType ty)
        | some field => (·, field) <$> totalSize (sizeOf m) 0 (s.fields.take position)
  | 0, .array _ element => do
    let size ← sizeOf m ⟨element, 0⟩
    let offset ← Memory.fit (index.toUInt64.toNat * size)
    return (offset, ⟨element, 0⟩)
  | _, _ => .error (.unsupportedType ty)

def loadScalar (m : Module) (memory : Memory) (ty : Ty) (address : UInt64) : Except EvalError Scalar := do
  let size ← sizeOf m ty
  if 8 < size then
    throw (.unsupportedType ty)
  let word := Word.ofBytes (← memory.read address size)
  match ty.pointer, ty.base with
  | 0, .float 32 => return .float (.ofSingle word.toUInt32)
  | 0, .float _ => return .float ⟨word⟩
  | 0, .int _ => return .int word
  | _ + 1, _ => return .int word
  | 0, _ => throw (.unsupportedType ty)

/-- The word that stands for a scalar in memory. -/
def storedWord (ty : Ty) (value : Scalar) : Except EvalError UInt64 :=
  match ty.pointer, ty.base with
  | 0, .float 32 => .ok value.number.toSingle.toUInt64
  | 0, .float _ => .ok value.number.bits
  | 0, .int _ => .ok value.word
  | _ + 1, _ => .ok value.word
  | 0, _ => .error (.unsupportedType ty)

def storeScalar (m : Module) (ty : Ty) (address : UInt64) (value : Scalar) : Effect Unit := do
  let size ← sizeOf m ty
  let word ← storedWord ty value
  (← get).check address size
  if 8 < size then
    throw .trap
  Effect.write address (Word.toBytes size word)

/-- Goes into an aggregate, index by index. -/
def descend (m : Module) (address : UInt64) (ty : Ty) : List (Except EvalError Int64) → Except EvalError UInt64
  | [] => .ok address
  | index :: rest => do
    let (offset, element) ← elementAt m ty (← index)
    let target ← Memory.fit (address.toNat + offset)
    descend m (UInt64.ofNat target) element rest

/-- The address that indices lead to from the address of a value of a type. The first index moves in steps of whole
values, each further one goes into an aggregate. An index without a value fails when its turn comes. -/
def elementAddress (m : Module) (address : UInt64) (pointee : Ty) :
    List (Except EvalError Int64) → Except EvalError UInt64
  | [] => .ok address
  | first :: rest => do
    let index ← first
    let size ← sizeOf m pointee
    let distance := index.toInt * (UInt64.ofNat size).toInt64.toInt
    if distance < -0x8000000000000000 ∨ 0x8000000000000000 ≤ distance then
      throw .trap
    descend m (address + UInt64.ofInt distance) pointee rest

end Lowering
