import Mathlib.Algebra.Order.Ring.Nat
import Lowering.Body.Scope
import Lowering.Machine.Scalar
/-!
# Values of the language, and what can be done with them

Nothing here knows of registers, addresses or bytes. An integer is a mathematical integer in the range of its type,
arithmetic is that of the integers brought back into the range, and a structure is the list of the values of its fields.
Every value knows its type, so an operation that makes no sense on its operands is noticed (`Stop.stuck`).
-/

namespace Lowering

namespace Primitive

/-- An integer brought into the range of a type, by dropping all but the low bits. -/
def wrap (kind : Primitive) (n : Int) : Int :=
  if kind.isSigned then n.bmod (2 ^ kind.bits) else n % ((2 ^ kind.bits : Nat) : Int)

/-- A number at the precision of a type. -/
def rounded (kind : Primitive) (x : Binary64) : Binary64 := if kind = .f32 then x.narrow else x

end Primitive

/-- Whether a comparison holds of two values that are equal, the first one less, or the second one less. -/
def CompareOperator.holds (operator : CompareOperator) (equal less greater : Bool) : Bool :=
  match operator with
  | .equal => equal
  | .notEqual => !equal
  | .greater => greater
  | .greaterEqual => greater || equal
  | .less => less
  | .lessEqual => less || equal

namespace Meaning

/-- Why an evaluation comes to no value. -/
inductive Stop where
  /-- The program fails. -/
  | fails (e : EvalError)
  /-- The program makes no sense. -/
  | stuck
deriving DecidableEq, Repr

/-- A value. -/
inductive Value where
  | integer (kind : Primitive) (n : Int)
  | float (kind : Primitive) (x : Binary64)
  | boolean (b : Bool)
  | struct (ref : StructureRef) (fields : List Value)

namespace Value

def ty : Value → TypeRef
  | integer kind _ => .primitive kind
  | float kind _ => .primitive kind
  | boolean _ => .primitive .bool
  | struct ref _ => ⟨.struct ref, 1⟩

def isStruct : Value → Bool
  | struct _ _ => true
  | _ => false

end Value

/-! ### Operations -/

def integerArithmetic (operator : ArithmeticOperator) (kind : Primitive) (a b : Int) : Except Stop Int :=
  match operator with
  | .add => .ok (kind.wrap (a + b))
  | .subtract => .ok (kind.wrap (a - b))
  | .multiply => .ok (kind.wrap (a * b))
  | .divide => if b = 0 then .error (.fails .divisionByZero) else .ok (kind.wrap (a.tdiv b))
  | .remainder => if b = 0 then .error (.fails .divisionByZero) else .ok (kind.wrap (a.tmod b))

def floatArithmetic (operator : ArithmeticOperator) (kind : Primitive) (x y : Binary64) : Binary64 :=
  kind.rounded <|
    match operator with
    | .add => x.add y
    | .subtract => x.sub y
    | .multiply => x.mul y
    | .divide => x.div y
    | .remainder => x.rem y

def arithmetic (operator : ArithmeticOperator) : Value → Value → Except Stop Value
  | .integer kind a, .integer kind' b =>
    if kind = kind' ∧ kind.isNumeric then .integer kind <$> integerArithmetic operator kind a b else .error .stuck
  | .float kind x, .float kind' y =>
    if kind = kind' then .ok (.float kind (floatArithmetic operator kind x y)) else .error .stuck
  | _, _ => .error .stuck

/-- A comparison of two values of one type. Truth values are equal or not, and that is all. -/
def comparison (operator : CompareOperator) : Value → Value → Except Stop Value
  | .integer kind a, .integer kind' b =>
    if kind = kind' ∧ kind.isNumeric then .ok (.boolean (operator.holds (a == b) (decide (a < b)) (decide (b < a))))
    else .error .stuck
  | .float kind x, .float kind' y =>
    if kind = kind' then .ok (.boolean (operator.holds (x.equal y) (x.less y) (y.less x))) else .error .stuck
  | .boolean a, .boolean b =>
    match operator with
    | .equal => .ok (.boolean (a == b))
    | .notEqual => .ok (.boolean (a != b))
    | _ => .error .stuck
  | _, _ => .error .stuck

def logical (operator : LogicalOperator) : Value → Value → Except Stop Value
  | .boolean a, .boolean b =>
    match operator with
    | .and => .ok (.boolean (a && b))
    | .or => .ok (.boolean (a || b))
  | _, _ => .error .stuck

def negation : Value → Except Stop Value
  | .boolean b => .ok (.boolean (!b))
  | _ => .error .stuck

/-- A number cut off to an integer of 64 bits; one that is too large gives the nearest one there is. -/
def integerOf (target : Primitive) (x : Binary64) : Int :=
  if target.isSigned then x.toIntWithin (-0x8000000000000000) 0x7fffffffffffffff
  else x.toIntWithin 0 0xffffffffffffffff

def conversion (target : Primitive) : Value → Except Stop Value
  | .integer _ n =>
    if target.category = .float then .ok (.float target (target.rounded (.ofInt n)))
    else .ok (.integer target (target.wrap n))
  | .float _ x =>
    if target.category = .float then .ok (.float target (target.rounded x))
    else .ok (.integer target (target.wrap (integerOf target x)))
  | _ => .error .stuck

/-! ### Structures -/

/-- The value that all bytes being zero stands for, for structures inside each other at most `nesting` deep. -/
def blank (c : Catalog) : (nesting : Nat) → TypeRef → Option Value
  | 0, _ => none
  | nesting + 1, t =>
    match t.linear?, t.primitive? with
    | some ref, _ => do
      let layout ← c.layout? ref
      let fields ← layout.fields.mapM fun f => blank c nesting f.ty
      return .struct ref fields
    | none, some kind =>
      match kind.category with
      | .int | .string => some (.integer kind 0)
      | .float => some (.float kind .zero)
      | .bool => some (.boolean false)
      | .void => none
    | none, none => none

/-- The position of the field that an access means. -/
def fieldIndex (c : Catalog) (ref : StructureRef) (access : Access) : Option Nat := do
  let key ← (FieldKey.ofAccess access).toOption
  let layout ← c.layout? ref
  let (index, _) ← key.lookup layout
  return index

/-- The value that accesses lead to. -/
def Value.at? (c : Catalog) : Value → List Access → Option Value
  | v, [] => some v
  | .struct ref fields, access :: rest => do
    let index ← fieldIndex c ref access
    let field ← fields[index]?
    field.at? c rest
  | _, _ :: _ => none

/-- A value with a new part where accesses lead to. -/
def Value.put? (c : Catalog) : Value → List Access → (new : Value) → Option Value
  | _, [], new => some new
  | .struct ref fields, access :: rest, new => do
    let index ← fieldIndex c ref access
    let field ← fields[index]?
    let field ← field.put? c rest new
    return .struct ref (fields.set index field)
  | _, _ :: _, _ => none

end Meaning

end Lowering
