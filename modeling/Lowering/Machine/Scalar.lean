import Lowering.Binary64.Arith
import Lowering.IR.Basic
import Lowering.Machine.Word
/-!
# What a register holds, how running can fail, and the operations on register values

Integers and addresses are words, floats are double precision numbers whatever the width of their type. An operation
that expects the other kind of scalar takes its bits.
-/

namespace Lowering

/-- The value of a register. -/
inductive Scalar where
  | int (word : UInt64)
  | float (x : Binary64)
deriving DecidableEq, Repr

namespace Scalar

def word : Scalar → UInt64
  | .int w => w
  | .float x => x.bits

def number : Scalar → Binary64
  | .int w => ⟨w⟩
  | .float x => x

def ofBool (b : Bool) : Scalar := .int (if b then 1 else 0)

end Scalar

/-- Why code stops without an answer. -/
inductive EvalError where
  | unknownProcedure (name : String)
  | external (name : String)
  | argumentCount (name : String) (expected found : Nat)
  /-- A register is read that was never set. -/
  | undefinedRegister (id : IR.Local)
  | unknownLabel (label : IR.Local)
  | unterminatedBlock (label : IR.Local)
  /-- A phi does not name the block control came from. -/
  | missingPhiSource
  | divisionByZero
  | outOfBounds (address : UInt64) (size : Nat)
  | outOfMemory
  | stepLimit
  | callDepth
  | unsupportedType (ty : IR.Ty)
  /-- A size or an address leaves 64 bits, or an integer wider than a word is stored: the machine itself breaks. -/
  | trap
deriving DecidableEq, Repr

/-- How many bits of a word an integer of a type takes. -/
def wordBits (ty : IR.Ty) : Nat :=
  match ty.pointer, ty.base with
  | 0, .int bits => bits
  | _, _ => 64

/-- A number rounded to the precision of the type it is meant for. -/
def roundTo (ty : IR.Ty) (x : Binary64) : Binary64 :=
  match ty.base with
  | .float 32 => x.narrow
  | _ => x

def floatBinary (operator : IR.BinaryOperator) (ty : IR.Ty) (a b : Binary64) : Except EvalError Binary64 :=
  match operator with
  | .add => .ok (a.add b)
  | .sub => .ok (a.sub b)
  | .mul => .ok (a.mul b)
  | .div => .ok (a.div b)
  | .rem => .ok (a.rem b)
  | .and | .or | .xor => .error (.unsupportedType ty)

/-- An operation on integers of so many bits. -/
def wordBinary (operator : IR.BinaryOperator) (signed : Bool) (bits : Nat) (a b : UInt64) :
    Except EvalError UInt64 :=
  let quotient (onSigned : Int64 → Int64 → Int64) (onUnsigned : UInt64 → UInt64 → UInt64) : Except EvalError UInt64 :=
    if Word.mask bits b = 0 then .error .divisionByZero
    else if signed then .ok (Word.mask bits (onSigned (Word.signed bits a) (Word.signed bits b)).toUInt64)
    else .ok (Word.mask bits (onUnsigned (Word.mask bits a) (Word.mask bits b)))
  match operator with
  | .add => .ok (Word.mask bits (a + b))
  | .sub => .ok (Word.mask bits (a - b))
  | .mul => .ok (Word.mask bits (a * b))
  | .div => quotient (· / ·) (· / ·)
  | .rem => quotient (· % ·) (· % ·)
  | .and => .ok (Word.mask bits (a &&& b))
  | .or => .ok (Word.mask bits (a ||| b))
  | .xor => .ok (Word.mask bits (a ^^^ b))

def evalBinary (operator : IR.BinaryOperator) (mode : IR.NumericMode) (ty : IR.Ty) (a b : Scalar) :
    Except EvalError Scalar :=
  match mode with
  | .float => (fun x => .float (roundTo ty x)) <$> floatBinary operator ty a.number b.number
  | .signed => .int <$> wordBinary operator true (wordBits ty) a.word b.word
  | .unsigned => .int <$> wordBinary operator false (wordBits ty) a.word b.word

/-- Whether a comparison of two scalars of a type holds. -/
def evalCompare (predicate : IR.Predicate) (ty : IR.Ty) (a b : Scalar) : Bool :=
  let bits := wordBits ty
  let (ua, ub) := (Word.mask bits a.word, Word.mask bits b.word)
  let (sa, sb) := (Word.signed bits ua, Word.signed bits ub)
  let (fa, fb) := (a.number, b.number)
  match predicate with
  | .eq => ua == ub
  | .ne => ua != ub
  | .sgt => decide (sb < sa)
  | .sge => decide (sb ≤ sa)
  | .slt => decide (sa < sb)
  | .sle => decide (sa ≤ sb)
  | .ugt => decide (ub < ua)
  | .uge => decide (ub ≤ ua)
  | .ult => decide (ua < ub)
  | .ule => decide (ua ≤ ub)
  | .oeq => fa.equal fb
  | .une => !fa.equal fb
  | .ogt => fb.less fa
  | .oge => fb.less fa || fa.equal fb
  | .olt => fa.less fb
  | .ole => fa.less fb || fa.equal fb

/-- A scalar converted from one type to another. Floats that do not fit an integer go to its nearest end, a NaN to
zero. -/
def evalConvert (conversion : IR.Conversion) (source target : IR.Ty) (a : Scalar) : Scalar :=
  let (bits, targetBits) := (wordBits source, wordBits target)
  match conversion with
  | .trunc | .zext => .int (Word.mask targetBits a.word)
  | .sext => .int (Word.mask targetBits (Word.signed bits a.word).toUInt64)
  | .fptrunc | .fpext => .float (roundTo target a.number)
  | .sitofp => .float (roundTo target (.ofInt (Word.signed bits a.word).toInt))
  | .uitofp => .float (roundTo target (.ofInt (Word.mask bits a.word).toNat))
  | .fptosi =>
    .int (Word.mask targetBits (UInt64.ofInt (a.number.toIntWithin (-0x8000000000000000) 0x7fffffffffffffff)))
  | .fptoui => .int (Word.mask targetBits (UInt64.ofInt (a.number.toIntWithin 0 0xffffffffffffffff)))

end Lowering
