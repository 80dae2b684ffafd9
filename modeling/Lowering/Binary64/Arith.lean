import Lowering.Binary64.Basic
/-!
# Lowering.Binary64.Arith

The five arithmetic operations on double precision numbers and the conversions between them, integers and
single precision numbers. Each operation computes the exact result and rounds it once.

A NaN operand is the result, made quiet, the left one before the right one; an operation without a meaning
gives `Binary64.invalid`.
-/

namespace Lowering.Binary64

/-- The result when an operand is a NaN, otherwise `result`. -/
def ifNumbers (x y result : Binary64) : Binary64 :=
  if x.isNaN then x.quiet else if y.isNaN then y.quiet else result

/-- `significand * 2 ^ power` with its sign, in units of `2 ^ unit`, for `unit ≤ power`. -/
def inUnits (negative : Bool) (significand : Nat) (power unit : Int) : Int :=
  let size : Int := (significand * Nat.pow 2 (power - unit).toNat : Nat)
  if negative then -size else size

/-- The sum. Two equal magnitudes of opposite sign give positive zero. -/
def add (x y : Binary64) : Binary64 :=
  ifNumbers x y <|
    match x.datum, y.datum with
    | .infinite a, .infinite b => if a = b then x else invalid
    | .infinite _, _ => x
    | _, .infinite _ => y
    | .finite a m p, .finite b n q =>
      let unit := min p q
      let sum := inUnits a m p unit + inUnits b n q unit
      if sum = 0 then ofMagnitude (a && b) 0
      else ofRatio (decide (sum < 0)) sum.natAbs 1 unit
    | _, _ => invalid

def sub (x y : Binary64) : Binary64 :=
  ifNumbers x y (add x y.neg)

def mul (x y : Binary64) : Binary64 :=
  ifNumbers x y <|
    match x.datum, y.datum with
    | .infinite a, .infinite b => infinity (a != b)
    | .infinite a, .finite b n _ => if n = 0 then invalid else infinity (a != b)
    | .finite a m _, .infinite b => if m = 0 then invalid else infinity (a != b)
    | .finite a m p, .finite b n q => ofRatio (a != b) (m * n) 1 (p + q)
    | _, _ => invalid

/-- The quotient. A number other than zero over zero is infinite. -/
def div (x y : Binary64) : Binary64 :=
  ifNumbers x y <|
    match x.datum, y.datum with
    | .infinite _, .infinite _ => invalid
    | .infinite a, .finite b _ _ => infinity (a != b)
    | .finite a _ _, .infinite b => ofMagnitude (a != b) 0
    | .finite a m p, .finite b n q =>
      if n = 0 then (if m = 0 then invalid else infinity (a != b))
      else ofRatio (a != b) m n (p - q)
    | _, _ => invalid

/-- The remainder of the quotient cut off to an integer; it is exact and has the sign of `x`. -/
def rem (x y : Binary64) : Binary64 :=
  ifNumbers x y <|
    match x.datum, y.datum with
    | .infinite _, _ => invalid
    | _, .infinite _ => x
    | .finite a m p, .finite _ n q =>
      if n = 0 then invalid
      else
        let unit := min p q
        let left := (inUnits false m p unit).toNat
        let right := (inUnits false n q unit).toNat
        ofRatio a (left % right) 1 unit
    | _, _ => invalid

/-! ### Integers -/

def ofInt (n : Int) : Binary64 :=
  ofRatio (decide (n < 0)) n.natAbs 1 0

/-- The number cut off to an integer and then held between `low` and `high`; a NaN gives zero. -/
def toIntWithin (low high : Int) (x : Binary64) : Int :=
  match x.datum with
  | .nan => 0
  | .infinite true => low
  | .infinite false => high
  | .finite negative significand power =>
    let (n, d) := Format.scale significand 1 power 0
    let size : Int := (n / d : Nat)
    max low (min high (if negative then -size else size))

/-! ### Single precision -/

/-- How many fraction bits double precision has beyond single precision. -/
def extraBits : Nat := Format.double.precision - Format.single.precision

def toSingle (x : Binary64) : UInt32 :=
  let sign := if x.negative then Format.single.signBit else 0
  let size :=
    match x.datum with
    | .nan =>
      let payload := x.quiet.magnitude % Format.double.binade
      Format.single.infinity + payload / Nat.pow 2 extraBits
    | .infinite _ => Format.single.infinity
    | .finite _ significand power => Format.single.round significand 1 power
  UInt32.ofNat (sign + size)

def ofSingle (pattern : UInt32) : Binary64 :=
  let negative := decide (Format.single.signBit ≤ pattern.toNat)
  match Format.single.datum pattern.toNat with
  | .nan =>
    let payload := pattern.toNat % Format.single.binade
    (ofMagnitude negative (Format.double.infinity + payload * Nat.pow 2 extraBits)).quiet
  | .infinite _ => infinity negative
  | .finite _ significand power => ofRatio negative significand 1 power

def narrow (x : Binary64) : Binary64 :=
  ofSingle x.toSingle

end Lowering.Binary64
