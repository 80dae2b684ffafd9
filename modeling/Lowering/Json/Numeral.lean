import Lowering.Binary64.Arith
import Lowering.Json.Basic
/-!
# From the digits of a number to its value

A number without point and exponent that fits a 64-bit word is an integer. Any other number is read as a word-sized
significand times a power of ten: digits beyond the word are dropped, whole ones counting as powers of ten, and the
significand is then multiplied or divided by that power in double precision. A result beyond the largest finite
number is out of range.
-/

namespace Lowering.Json

/-- The parts of a number in a text. -/
structure Numeral where
  /-- A minus sign stands in front. -/
  minus : Bool
  /-- The digits before the point. -/
  whole : List Nat
  /-- The digits behind the point, if there is one. -/
  fraction : Option (List Nat)
  /-- Sign and digits of the exponent, if there is one. -/
  exponent : Option (Bool × List Nat)
deriving DecidableEq, Repr

namespace Numeral

/-- The largest significand. -/
def wordMax : Nat := 0xffffffffffffffff

def exponentMax : Nat := 0x7fffffff

def exponentMin : Int := -0x80000000

/-- Appends digits to a number as long as it stays within `limit`; gives the number and the digits left over. -/
def absorb (limit : Nat) : Nat → List Nat → Nat × List Nat
  | n, [] => (n, [])
  | n, d :: rest => if limit < n * 10 + d then (n, d :: rest) else absorb limit (n * 10 + d) rest

def powerOfTen (k : Nat) : Binary64 := .ofRatio false (Nat.pow 10 k) 1 0

/-- The largest exponent of a finite power of ten. -/
def tenMax : Nat := 308

/-- `x` times ten to the `exponent`, by one multiplication or by divisions; none if it is not finite. After three
divisions by the largest power of ten nothing but zero is left. -/
def shifted : Nat → Binary64 → Int → Option Binary64
  | rounds, x, exponent =>
    if exponent.natAbs ≤ tenMax then
      if 0 ≤ exponent then
        let y := x.mul (powerOfTen exponent.toNat)
        if y.isInfinite then none else some y
      else some (x.div (powerOfTen exponent.natAbs))
    else if x.equal .zero then some x
    else if 0 ≤ exponent then none
    else
      match rounds with
      | 0 => some x
      | rounds + 1 => shifted rounds (x.div (powerOfTen tenMax)) (exponent + tenMax)

def signed (minus : Bool) (x : Binary64) : Binary64 := if minus then x.neg else x

/-- The double precision value, given the significand and the power of ten its digits have left. -/
def scaled (n : Numeral) (significand : Nat) (start : Int) : Option Binary64 :=
  let base := Binary64.ofInt significand
  match n.exponent with
  | none => (shifted 4 base start).map (signed n.minus)
  | some (down, digits) =>
    match absorb exponentMax 0 digits with
    | (e, []) =>
      let power := if down then max exponentMin (start - e) else min exponentMax (start + e)
      (shifted 4 base power).map (signed n.minus)
    | _ => if significand ≠ 0 ∧ !down then none else some (signed n.minus .zero)

/-- The value of a numeral; none if it is out of range. -/
def value (n : Numeral) : Option Number :=
  let (significand, dropped) := absorb wordMax 0 n.whole
  match n.fraction, n.exponent, dropped with
  | none, none, [] =>
    if !n.minus then some (.natural (.ofNat significand))
    else if significand = 0 ∨ 0x8000000000000000 < significand then some (.float (Binary64.ofInt significand).neg)
    else some (.ofInt64 (.ofInt (-significand)))
  | none, _, _ => (n.scaled significand dropped.length).map .float
  | some fraction, _, _ =>
    let (full, unread) := absorb wordMax significand fraction
    let used : Int := fraction.length - unread.length
    (n.scaled full (dropped.length - used)).map .float

end Numeral

end Lowering.Json
