import Lowering.Binary64.Basic
/-!
# The shortest decimal that reads back as a given number

All reals closer to a number than to its neighbours round to it; they form an interval, and its ends belong to
it when the significand is even. Among the decimals in that interval the one with the fewest digits is taken,
and of two with equally few the closer one. The search tries 1, 2, … digits; on each decimal grid only the two
points next to the number matter, because the interval contains the number itself.
-/

namespace Lowering

/-- The number `digits * 10 ^ exponent`. -/
structure Decimal where
  digits : Nat
  exponent : Int
deriving DecidableEq, Repr

namespace Decimal

/-- Drops trailing zeros, at most `rounds` of them. -/
def trim : Nat → Decimal → Decimal
  | 0, d => d
  | rounds + 1, d =>
    if d.digits ≠ 0 ∧ d.digits % 10 = 0 then trim rounds ⟨d.digits / 10, d.exponent + 1⟩ else d

/-- A positive number `significand * 2 ^ power` together with how far the reals reach that round to it, in
quarters of `2 ^ power`: `below` quarters down and two quarters up. -/
structure Target where
  significand : Nat
  power : Int
  below : Nat
deriving DecidableEq, Repr

namespace Target

/-- The factors `(g, den)` with `significand * g / den` the number in units of `10 ^ unit`. -/
def factors (t : Target) (unit : Int) : Nat × Nat :=
  ((if 0 ≤ t.power then Nat.pow 2 t.power.toNat else 1) * (if unit < 0 then Nat.pow 10 (-unit).toNat else 1),
   (if t.power < 0 then Nat.pow 2 (-t.power).toNat else 1) * (if 0 ≤ unit then Nat.pow 10 unit.toNat else 1))

/-- Whether `10 ^ exponent` is at most the number. -/
def reaches (t : Target) (exponent : Int) : Bool :=
  let (g, den) := t.factors exponent
  decide (den ≤ t.significand * g)

/-- Raises a decimal exponent as long as the number reaches the next one. -/
def climb (t : Target) : Nat → Int → Int
  | 0, e => e
  | rounds + 1, e => if t.reaches (e + 1) then climb t rounds (e + 1) else e

/-- The exponent of the leading decimal digit. The binary logarithm times 0.301 is short of it by at most
three. -/
def leading (t : Target) : Int :=
  let binary : Int := (t.significand.log2 : Int) + t.power
  t.climb 4 ((binary * 1233).fdiv 4096 - 2)

/-- The multiple of `10 ^ unit` to write for the number, if one of its two neighbours on that grid rounds to it.
Of two such neighbours the closer one is taken, and the upper one when both are equally close. -/
def onGrid (t : Target) (unit : Int) : Option Nat :=
  let (g, den) := t.factors unit
  let num := t.significand * g
  let down := num / den
  let closed := t.significand % 2 = 0
  let low := (4 * t.significand - t.below) * g
  let high := (4 * t.significand + 2) * g
  let downFits := decide (low < 4 * down * den) || closed && low == 4 * down * den
  let upFits := decide (4 * (down + 1) * den < high) || closed && 4 * (down + 1) * den == high
  if downFits && (!upFits || decide (2 * num < (2 * down + 1) * den)) then some down
  else if upFits then some (down + 1)
  else none

/-- The first hit on the grids with `count`, `count + 1`, … digits. -/
def search (t : Target) (leading : Int) : Nat → Nat → Decimal
  | 0, count => ⟨t.significand * (t.factors (leading - count)).1 / (t.factors (leading - count)).2, leading - count⟩
  | rounds + 1, count =>
    match t.onGrid (leading - count + 1) with
    | some digits => trim 18 ⟨digits, leading - count + 1⟩
    | none => search t leading rounds (count + 1)

/-- The shortest decimal that rounds to the number; seventeen digits are always enough. -/
def shortest (t : Target) : Decimal :=
  t.search t.leading 17 1

end Target

/-- The target of a double precision number with the given significand and power. Below a power of two the
neighbours are twice as dense, unless the exponent is already the least. -/
def targetOf (significand : Nat) (power : Int) : Target :=
  let dense := significand = Format.double.binade ∧ power ≠ Format.double.least
  ⟨significand, power, if dense then 1 else 2⟩

end Decimal

end Lowering
