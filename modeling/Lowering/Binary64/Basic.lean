/-!
# Double precision numbers as bit patterns

A `Binary64` is a 64-bit word, nothing else: moving, storing and loading a number keeps every bit of it,
NaN payloads included. The meaning of a word is given by `Binary64.datum`, which splits it into sign,
significand and power of two. Everything here is exact integer arithmetic, so the kernel can evaluate it.

* `Format` describes a binary interchange format; `Format.double` and `Format.single` are the two in use.
* `Format.round` is the one place where rounding happens: to nearest, ties to even.
-/

namespace Lowering

/-- A binary interchange format: `precision` significand bits (the leading one included) and the power of two
`least` of the smallest positive number; the exponent field has `exponentBits` bits. -/
structure Format where
  precision : Nat
  exponentBits : Nat
  least : Int
deriving DecidableEq, Repr

namespace Format

/-- The 64-bit format. -/
def double : Format := ⟨53, 11, -1074⟩

/-- The 32-bit format. -/
def single : Format := ⟨24, 8, -149⟩

/-- How many bit patterns share one exponent. -/
def binade (f : Format) : Nat := Nat.pow 2 (f.precision - 1)

/-- The pattern of infinity, which is also the least pattern that is no finite magnitude. -/
def infinity (f : Format) : Nat := (Nat.pow 2 f.exponentBits - 1) * f.binade

def signBit (f : Format) : Nat := Nat.pow 2 f.exponentBits * f.binade

/-- The pattern bit that makes a NaN quiet. -/
def quietBit (f : Format) : Nat := f.binade / 2

/-- `num / den * 2 ^ power` measured in units of `2 ^ unit`, as a quotient. -/
def scale (num den : Nat) (power unit : Int) : Nat × Nat :=
  if unit ≤ power then (num * Nat.pow 2 (power - unit).toNat, den)
  else (num, den * Nat.pow 2 (unit - power).toNat)

/-- A quotient to the nearest integer, ties to the even one. -/
def nearest (num den : Nat) : Nat :=
  let q := num / den
  let r := num % den
  if 2 * r < den then q else if den < 2 * r then q + 1 else q + q % 2

/-- The unit in the last place of the positive number `num / den * 2 ^ power`: its significand takes the
whole precision, unless the number is so small that the unit is the least one. -/
def unitOf (f : Format) (num den : Nat) (power : Int) : Int :=
  let guess : Int := (num.log2 : Int) - den.log2 + power - f.precision
  let (n, d) := scale num den power guess
  let unit := if n / d < Nat.pow 2 f.precision then guess else guess + 1
  max unit f.least

/-- The magnitude pattern nearest to the positive number `num / den * 2 ^ power`. A significand that rounds
up to the next power of two carries into the exponent by plain addition. -/
def round (f : Format) (num den : Nat) (power : Int) : Nat :=
  if num = 0 then 0
  else
    let unit := f.unitOf num den power
    let (n, d) := scale num den power unit
    min f.infinity ((unit - f.least).toNat * f.binade + nearest n d)

end Format

/-- What a bit pattern stands for. -/
inductive Datum where
  /-- Not a number; the payload is kept by the pattern. -/
  | nan
  /-- An infinity. -/
  | infinite (negative : Bool)
  /-- The number `significand * 2 ^ power`, negated if `negative`. Zero has a sign too. -/
  | finite (negative : Bool) (significand : Nat) (power : Int)
deriving DecidableEq, Repr

def Format.datum (f : Format) (pattern : Nat) : Datum :=
  let negative := decide (f.signBit ≤ pattern)
  let magnitude := pattern % f.signBit
  if f.infinity < magnitude then .nan
  else if magnitude = f.infinity then .infinite negative
  else
    let exponent := magnitude / f.binade
    let fraction := magnitude % f.binade
    if exponent = 0 then .finite negative fraction f.least
    else .finite negative (f.binade + fraction) (f.least + (exponent - 1 : Nat))

/-- A double precision number, held as its bits. -/
structure Binary64 where
  bits : UInt64
deriving DecidableEq, Repr

instance : Inhabited Binary64 := ⟨⟨0⟩⟩

namespace Binary64

/-- The number with the given sign and magnitude pattern. -/
def ofMagnitude (negative : Bool) (magnitude : Nat) : Binary64 :=
  ⟨UInt64.ofNat ((if negative then Format.double.signBit else 0) + magnitude)⟩

/-- The number nearest to `num / den * 2 ^ power`, negated if `negative`. -/
def ofRatio (negative : Bool) (num den : Nat) (power : Int) : Binary64 :=
  ofMagnitude negative (Format.double.round num den power)

def datum (x : Binary64) : Datum :=
  Format.double.datum x.bits.toNat

def negative (x : Binary64) : Bool :=
  decide (Format.double.signBit ≤ x.bits.toNat)

def magnitude (x : Binary64) : Nat :=
  x.bits.toNat % Format.double.signBit

def isNaN (x : Binary64) : Bool :=
  decide (Format.double.infinity < x.magnitude)

def isInfinite (x : Binary64) : Bool :=
  x.magnitude == Format.double.infinity

def zero : Binary64 := ⟨0⟩

def infinity (negative : Bool) : Binary64 :=
  ofMagnitude negative Format.double.infinity

/-- The NaN that an invalid operation gives: quiet, with the sign bit set and an empty payload. -/
def invalid : Binary64 :=
  ofMagnitude true (Format.double.infinity + Format.double.quietBit)

def quiet (x : Binary64) : Binary64 :=
  ⟨x.bits ||| UInt64.ofNat Format.double.quietBit⟩

def neg (x : Binary64) : Binary64 :=
  ofMagnitude (!x.negative) x.magnitude

/-- The place of a number in the order of numbers; both zeros have the same place. -/
def place (x : Binary64) : Int :=
  if x.negative then -(x.magnitude : Int) else x.magnitude

/-- Numeric equality: the zeros are equal, a NaN equals nothing. -/
def equal (x y : Binary64) : Bool :=
  !x.isNaN && !y.isNaN && x.place == y.place

/-- Numeric order; a NaN is below nothing. -/
def less (x y : Binary64) : Bool :=
  !x.isNaN && !y.isNaN && decide (x.place < y.place)

end Binary64

end Lowering
