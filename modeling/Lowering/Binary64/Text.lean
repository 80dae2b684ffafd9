import Lowering.Binary64.Shortest
/-!
# Lowering.Binary64.Text

How numbers are written in code, in messages and in results: the shortest decimal that reads back, laid out by
the record `FloatLayout.standard`.
-/

namespace Lowering

/-- Where positional writing ends: it is used for numbers whose leading digit has an exponent from `first` up to,
but not including, `last`. Other numbers are written with an exponent. -/
structure FloatLayout where
  first : Int
  last : Int

namespace FloatLayout

/-- Positional from one ten-thousandth up to, but not including, ten to the sixteenth. -/
def standard : FloatLayout := ⟨-4, 16⟩

/-- Digits with a point after the first `whole` of them and at least one digit behind the point. -/
def positional (digits : List Char) (whole : Int) : List Char :=
  if whole ≤ 0 then
    ['0', '.'] ++ List.replicate (-whole).toNat '0' ++ digits
  else
    let whole := whole.toNat
    let front := digits.take whole ++ List.replicate (whole - digits.length) '0'
    let back := digits.drop whole
    front ++ ['.'] ++ if back.isEmpty then ['0'] else back

/-- One digit, a point and the other digits if there are any, then the exponent of the first digit. -/
def scientific (digits : List Char) (exponent : Int) : List Char :=
  digits.take 1 ++ (if digits.length ≤ 1 then [] else '.' :: digits.drop 1) ++ 'e' :: (toString exponent).toList

/-- A decimal, laid out. -/
def write (layout : FloatLayout) (d : Decimal) : List Char :=
  let digits := (toString d.digits).toList
  let leading : Int := d.exponent + digits.length - 1
  if layout.first ≤ leading ∧ leading < layout.last then positional digits (leading + 1)
  else scientific digits leading

end FloatLayout

def Binary64.text (x : Binary64) : String :=
  match x.datum with
  | .nan => "NaN"
  | .infinite true => "-inf"
  | .infinite false => "inf"
  | .finite negative significand power =>
    let sign := if negative then ['-'] else []
    let size :=
      if significand = 0 then ['0', '.', '0']
      else FloatLayout.standard.write (Decimal.targetOf significand power).shortest
    String.ofList (sign ++ size)

end Lowering
