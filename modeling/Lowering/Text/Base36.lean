/-!
# Lowering.Text.Base36

Numerals in base 36, written with the digits `0`-`9` and `a`-`z`. They keep the numbers inside emitted
names short: the file a name comes from and its position among its equals.
-/

namespace Lowering.Base36

/-- The character of one digit. Values from 36 on do not occur as digits. -/
def digit (value : Nat) : Char :=
  Char.ofNat (if value < 10 then '0'.toNat + value else 'a'.toNat + (value - 10))

/-- The digits of `n`, most significant first, put in front of `rest`. Each round drops one digit of `n`,
so `n + 1` rounds are enough. -/
def digitsAux : Nat → Nat → List Char → List Char
  | 0, _, rest => rest
  | rounds + 1, n, rest =>
    let rest := digit (n % 36) :: rest
    if n / 36 = 0 then rest else digitsAux rounds (n / 36) rest

/-- The digits of `n`, most significant first. -/
def digits (n : Nat) : List Char :=
  digitsAux (n + 1) n []

def numeral (n : Nat) : String :=
  String.ofList (digits n)

end Lowering.Base36
