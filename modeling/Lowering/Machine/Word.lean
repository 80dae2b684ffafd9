/-!
# Integers of any width up to 64 bits, held in 64-bit words

The bits above the width of an integer are junk until `mask` clears them or `signed` copies the sign bit into them.
Words go to memory least significant byte first.
-/

namespace Lowering.Word

def mask (bits : Nat) (w : UInt64) : UInt64 :=
  if 64 ≤ bits then w else w &&& (((1 : UInt64) <<< UInt64.ofNat bits) - 1)

/-- The low `bits` bits of a word as a signed integer. -/
def signed (bits : Nat) (w : UInt64) : Int64 :=
  if 64 ≤ bits then w.toInt64
  else if bits = 0 then 0
  else
    let unused := UInt64.ofNat (64 - bits)
    (w <<< unused).toInt64 >>> unused.toInt64

def toBytes : Nat → UInt64 → List UInt8
  | 0, _ => []
  | count + 1, w => w.toUInt8 :: toBytes count (w >>> 8)

@[simp] theorem length_toBytes (count : Nat) (w : UInt64) : (toBytes count w).length = count := by
  induction count generalizing w with
  | zero => rfl
  | succ count ih => simp [toBytes, ih]

def ofBytes : List UInt8 → UInt64
  | [] => 0
  | b :: rest => b.toUInt64 ||| (ofBytes rest <<< 8)

end Lowering.Word
