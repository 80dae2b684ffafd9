import Mathlib.Algebra.Order.Ring.Nat
import Lowering.Machine.Word
/-!
# Words as integers of a width

`mask` is reduction modulo a power of two, and `signed` is the balanced remainder; bytes that were taken off a word give
its low bits back. Everything else about integers in words follows from these by arithmetic.
-/

namespace Lowering.Word

theorem toNat_mask (bits : Nat) (w : UInt64) : (mask bits w).toNat = w.toNat % 2 ^ bits := by
  unfold mask
  split
  · next h =>
    exact (Nat.mod_eq_of_lt (w.toNat_lt.trans_le (Nat.pow_le_pow_right (by decide) h))).symm
  rename_i h
  have hbits : bits < 64 := Nat.lt_of_not_le h
  have hpow : 2 ^ bits < 2 ^ 64 := Nat.pow_lt_pow_right (by decide) hbits
  have hshift : ((1 : UInt64) <<< UInt64.ofNat bits).toNat = 2 ^ bits := by
    simp_all [Nat.mod_eq_of_lt hbits, Nat.one_shiftLeft]
  have hones : (((1 : UInt64) <<< UInt64.ofNat bits) - 1).toNat = 2 ^ bits - 1 := by
    rw [UInt64.toNat_sub_of_le, hshift]
    · rfl
    · rw [UInt64.le_iff_toNat_le, hshift]
      exact Nat.one_le_two_pow
  simp_all

/-- The signed reading is the balanced remainder. -/
theorem toInt_signed (hpos : 0 < bits) (hbits : bits ≤ 64) (w : UInt64) :
    (signed bits w).toInt = (w.toNat : Int).bmod (2 ^ bits) := by
  unfold signed
  split
  · next h =>
    obtain rfl : bits = 64 := by omega
    exact BitVec.toInt_eq_toNat_bmod _
  rename_i h
  rw [if_neg (by omega)]
  have hunused : ((UInt64.ofNat (64 - bits)).toBitVec % 64).toNat = 64 - bits := by
    have : ∀ k < 64, ((UInt64.ofNat k).toBitVec % 64).toNat = k := by decide
    exact this _ (by omega)
  have hunused' : ((UInt64.ofNat (64 - bits)).toBitVec.smod 64).toNat = 64 - bits := by
    have : ∀ k < 64, ((UInt64.ofNat k).toBitVec.smod 64).toNat = k := by decide
    exact this _ (by omega)
  have hsize : 2 ^ 64 = 2 ^ (64 - bits) * 2 ^ bits := by
    rw [← Nat.pow_add, Nat.sub_add_cancel hbits]
  have heven : 2 ∣ 2 ^ bits := ⟨2 ^ (bits - 1), by rw [Nat.mul_comm, Nat.two_pow_pred_mul_two hpos]⟩
  rw [← Int64.toInt_toBitVec, Int64.toBitVec_shiftRight]
  simp only [UInt64.toBitVec_toInt64, UInt64.toBitVec_shiftLeft, BitVec.toInt_sshiftRight', BitVec.shiftLeft_eq',
    hunused, hunused', BitVec.toInt_shiftLeft, Nat.shiftLeft_eq, Int.shiftRight_eq_div_pow]
  rw [hsize, Nat.mul_comm, Int.natCast_mul, Int.mod_bmod_mul_of_pos _ _ (Nat.two_pow_pos _) heven]
  exact Int.mul_ediv_cancel_left _ (Int.natCast_ne_zero.2 (Nat.ne_of_gt (Nat.two_pow_pos _)))

theorem toBytes_zero (count : Nat) : ∀ b ∈ toBytes count 0, b = 0 := by
  induction count with
  | zero => simp [toBytes]
  | succ count ih =>
    rw [toBytes, List.forall_mem_cons]
    exact ⟨rfl, ih⟩

/-- The low bytes of a word make up its low bits. -/
theorem toNat_ofBytes_toBytes (hcount : count ≤ 8) (w : UInt64) :
    (ofBytes (toBytes count w)).toNat = w.toNat % 2 ^ (8 * count) := by
  induction count generalizing w with
  | zero => simp [toBytes, ofBytes, Nat.mod_one]
  | succ count ih =>
    have hrest := ih (Nat.le_of_succ_le hcount) (w >>> 8)
    have hshift : (w >>> 8).toNat = w.toNat / 256 := by
      rw [UInt64.toNat_shiftRight, show (8 : UInt64).toNat % 64 = 8 from rfl, Nat.shiftRight_eq_div_pow]
    have hsmall : (w.toNat / 256) % 2 ^ (8 * count) * 256 < 2 ^ 64 := by
      have h := Nat.mod_lt (w.toNat / 256) (Nat.two_pow_pos (8 * count))
      have hpow : 2 ^ (8 * count) ≤ 2 ^ 56 := Nat.pow_le_pow_right (by decide) (by omega)
      omega
    rw [toBytes, ofBytes, UInt64.toNat_or, UInt64.toNat_shiftLeft, hrest, hshift,
      show (8 : UInt64).toNat % 64 = 8 from rfl, Nat.shiftLeft_eq, Nat.mod_eq_of_lt hsmall, UInt8.toNat_toUInt64,
      UInt64.toNat_toUInt8, Nat.or_comm, show 2 ^ 8 = 256 from rfl,
      ← Nat.mul_comm 256, ← Nat.two_pow_add_eq_or_of_lt (i := 8) (Nat.mod_lt _ (by decide)), Nat.mul_succ,
      Nat.add_comm (8 * count), Nat.pow_add, Nat.mod_mul, show 2 ^ 8 = 256 from rfl]
    exact Nat.add_comm ..

end Lowering.Word
