import Lowering.Machine.Scalar
import Lowering.Proofs.Machine.Word
/-!
# Integer instructions as operations on vectors of bits

An integer of a width is the low bits of a word. Whatever stands above them, the machine's instructions on integers are
the operations of that width in two's complement. For most of them the bits above do not reach the low ones; division
and comparison clear those bits first, or copy the sign into them.
-/

namespace Lowering

/-- The operation on vectors of bits that an operator stands for. -/
def IR.BinaryOperator.onBits (operator : IR.BinaryOperator) (signed : Bool) {bits : Nat} (x y : BitVec bits) :
    BitVec bits :=
  match operator with
  | .add => x + y
  | .sub => x - y
  | .mul => x * y
  | .div => if signed then x.sdiv y else x / y
  | .rem => if signed then x.srem y else x % y
  | .and => x &&& y
  | .or => x ||| y
  | .xor => x ^^^ y

/-- The comparison of vectors of bits that a predicate stands for, if it is one of integers. -/
def IR.Predicate.onBits (predicate : IR.Predicate) {bits : Nat} (x y : BitVec bits) : Option Bool :=
  match predicate with
  | .eq => x == y
  | .ne => x != y
  | .sgt => y.slt x
  | .sge => y.sle x
  | .slt => x.slt y
  | .sle => x.sle y
  | .ugt => y.ult x
  | .uge => y.ule x
  | .ult => x.ult y
  | .ule => x.ule y
  | .oeq | .une | .ogt | .oge | .olt | .ole => none

namespace Word

/-- The low bits of a word. -/
def low (bits : Nat) (w : UInt64) : BitVec bits := w.toBitVec.setWidth bits

variable {bits : Nat} {v w : UInt64}

theorem toNat_low (bits : Nat) (w : UInt64) : (low bits w).toNat = w.toNat % 2 ^ bits :=
  BitVec.toNat_setWidth bits w.toBitVec

theorem toNat_mask_eq_low (bits : Nat) (w : UInt64) : (mask bits w).toNat = (low bits w).toNat := by
  rw [toNat_mask, toNat_low]

/-- The signed reading of a word is that of its low bits. -/
theorem toInt_signed_eq_low (hpos : 0 < bits) (hbits : bits ≤ 64) (w : UInt64) :
    (signed bits w).toInt = (low bits w).toInt := by
  rw [toInt_signed hpos hbits, low, BitVec.toInt_setWidth]
  rfl

theorem low_mask (h : bits ≤ width) (w : UInt64) : low bits (mask width w) = low bits w := by
  refine BitVec.eq_of_toNat_eq ?_
  rw [toNat_low, toNat_mask, toNat_low, Nat.mod_mod_of_dvd _ (Nat.pow_dvd_pow 2 h)]

theorem mask_eq_ofNat (bits : Nat) (w : UInt64) : mask bits w = UInt64.ofNat (low bits w).toNat := by
  rw [← toNat_mask_eq_low, UInt64.ofNat_toNat]

theorem mask_eq_zero_iff : mask bits w = 0 ↔ w.toNat % 2 ^ bits = 0 := by
  rw [← UInt64.toNat_inj, toNat_mask]
  rfl

theorem mask_eq_mask_iff : mask bits v = mask bits w ↔ low bits v = low bits w := by
  rw [← UInt64.toNat_inj, toNat_mask_eq_low, toNat_mask_eq_low, BitVec.toNat_inj]

theorem toInt_low_toUInt64 (hbits : bits ≤ 64) (x : Int64) : (low bits x.toUInt64).toInt = x.toInt.bmod (2 ^ bits) := by
  have hx : x.toInt = (x.toUInt64.toNat : Int).bmod (2 ^ 64) := BitVec.toInt_eq_toNat_bmod _
  rw [hx, Int.bmod_bmod_of_dvd (Nat.pow_dvd_pow 2 hbits), low, BitVec.toInt_setWidth]
  rfl

section Operations

variable (hbits : bits ≤ 64) (a b : UInt64)
include hbits

theorem low_add : low bits (a + b) = low bits a + low bits b := BitVec.setWidth_add _ _ hbits

theorem low_sub : low bits (a - b) = low bits a - low bits b := by
  rw [BitVec.sub_eq_add_neg]
  show (a.toBitVec - b.toBitVec).setWidth bits = _
  rw [BitVec.sub_eq_add_neg, BitVec.setWidth_add _ _ hbits, BitVec.setWidth_neg_of_le hbits]
  rfl

theorem low_mul : low bits (a * b) = low bits a * low bits b := BitVec.setWidth_mul _ _ hbits

theorem low_signed_div (hpos : 0 < bits) :
    low bits (signed bits a / signed bits b).toUInt64 = (low bits a).sdiv (low bits b) := by
  refine BitVec.eq_of_toInt_eq ?_
  simp [toInt_low_toUInt64 hbits, Int64.toInt_div, Int.bmod_bmod_of_dvd (Nat.pow_dvd_pow 2 hbits),
    toInt_signed_eq_low hpos hbits, BitVec.toInt_sdiv]

theorem low_signed_mod (hpos : 0 < bits) :
    low bits (signed bits a % signed bits b).toUInt64 = (low bits a).srem (low bits b) := by
  refine BitVec.eq_of_toInt_eq ?_
  rw [toInt_low_toUInt64 hbits, Int64.toInt_mod, toInt_signed_eq_low hpos hbits, toInt_signed_eq_low hpos hbits,
    ← BitVec.toInt_srem, BitVec.toInt_bmod_cancel]

end Operations

theorem low_mask_div (bits : Nat) (a b : UInt64) : low bits (mask bits a / mask bits b) = low bits a / low bits b := by
  refine BitVec.eq_of_toNat_eq ?_
  rw [toNat_low, UInt64.toNat_div, toNat_mask_eq_low, toNat_mask_eq_low, BitVec.toNat_udiv]
  exact Nat.mod_eq_of_lt ((Nat.div_le_self ..).trans_lt (low bits a).isLt)

theorem low_mask_mod (bits : Nat) (a b : UInt64) : low bits (mask bits a % mask bits b) = low bits a % low bits b := by
  refine BitVec.eq_of_toNat_eq ?_
  rw [toNat_low, UInt64.toNat_mod, toNat_mask_eq_low, toNat_mask_eq_low, BitVec.toNat_umod]
  exact Nat.mod_eq_of_lt ((Nat.mod_le ..).trans_lt (low bits a).isLt)

end Word

/-- **An operation on words is the operation on their low bits**, or a division by zero. -/
theorem wordBinary_eq (hpos : 0 < bits) (hbits : bits ≤ 64) (operator : IR.BinaryOperator) (signed : Bool)
    (a b : UInt64) :
    wordBinary operator signed bits a b =
      if (operator = .div ∨ operator = .rem) ∧ b.toNat % 2 ^ bits = 0 then .error .divisionByZero
      else .ok (UInt64.ofNat (operator.onBits signed (Word.low bits a) (Word.low bits b)).toNat) := by
  have hmask {w : UInt64} {x : BitVec bits} (h : Word.low bits w = x) :
      Except.ok (ε := EvalError) (Word.mask bits w) = .ok (UInt64.ofNat x.toNat) := by
    rw [Word.mask_eq_ofNat, h]
  split
  · next hzero =>
    obtain ⟨rfl | rfl, hzero⟩ := hzero <;> exact if_pos (Word.mask_eq_zero_iff.2 hzero)
  · next hzero =>
    have hmasked (h : operator = .div ∨ operator = .rem) : Word.mask bits b ≠ 0 := fun hmasked =>
      hzero ⟨h, Word.mask_eq_zero_iff.1 hmasked⟩
    cases operator with
    | add => exact hmask (Word.low_add hbits a b)
    | sub => exact hmask (Word.low_sub hbits a b)
    | mul => exact hmask (Word.low_mul hbits a b)
    | and => exact hmask BitVec.setWidth_and
    | or => exact hmask BitVec.setWidth_or
    | xor => exact hmask BitVec.setWidth_xor
    | div =>
      refine (if_neg (hmasked (.inl rfl))).trans ?_
      cases signed with
      | true => exact hmask (Word.low_signed_div hbits a b hpos)
      | false => exact hmask (Word.low_mask_div bits a b)
    | rem =>
      refine (if_neg (hmasked (.inr rfl))).trans ?_
      cases signed with
      | true => exact hmask (Word.low_signed_mod hbits a b hpos)
      | false => exact hmask (Word.low_mask_mod bits a b)

/-- **A comparison of words is the comparison of their low bits.** -/
theorem evalCompare_eq (hpos : 0 < bits) (hbits : bits ≤ 64)
    (hpred : predicate.isFloat = false) (a b : Scalar) :
    predicate.onBits (Word.low bits a.word) (Word.low bits b.word) = some (evalCompare predicate (.int bits) a b) := by
  have hequal : (Word.mask bits a.word == Word.mask bits b.word) = (Word.low bits a.word == Word.low bits b.word) := by
    rw [Bool.eq_iff_iff, beq_iff_eq, beq_iff_eq, Word.mask_eq_mask_iff]
  have hsgn (x : Scalar) : (Word.signed bits (Word.mask bits x.word)).toInt = (Word.low bits x.word).toInt := by
    rw [Word.toInt_signed_eq_low hpos hbits, Word.low_mask le_rfl]
  have hwidth : wordBits (.int bits) = bits := rfl
  cases predicate with
  | oeq | une | ogt | oge | olt | ole => cases hpred
  | _ =>
    simp only [IR.Predicate.onBits, evalCompare, hwidth, hequal, bne, Int64.lt_iff_toInt_lt,
      Int64.le_iff_toInt_le, hsgn,
      UInt64.lt_iff_toNat_lt, UInt64.le_iff_toNat_le, Word.toNat_mask_eq_low, BitVec.slt, BitVec.sle,
        BitVec.ult, BitVec.ule]

/-- **Integer instructions are operations on vectors of bits.** At a width of up to 64 bits, on any two words,
`evalBinary` fails exactly where it would divide by zero, and has the result of the operation on the low `bits` bits
otherwise (`onBits`); the least value divided by minus one is itself, with nothing left over. `evalCompare` compares the
low bits. -/
theorem integer_instructions {bits : Nat} (hpos : 0 < bits) (hbits : bits ≤ 64) (a b : Scalar) :
    (∀ (operator : IR.BinaryOperator) (mode : IR.NumericMode), mode ≠ .float →
      (evalBinary operator mode (.int bits) a b = .error .divisionByZero ↔
        (operator = .div ∨ operator = .rem) ∧ b.word.toNat % 2 ^ bits = 0) ∧
      (¬ ((operator = .div ∨ operator = .rem) ∧ b.word.toNat % 2 ^ bits = 0) →
        ∃ r : UInt64, evalBinary operator mode (.int bits) a b = .ok (.int r) ∧
          r.toNat = (operator.onBits (mode = .signed) (Word.low bits a.word) (Word.low bits b.word)).toNat)) ∧
    (∀ (predicate : IR.Predicate), predicate.isFloat = false →
      predicate.onBits (Word.low bits a.word) (Word.low bits b.word) = some (evalCompare predicate (.int bits) a b)) ∧
    IR.BinaryOperator.div.onBits true (BitVec.intMin bits) (-1) = BitVec.intMin bits ∧
    IR.BinaryOperator.rem.onBits true (BitVec.intMin bits) (-1) = 0 := by
  refine ⟨fun operator mode hmode => ?_, fun predicate hpred => evalCompare_eq hpos hbits hpred a b,
    BitVec.intMin_sdiv_neg_one, ?_⟩
  · have heval : evalBinary operator mode (.int bits) a b =
        Scalar.int <$> wordBinary operator (mode = .signed) bits a.word b.word := by
      cases mode with
      | float => exact absurd rfl hmode
      | signed | unsigned => rfl
    rw [heval, wordBinary_eq hpos hbits]
    split
    · next h => exact ⟨⟨fun _ => h, fun _ => rfl⟩, fun hnot => absurd h hnot⟩
    · next h =>
      refine ⟨⟨fun herr => (by cases herr), fun hzero => absurd hzero h⟩,
        fun _ => ⟨_, rfl, UInt64.toNat_ofNat_of_lt' ?_⟩⟩
      exact (BitVec.isLt _).trans_le (Nat.pow_le_pow_right (by decide) hbits)
  · refine BitVec.eq_of_toInt_eq ?_
    show (BitVec.srem _ (-BitVec.ofNat bits 1)).toInt = _
    rw [BitVec.toInt_srem, BitVec.neg_one_eq_allOnes, BitVec.toInt_allOnes, if_pos hpos]
    simp

/-- At 8 bits, with junk above them: -128 divided by -1 is -128, 0x500 is zero, and -128 is less than 127 if signs
count. -/
theorem integer_instructions_bytes :
    (∃ r : UInt64, evalBinary .div .signed (.int 8) (.int 0x380) (.int 0xfff) = .ok (.int r) ∧ r.toNat = 0x80) ∧
      evalBinary .rem .unsigned (.int 8) (.int 0x380) (.int 0x500) = .error .divisionByZero ∧
      evalCompare .slt (.int 8) (.int 0x380) (.int 0x47f) = true ∧
      evalCompare .ult (.int 8) (.int 0x380) (.int 0x47f) = false := by
  have hbytes := @integer_instructions 8 (by decide) (by decide)
  obtain ⟨r, hr, hvalue⟩ := ((hbytes (.int 0x380) (.int 0xfff)).1 .div .signed (by decide)).2 (by decide)
  obtain ⟨-, hcompare, -⟩ := hbytes (.int 0x380) (.int 0x47f)
  refine ⟨⟨r, hr, hvalue.trans (by decide)⟩, ?_, ?_, ?_⟩
  · exact ((hbytes (.int 0x380) (.int 0x500)).1 .rem .unsigned (by decide)).1.2 (by decide)
  · exact Option.some.inj ((hcompare .slt rfl).symm.trans (by decide))
  · exact Option.some.inj ((hcompare .ult rfl).symm.trans (by decide))

end Lowering
