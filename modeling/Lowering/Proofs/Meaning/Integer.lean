import Lowering.Body.Expression
import Lowering.Proofs.Machine.Bits
import Lowering.Proofs.Meaning.Value
/-!
# Integers of a type in words

An integer is held as its low bits (`Primitive.encode`), so that operations on words are those on vectors of bits. These
are the operations on integers, brought into the range of the type: for sums and products whatever the integers are, for
division and comparison because the integers are in range and the vectors can be read as them.
-/

namespace Lowering

namespace Primitive

/-- The word that holds an integer of a type. -/
def encode (kind : Primitive) (n : Int) : UInt64 := Word.mask kind.bits (UInt64.ofInt n)

/-- The integers of a type. -/
def InRange (kind : Primitive) (n : Int) : Prop := kind.wrap n = n

variable {kind : Primitive} {a b n : Int} {w : UInt64}

theorem bits_le (kind : Primitive) : kind.bits ≤ 64 := by cases kind <;> decide

theorem bits_pos (hkind : kind.category = .int) : 0 < kind.bits := by
  cases kind <;> first | decide | cases hkind

theorem low_ofInt (kind : Primitive) (n : Int) : Word.low kind.bits (UInt64.ofInt n) = BitVec.ofInt kind.bits n := by
  have hword : ((UInt64.ofInt n).toNat : Int) = n % 2 ^ 64 := by
    have hnat : (UInt64.ofInt n).toNat = (n % 2 ^ 64).toNat := UInt64.toNat_ofNat_of_lt' (by show _ < 2 ^ 64; omega)
    omega
  have hdvd : ((2 ^ kind.bits : Nat) : Int) ∣ 2 ^ 64 := by cases kind <;> decide
  refine BitVec.eq_of_toInt_eq ?_
  rw [Word.low, BitVec.toInt_setWidth, UInt64.toNat_toBitVec, hword, BitVec.toInt_ofInt, ← Int.emod_bmod,
    Int.emod_emod_of_dvd n hdvd, Int.emod_bmod]

theorem low_encode (kind : Primitive) (n : Int) : Word.low kind.bits (kind.encode n) = BitVec.ofInt kind.bits n := by
  rw [encode, Word.low_mask le_rfl, low_ofInt]

theorem encode_eq_ofNat (kind : Primitive) (n : Int) :
    kind.encode n = UInt64.ofNat (BitVec.ofInt kind.bits n).toNat := by
  rw [encode, Word.mask_eq_ofNat, low_ofInt]

theorem mask_eq_encode (h : Word.low kind.bits w = .ofInt kind.bits n) : Word.mask kind.bits w = kind.encode n := by
  rw [Word.mask_eq_ofNat, h, encode_eq_ofNat]

theorem mask_encode (kind : Primitive) (n : Int) : Word.mask kind.bits (kind.encode n) = kind.encode n :=
  mask_eq_encode (low_encode kind n)

theorem encode_wrap (kind : Primitive) (n : Int) : kind.encode (kind.wrap n) = kind.encode n := by
  have hsame : BitVec.ofInt kind.bits (kind.wrap n) = .ofInt kind.bits n := by
    refine BitVec.eq_of_toInt_eq ?_
    rw [BitVec.toInt_ofInt, BitVec.toInt_ofInt]
    unfold wrap
    split
    · exact Int.bmod_bmod
    · exact Int.emod_bmod ..
  rw [encode_eq_ofNat, encode_eq_ofNat, hsame]

theorem inRange_wrap (kind : Primitive) (n : Int) : kind.InRange (kind.wrap n) := by
  simp_all [InRange, wrap]

/-- An integer of a type with negative values is the signed reading of its bits. -/
theorem toInt_ofInt_of_inRange (hkind : kind.isSigned = true) (hn : kind.InRange n) :
    (BitVec.ofInt kind.bits n).toInt = n := by
  rw [BitVec.toInt_ofInt]
  simpa only [InRange, wrap, hkind, if_true] using hn

/-- An integer of a type without negative values is the number that its bits make up. -/
theorem toNat_ofInt_of_inRange (hkind : kind.isSigned = false) (hn : kind.InRange n) :
    ((BitVec.ofInt kind.bits n).toNat : Int) = n := by
  rw [BitVec.toNat_ofInt, Int.toNat_of_nonneg (Int.emod_nonneg _ (Int.natCast_ne_zero.2 (Nat.two_pow_pos _).ne'))]
  simpa only [InRange, wrap, hkind, Bool.false_eq_true, if_false] using hn

theorem toNat_encode_of_inRange (hkind : kind.isSigned = false) (hn : kind.InRange n) :
    ((kind.encode n).toNat : Int) = n := by
  rw [← mask_encode, Word.toNat_mask_eq_low, low_encode, toNat_ofInt_of_inRange hkind hn]

theorem signed_encode_of_inRange (hpos : 0 < kind.bits) (hkind : kind.isSigned = true) (hn : kind.InRange n) :
    (Word.signed kind.bits (kind.encode n)).toInt = n := by
  rw [Word.toInt_signed_eq_low hpos kind.bits_le, low_encode, toInt_ofInt_of_inRange hkind hn]

theorem ofInt_inj (ha : kind.InRange a) (hb : kind.InRange b) :
    BitVec.ofInt kind.bits a = .ofInt kind.bits b ↔ a = b := by
  refine ⟨fun h => ?_, fun h => h ▸ rfl⟩
  cases hkind : kind.isSigned with
  | true => rw [← toInt_ofInt_of_inRange hkind ha, h, toInt_ofInt_of_inRange hkind hb]
  | false => rw [← toNat_ofInt_of_inRange hkind ha, h, toNat_ofInt_of_inRange hkind hb]

theorem encode_eq_zero_iff (hn : kind.InRange n) : kind.encode n = 0 ↔ n = 0 := by
  have hzero : kind.encode 0 = 0 := by cases kind <;> rfl
  have hin : kind.InRange 0 := by cases kind <;> rfl
  rw [← hzero, encode, encode, Word.mask_eq_mask_iff, low_ofInt, low_ofInt, ofInt_inj hn hin]

end Primitive

namespace Meaning

open Primitive

/-- What a machine makes of an evaluation: the same result, or the same failure. A program that makes no sense has no
counterpart. -/
def Agrees {α β : Type} (f : α → β) : Except Stop α → Except EvalError β → Prop
  | .ok a, answer => answer = .ok (f a)
  | .error (.fails e), answer => answer = .error e
  | .error .stuck, _ => False

variable {kind : Primitive} {a b : Int}

section Quotients

variable {bits : Nat} (x y : BitVec bits)

theorem sdiv_eq_ofInt : x.sdiv y = .ofInt bits (x.toInt.tdiv y.toInt) :=
  BitVec.eq_of_toInt_eq (by rw [BitVec.toInt_sdiv, BitVec.toInt_ofInt])

theorem srem_eq_ofInt : x.srem y = .ofInt bits (x.toInt.tmod y.toInt) := by
  rw [← BitVec.toInt_srem, BitVec.ofInt_toInt]

theorem udiv_eq_ofInt : x / y = .ofInt bits ((x.toNat : Int).tdiv y.toNat) := by
  rw [Int.natCast_tdiv_eq_ediv, ← Int.natCast_ediv, BitVec.ofInt_natCast, BitVec.udiv_def]

theorem umod_eq_ofInt : x % y = .ofInt bits ((x.toNat : Int).tmod y.toNat) := by
  rw [Int.tmod_eq_emod_of_nonneg (Int.natCast_nonneg _), ← Int.natCast_mod, BitVec.ofInt_natCast, BitVec.umod_def]

end Quotients

/-- **Arithmetic on words is arithmetic on integers**, brought into the range of their type. -/
theorem wordBinary_agrees (operator : ArithmeticOperator) (hkind : kind.category = .int) (ha : kind.InRange a)
    (hb : kind.InRange b) :
    Agrees kind.encode (integerArithmetic operator kind a b)
      (wordBinary operator.irOperator kind.isSigned kind.bits (kind.encode a) (kind.encode b)) := by
  have hzero : (kind.encode b).toNat % 2 ^ kind.bits = 0 ↔ b = 0 := by
    rw [← Word.mask_eq_zero_iff, mask_encode, encode_eq_zero_iff hb]
  have hok {n : Int} {x : BitVec kind.bits} (h : x = .ofInt kind.bits n) :
      Agrees kind.encode (.ok (kind.wrap n)) (.ok (UInt64.ofNat x.toNat)) := by
    refine congrArg Except.ok ?_
    rw [h, encode_wrap, encode_eq_ofNat]
  have hquotient {op : IR.BinaryOperator} {n : Int} {x : BitVec kind.bits} (hop : op = .div ∨ op = .rem)
      (h : x = .ofInt kind.bits n) :
      Agrees kind.encode (if b = 0 then .error (.fails .divisionByZero) else .ok (kind.wrap n))
        (if (op = .div ∨ op = .rem) ∧ (kind.encode b).toNat % 2 ^ kind.bits = 0 then .error .divisionByZero
        else .ok (UInt64.ofNat x.toNat)) := by
    by_cases hb : b = 0
    · rw [if_pos hb, if_pos ⟨hop, hzero.2 hb⟩]
      rfl
    · simp_all
  rw [wordBinary_eq (bits_pos hkind) kind.bits_le, low_encode, low_encode]
  cases operator with
  | add => exact hok (BitVec.ofInt_add a b).symm
  | subtract =>
    refine hok ?_
    rw [Int.sub_eq_add_neg, BitVec.ofInt_add, BitVec.ofInt_neg, ← BitVec.sub_eq_add_neg]
    rfl
  | multiply => exact hok (BitVec.ofInt_mul a b).symm
  | divide =>
    refine hquotient (.inl rfl) ?_
    cases hsgn : kind.isSigned with
    | true =>
      refine (sdiv_eq_ofInt _ _).trans ?_
      rw [toInt_ofInt_of_inRange hsgn ha, toInt_ofInt_of_inRange hsgn hb]
    | false =>
      refine (udiv_eq_ofInt _ _).trans ?_
      rw [toNat_ofInt_of_inRange hsgn ha, toNat_ofInt_of_inRange hsgn hb]
  | remainder =>
    refine hquotient (.inr rfl) ?_
    cases hsgn : kind.isSigned with
    | true =>
      refine (srem_eq_ofInt _ _).trans ?_
      rw [toInt_ofInt_of_inRange hsgn ha, toInt_ofInt_of_inRange hsgn hb]
    | false =>
      refine (umod_eq_ofInt _ _).trans ?_
      rw [toNat_ofInt_of_inRange hsgn ha, toNat_ofInt_of_inRange hsgn hb]

/-- **Comparing words is comparing integers.** -/
theorem evalCompare_integers {operator : CompareOperator} (hkind : kind.category = .int)
    (hpred : operator.predicate? kind = some predicate) (ha : kind.InRange a) (hb : kind.InRange b) :
    evalCompare predicate kind.irType (.int (kind.encode a)) (.int (kind.encode b)) =
      operator.holds (a == b) (decide (a < b)) (decide (b < a)) := by
  have htype : kind.irType = .int kind.bits := by
    simp only [irType, irBase, hkind]
    rfl
  have hequal : (BitVec.ofInt kind.bits a == .ofInt kind.bits b) = (a == b) := by
    rw [Bool.eq_iff_iff, beq_iff_eq, beq_iff_eq, ofInt_inj ha hb]
  have hle (x y : Int) : decide (x ≤ y) = (decide (x < y) || x == y) := by
    grind
  refine Option.some.inj ?_
  simp only [CompareOperator.predicate?, hkind] at hpred
  rw [htype, ← evalCompare_eq (bits_pos hkind) kind.bits_le]
  · simp only [Scalar.word, low_encode]
    cases hsgn : kind.isSigned with
    | true =>
      have hsa := toInt_ofInt_of_inRange hsgn ha
      have hsb := toInt_ofInt_of_inRange hsgn hb
      cases operator <;> cases hpred <;>
        simp only [IR.Predicate.onBits, hsgn, if_true, hequal, CompareOperator.holds, BitVec.slt, BitVec.sle, hsa,
          hsb, hle, bne, BEq.comm (a := b)]
    | false =>
      have hua := toNat_ofInt_of_inRange hsgn ha
      have hub := toNat_ofInt_of_inRange hsgn hb
      cases operator <;> cases hpred <;>
        simp only [IR.Predicate.onBits, hsgn, Bool.false_eq_true, if_false, hequal, CompareOperator.holds,
          BitVec.ult, BitVec.ule, ← Int.ofNat_lt, ← Int.ofNat_le, hua, hub, hle, bne, BEq.comm (a := b)]
  · cases operator <;> cases hpred <;> cases kind.isSigned <;> rfl

end Meaning

end Lowering
