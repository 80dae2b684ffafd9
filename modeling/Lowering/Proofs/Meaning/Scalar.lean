import Lowering.Proofs.Binary64
import Lowering.Proofs.Machine.Memory
import Lowering.Proofs.Meaning.Integer
import Lowering.Proofs.Types.Catalog
/-!
# Values in registers

A value that is no structure sits in a register as a `Scalar` (`Value.scalar`). The operations of the machine agree with
those of the language on values that fit their types.
-/

namespace Lowering.Meaning

open Primitive

namespace Value

/-- What a register holds for a value that is no structure. -/
def scalar : Value → Scalar
  | integer kind n => .int (kind.encode n)
  | float _ x => .float x
  | boolean b => .ofBool b
  | struct _ _ => .int 0

/-- A value that its type has: integers are in range, numbers have the right precision, and the fields of a structure
are those of its layout. -/
inductive Fits (c : Catalog) : Value → Prop where
  | integer {kind : Primitive} {n : Int} (hkind : kind.category = .int ∨ kind.category = .string)
      (hn : kind.InRange n) : Fits c (integer kind n)
  | float {kind : Primitive} {x : Binary64} (hkind : kind.category = .float) (hx : kind.rounded x = x) :
      Fits c (float kind x)
  | boolean (b : Bool) : Fits c (boolean b)
  | struct {ref : StructureRef} {layout : Layout} {fields : List Value} (hlists : c.Lists ref)
      (hlayout : c.layout? ref = some layout) (htypes : fields.map ty = layout.fields.map Field.ty)
      (hfields : ∀ v ∈ fields, Fits c v) : Fits c (struct ref fields)

end Value

variable {c : Catalog} {kind source target : Primitive} {u v r : Value}

theorem Value.Fits.of_int (hv : v.Fits c) (hty : v.ty = .primitive kind) (hkind : kind.category = .int) :
    ∃ n, v = .integer kind n ∧ kind.InRange n := by
  cases hv with
  | integer _ hn => cases hty; exact ⟨_, rfl, hn⟩
  | float h => cases hty; rw [h] at hkind; cases hkind
  | boolean => cases hty; cases hkind
  | struct => cases hty

theorem Value.Fits.of_float (hv : v.Fits c) (hty : v.ty = .primitive kind) (hkind : kind.category = .float) :
    ∃ x, v = .float kind x ∧ kind.rounded x = x := by
  cases hv with
  | integer h => cases hty; simp [hkind] at h
  | float _ hx => cases hty; exact ⟨_, rfl, hx⟩
  | boolean => cases hty; cases hkind
  | struct => cases hty

theorem Value.Fits.of_bool (hv : v.Fits c) (hty : v.ty = .primitive .bool) : ∃ b, v = .boolean b := by
  cases hv with
  | integer h => cases hty; obtain h | h := h <;> cases h
  | float h => cases hty; cases h
  | boolean b => exact ⟨b, rfl⟩
  | struct => cases hty

theorem category_of_isNumeric (h : kind.isNumeric = true) : kind.category = .int ∨ kind.category = .float := by
  cases kind <;> first | exact .inl rfl | exact .inr rfl | cases h

theorem wordBits_irType (h : kind.category = .int) : wordBits kind.irType = kind.bits := by
  simp [wordBits, irType, irBase, h]

theorem roundTo_irType (kind : Primitive) (x : Binary64) : roundTo kind.irType x = kind.rounded x := by
  cases kind <;> rfl

theorem mode_of_int (h : kind.category = .int) : kind.mode = if kind.isSigned then .signed else .unsigned := by
  simp [Primitive.mode, h]

theorem mode_of_float (h : kind.category = .float) : kind.mode = .float := by
  simp [Primitive.mode, h]

/-! ### Operations -/

/-- **Arithmetic.** -/
theorem evalBinary_agrees (operator : ArithmeticOperator) (hkind : kind.isNumeric = true) (hu : u.Fits c)
    (hv : v.Fits c) (htu : u.ty = .primitive kind) (htv : v.ty = .primitive kind) :
    Agrees Value.scalar (arithmetic operator u v)
      (evalBinary operator.irOperator kind.mode kind.irType u.scalar v.scalar) := by
  obtain h | h := category_of_isNumeric hkind
  · obtain ⟨a, rfl, ha⟩ := hu.of_int htu h
    obtain ⟨b, rfl, hb⟩ := hv.of_int htv h
    have hwords := wordBinary_agrees operator h ha hb
    have hbinary : evalBinary operator.irOperator kind.mode kind.irType (Value.integer kind a).scalar
        (Value.integer kind b).scalar =
        Scalar.int <$> wordBinary operator.irOperator kind.isSigned kind.bits (kind.encode a) (kind.encode b) := by
      rw [mode_of_int h]
      cases hsgn : kind.isSigned <;>
        simp only [evalBinary, wordBits_irType h, Value.scalar, Scalar.word, Bool.false_eq_true, if_false, if_true]
    rw [hbinary, arithmetic, if_pos ⟨rfl, hkind⟩]
    cases hres : integerArithmetic operator kind a b with
    | ok n =>
      rw [hres] at hwords
      rw [show wordBinary _ _ _ _ _ = _ from hwords]
      rfl
    | error stop =>
      rw [hres] at hwords
      cases stop with
      | fails e =>
        rw [show wordBinary _ _ _ _ _ = _ from hwords]
        rfl
      | stuck => exact hwords
  obtain ⟨x, rfl, hx⟩ := hu.of_float htu h
  obtain ⟨y, rfl, hy⟩ := hv.of_float htv h
  rw [mode_of_float h, arithmetic, if_pos rfl]
  cases operator <;> exact congrArg (Except.ok ∘ Scalar.float) (roundTo_irType kind _)

/-- **Comparison.** -/
theorem evalCompare_agrees (hpred : operator.predicate? kind = some predicate)
    (hu : u.Fits c) (hv : v.Fits c) (htu : u.ty = .primitive kind) (htv : v.ty = .primitive kind) :
    ∃ b, comparison operator u v = .ok (.boolean b) ∧ evalCompare predicate kind.irType u.scalar v.scalar = b := by
  cases hcat : kind.category with
  | int =>
    obtain ⟨a, rfl, ha⟩ := hu.of_int htu hcat
    obtain ⟨b, rfl, hb⟩ := hv.of_int htv hcat
    refine ⟨_, ?_, evalCompare_integers hcat hpred ha hb⟩
    simp [comparison, isNumeric, hcat]
  | float =>
    obtain ⟨x, rfl, -⟩ := hu.of_float htu hcat
    obtain ⟨y, rfl, -⟩ := hv.of_float htv hcat
    refine ⟨_, by rw [comparison, if_pos rfl], ?_⟩
    simp only [CompareOperator.predicate?, hcat] at hpred
    cases operator <;> cases hpred <;> rfl
  | bool =>
    have hbool : kind = .bool := by cases kind <;> first | rfl | cases hcat
    subst hbool
    obtain ⟨a, rfl⟩ := hu.of_bool htu
    obtain ⟨b, rfl⟩ := hv.of_bool htv
    cases operator <;> cases hpred <;> exact ⟨_, rfl, by cases a <;> cases b <;> rfl⟩
  | void | string => simp only [CompareOperator.predicate?, hcat] at hpred; cases hpred

theorem rounded_rounded (kind : Primitive) (x : Binary64) : kind.rounded (kind.rounded x) = kind.rounded x := by
  unfold rounded
  split
  · exact Binary64.narrow_narrow x
  · rfl

theorem arithmetic_fits (hu : u.Fits c) (h : arithmetic operator u v = .ok r) : r.Fits c ∧ r.ty = u.ty := by
  cases hu with
  | integer hkind =>
    cases v with
    | integer kind' b =>
      rw [arithmetic] at h
      split at h
      · cases hres : integerArithmetic operator _ _ b with
        | error => rw [hres] at h; cases h
        | ok n =>
          rw [hres] at h
          cases h
          refine ⟨.integer hkind ?_, rfl⟩
          cases operator <;> simp only [integerArithmetic] at hres
          case divide | remainder =>
            split at hres
            · cases hres
            · cases hres; exact inRange_wrap _ _
          all_goals
            cases hres
            exact inRange_wrap _ _
      · cases h
    | _ => cases h
  | float hkind =>
    cases v with
    | float kind' y =>
      rw [arithmetic] at h
      split at h
      · cases h
        exact ⟨.float hkind (rounded_rounded _ _), rfl⟩
      · cases h
    | _ => cases h
  | boolean | struct => cases v <;> cases h

/-- **Logical operations.** -/
theorem logical_agrees (operator : LogicalOperator) (hu : u.Fits c) (hv : v.Fits c) (htu : u.ty = .primitive .bool)
    (htv : v.ty = .primitive .bool) :
    ∃ b, logical operator u v = .ok (.boolean b) ∧
      evalBinary operator.irOperator .unsigned .bool u.scalar v.scalar = .ok (.ofBool b) := by
  obtain ⟨a, rfl⟩ := hu.of_bool htu
  obtain ⟨b, rfl⟩ := hv.of_bool htv
  cases operator <;> exact ⟨_, rfl, by cases a <;> cases b <;> rfl⟩

theorem negation_agrees (hv : v.Fits c) (htv : v.ty = .primitive .bool) :
    ∃ b, negation v = .ok (.boolean b) ∧
      evalBinary .xor .unsigned .bool v.scalar (.ofBool true) = .ok (.ofBool b) := by
  obtain ⟨b, rfl⟩ := hv.of_bool htv
  exact ⟨_, rfl, by cases b <;> rfl⟩

/-! ### Conversions -/

/-- Conversions between integers keep all bits that fit. -/
theorem conversion_integers (hs : source.category = .int) (ht : target.category = .int) (n : Int)
    (hn : source.InRange n) :
    match source.conversion target with
    | some conversion => evalConvert conversion source.irType target.irType (.int (source.encode n)) =
        .int (target.encode n)
    | none => source.encode n = target.encode n := by
  have hpos := bits_pos hs
  simp only [Primitive.conversion, hs, ht]
  split
  · next hwider =>
    split at hwider
    · cases hsgn : source.isSigned with
      | true =>
        simp only [hsgn, if_true, Option.some.injEq] at hwider
        subst hwider
        simp only [evalConvert, wordBits_irType hs, wordBits_irType ht, Scalar.word, Scalar.int.injEq]
        refine mask_eq_encode (BitVec.eq_of_toInt_eq ?_)
        rw [Word.toInt_low_toUInt64 target.bits_le, signed_encode_of_inRange hpos hsgn hn, BitVec.toInt_ofInt]
      | false =>
        simp only [hsgn, Bool.false_eq_true, if_false, Option.some.injEq] at hwider
        subst hwider
        simp only [evalConvert, wordBits_irType ht, Scalar.word, Scalar.int.injEq]
        refine mask_eq_encode (BitVec.eq_of_toNat_eq ?_)
        conv_rhs => rw [← toNat_encode_of_inRange hsgn hn, BitVec.ofInt_natCast, BitVec.toNat_ofNat]
        exact Word.toNat_low ..
    split at hwider
    · next hnarrower =>
      cases hwider
      simp only [evalConvert, wordBits_irType ht, Scalar.word, Scalar.int.injEq]
      refine mask_eq_encode ?_
      rw [encode, Word.low_mask hnarrower.le, low_ofInt]
    · cases hwider
  rename_i hsame
  have hbits : source.bits = target.bits := by
    grind
  rw [encode, encode, hbits]

/-- **Conversions between numbers.** -/
theorem conversion_agrees (hsrc : source.isNumeric = true) (htgt : target.isNumeric = true) (hv : v.Fits c)
    (htv : v.ty = .primitive source) :
    ∃ r, conversion target v = .ok r ∧ r.Fits c ∧ r.ty = .primitive target ∧
      match source.conversion target with
      | some conversion => evalConvert conversion source.irType target.irType v.scalar = r.scalar
      | none => v.scalar = r.scalar := by
  obtain ht | ht := category_of_isNumeric htgt
  · have hnot : ¬ target.category = .float := by rw [ht]; decide
    obtain hs | hs := category_of_isNumeric hsrc
    · obtain ⟨n, rfl, hn⟩ := hv.of_int htv hs
      refine ⟨.integer target (target.wrap n), by rw [conversion, if_neg hnot],
        .integer (.inl ht) (inRange_wrap _ _), rfl, ?_⟩
      have hconverts := conversion_integers hs ht n hn
      simp [Value.scalar, encode_wrap, *]
    obtain ⟨x, rfl, -⟩ := hv.of_float htv hs
    refine ⟨.integer target (target.wrap (integerOf target x)), by rw [conversion, if_neg hnot],
      .integer (.inl ht) (inRange_wrap _ _), rfl, ?_⟩
    simp only [Primitive.conversion, hs, ht, Value.scalar, encode_wrap]
    cases hsgn : target.isSigned <;>
      simp only [hsgn, Bool.false_eq_true, if_false, if_true, evalConvert, wordBits_irType ht, Scalar.number,
        integerOf, encode]
  obtain hs | hs := category_of_isNumeric hsrc
  · obtain ⟨n, rfl, hn⟩ := hv.of_int htv hs
    refine ⟨.float target (target.rounded (.ofInt n)), by rw [conversion, if_pos ht],
      .float ht (rounded_rounded _ _), rfl, ?_⟩
    simp only [Primitive.conversion, hs, ht, Value.scalar]
    cases hsgn : source.isSigned with
    | true =>
      simp [evalConvert, wordBits_irType hs, Scalar.word, roundTo_irType,
        signed_encode_of_inRange (bits_pos hs) hsgn hn]
    | false =>
      simp [evalConvert, wordBits_irType hs, Scalar.word, roundTo_irType, mask_encode,
        toNat_encode_of_inRange hsgn hn]
  obtain ⟨x, rfl, hx⟩ := hv.of_float htv hs
  refine ⟨.float target (target.rounded x), by rw [conversion, if_pos ht], .float ht (rounded_rounded _ _), rfl, ?_⟩
  simp only [Value.scalar]
  split
  · next conversion hconv =>
    simp only [Primitive.conversion, hs, ht] at hconv
    grind [evalConvert, roundTo_irType, Scalar.number]
  rename_i hsame
  have heq : source = target := by
    revert hsame
    cases source <;> cases hs <;> cases target <;> cases ht <;> decide
  rw [← heq, hx]

/-! ### Memory -/

namespace Value

/-- The word that memory holds for a value that is no structure. -/
def word : Value → UInt64
  | integer kind n => kind.encode n
  | float kind x => if kind = .f32 then x.toSingle.toUInt64 else x.bits
  | boolean b => if b then 1 else 0
  | struct _ _ => 0

end Value

theorem Value.Fits.primitive (hv : v.Fits c) (hscalar : v.isStruct = false) :
    ∃ kind, v.ty = .primitive kind ∧ kind.category ≠ .void := by
  cases hv with
  | integer hkind => exact ⟨_, rfl, by obtain h | h := hkind <;> rw [h] <;> decide⟩
  | float hkind => exact ⟨_, rfl, by rw [hkind]; decide⟩
  | boolean => exact ⟨_, rfl, by decide⟩
  | struct => cases hscalar

theorem storedWord_eq (hv : v.Fits c) (hty : v.ty = .primitive kind) :
    storedWord kind.irType v.scalar = .ok v.word := by
  cases hv with
  | integer hkind =>
    cases hty
    cases kind <;> first | rfl | (obtain h | h := hkind <;> cases h)
  | float hkind =>
    cases hty
    cases kind <;> first | rfl | cases hkind
  | boolean => cases hty; rfl
  | struct => cases hty

theorem Value.Fits.hasType (hv : v.Fits c) (hty : v.ty = .primitive kind) : v.scalar.HasType kind.irType := by
  cases hv with
  | @integer kind n hkind =>
    cases hty
    have hlt : (kind.encode n).toNat < 2 ^ kind.bits := by
      rw [encode, Word.toNat_mask]
      omega
    cases kind <;> first | exact .int (by decide) hlt | (obtain h | h := hkind <;> cases h)
  | @float kind x hkind hx =>
    cases hty
    cases kind <;> cases hkind
    · exact .single hx
    · exact .double x
  | boolean b => cases hty; cases b <;> exact .int (by decide) (by decide)
  | struct => cases hty

theorem sizeOf_irType (m : IR.Module) (kind : Primitive) : sizeOf m kind.irType = .ok kind.size := by
  cases kind <;> rfl

theorem Value.Fits.liesAs (hv : v.Fits c) (hty : v.ty = .primitive kind) (m : IR.Module) :
    v.scalar.LiesAs m kind.irType kind.size v.word := by
  obtain ⟨size, word, h⟩ := (hv.hasType hty).liesAs m
  cases h.sized.symm.trans (sizeOf_irType m kind)
  cases h.stored.symm.trans (storedWord_eq hv hty)
  exact h

end Lowering.Meaning
