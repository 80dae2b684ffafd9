import Lowering.Proofs.Body.Sound
import Lowering.Proofs.Machine.Straight
import Lowering.Proofs.Meaning.Memory
/-!
# Types of scalars

A type of the language whose values are scalars has memory for them, and where all bytes of it are zero there lies a
zero.
-/

namespace Lowering

/-- Whether values of a type are scalars that have memory: it is neither void nor a structure. -/
def TypeRef.isScalar (t : TypeRef) : Bool :=
  match t.head with
  | .primitive kind => t.depth != 0 || kind != .void
  | .struct _ => decide (1 < t.depth)

/-- The zero of a type of code. -/
def Scalar.zero (ty : IR.Ty) : Scalar :=
  match ty.pointer, ty.base with
  | 0, .float _ => .float ⟨0⟩
  | _, _ => .int 0

namespace TypeRef

variable {t : TypeRef}

theorem isLinear_of_isScalar (h : t.isScalar = true) : t.isLinear = false := by
  obtain ⟨head, depth⟩ := t
  rcases head with _ | ref
  · rfl
  have hdepth : 1 < depth := of_decide_eq_true h
  simp [isLinear, linear?, Nat.ne_of_gt hdepth]

/-- Values that can be used are scalars, unless they are structures. -/
theorem isScalar_of_usable {c : Catalog} (h : c.Usable t) (hvoid : t.isVoid = false) (hlin : t.isLinear = false) :
    t.isScalar = true := by
  obtain ⟨head, depth⟩ := t
  rcases head with kind | ref
  · cases depth <;> cases kind <;> first | rfl | cases hvoid
  have hdeep : depth ≠ 0 := h.deep ref rfl
  have hne : depth ≠ 1 := by
    rintro rfl
    cases hlin
  exact decide_eq_true (show 1 < depth by omega)

theorem storageType_of_isScalar (h : t.isScalar = true) :
    (∃ kind : Primitive, kind ≠ .void ∧ t.storageType = kind.irType) ∨
      ∃ base depth, t.storageType = ⟨base, depth + 1⟩ := by
  obtain ⟨head, depth⟩ := t
  rcases head with kind | ref
  · cases depth with
    | zero => exact .inl ⟨kind, by simpa [isScalar] using h, rfl⟩
    | succ depth => exact .inr ⟨_, depth, rfl⟩
  have hdepth : 1 < depth := of_decide_eq_true h
  obtain ⟨depth, rfl⟩ : ∃ n, depth = n + 2 := ⟨depth - 2, by omega⟩
  exact .inr ⟨_, depth, rfl⟩

theorem storageType_isScalar (h : t.isScalar = true) : t.storageType.IsScalar := by
  obtain ⟨kind, hkind, hty⟩ | ⟨base, depth, hty⟩ := storageType_of_isScalar h
  · rw [hty]
    refine .inr ⟨kind.bits, by cases kind <;> decide, ?_⟩
    cases kind <;> first | exact .inl rfl | exact .inr rfl | exact absurd rfl hkind
  · exact .inl (by simp [hty])

theorem storageType_of_not_isScalar (h : t.isScalar = false) (hlin : t.isLinear = false) :
    t.storageType = .void ∨ ∃ name, t.storageType = ⟨.struct name, 0⟩ := by
  obtain ⟨head, depth⟩ := t
  rcases head with kind | ref
  · obtain ⟨rfl, rfl⟩ : depth = 0 ∧ kind = .void := by simpa [isScalar] using h
    exact .inl rfl
  have hdepth : ¬ 1 < depth := of_decide_eq_false h
  have hne : depth ≠ 1 := by
    rintro rfl
    cases hlin
  obtain rfl : depth = 0 := by omega
  exact .inr ⟨_, rfl⟩

end TypeRef

namespace Scalar

variable {t : TypeRef} {x : Scalar}

theorem HasType.isScalar (h : x.HasType t.irType) (hlin : t.isLinear = false) : t.isScalar = true := by
  rw [TypeRef.irType_of_not_linear hlin] at h
  by_contra hnot
  obtain hty | ⟨name, hty⟩ := TypeRef.storageType_of_not_isScalar (Bool.eq_false_iff.2 hnot) hlin
  · rw [hty] at h
    cases h
  · rw [hty] at h
    cases h

theorem zero_hasType (h : t.isScalar = true) :
    (zero t.storageType).HasType t.storageType ∧ storedWord t.storageType (zero t.storageType) = .ok 0 := by
  obtain ⟨kind, hkind, hty⟩ | ⟨base, depth, hty⟩ := TypeRef.storageType_of_isScalar h
  · rw [hty]
    cases kind with
    | void => exact absurd rfl hkind
    | f32 => exact ⟨.single (by decide +kernel), by decide +kernel⟩
    | f64 => exact ⟨.double _, rfl⟩
    | _ => exact ⟨.int (by decide) (by decide), rfl⟩
  · rw [hty]
    exact ⟨.pointer .., rfl⟩

theorem zero_liesAs (h : t.isScalar = true) (m : IR.Module) :
    ∃ size, (zero t.storageType).LiesAs m t.storageType size 0 := by
  obtain ⟨size, word, hlies⟩ := (zero_hasType h).1.liesAs m
  cases hlies.stored.symm.trans (zero_hasType h).2
  exact ⟨size, hlies⟩

end Scalar

/-- Where values of a type are no scalars, none is loaded. -/
theorem loadScalar_of_not_isScalar {t : TypeRef} (h : t.isScalar = false) (hlin : t.isLinear = false) (m : IR.Module)
    (M : Memory) (a : UInt64) : ∃ e, loadScalar m M t.storageType a = .error e := by
  rcases hload : loadScalar m M t.storageType a with e | x
  · exact ⟨e, rfl⟩
  exfalso
  obtain ⟨size, -, hload⟩ := bind_eq_ok hload
  by_cases hsize : 8 < size
  · simp only [if_pos hsize] at hload
    cases hload
  simp only [if_neg hsize] at hload
  obtain ⟨bytes, -, hload⟩ := bind_eq_ok hload
  obtain hty | ⟨name, hty⟩ := TypeRef.storageType_of_not_isScalar h hlin
  · rw [hty] at hload
    cases hload
  · simp_all

end Lowering
