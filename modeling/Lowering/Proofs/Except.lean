import Mathlib.Data.List.Forall2
/-!
# **Steps that may fail, taken apart.** What it takes for a composed step to come to a result
-/

namespace Lowering

open List

variable {ε α β : Type}

/-! ### Members of lists that go together -/

theorem exists_right {R as} {bs : List β} (h : Forall₂ R as bs) {a : α} (ha : a ∈ as) :
    ∃ b ∈ bs, R a b := by
  induction h with
  | nil => cases ha
  | cons hab _ ih =>
    grind

theorem exists_left {as : List α} {bs : List β} (h : Forall₂ R as bs) {b : β} (hb : b ∈ bs) :
    ∃ a ∈ as, R a b :=
  exists_right h.flip hb

theorem forall₂_imp_of_mem {R S : α → β → Prop} {as bs} (h : Forall₂ R as bs)
    (himp : ∀ a ∈ as, ∀ b ∈ bs, R a b → S a b) : Forall₂ S as bs := by
  induction h with
  | nil => exact .nil
  | cons hab _ ih =>
    exact .cons (himp _ (.head _) _ (.head _) hab) (ih fun a ha b hb => himp a (.tail _ ha) b (.tail _ hb))

/-- Of lists that go together the first members of a kind go together, if members that go together are of the same
kind. -/
theorem find?_rel {q0 : α → Bool} {q : β → Bool} (h : Forall₂ (fun b0 b => P b0 b ∧ q b = q0 b0) bs0 bs) :
    Option.Rel P (bs0.find? q0) (bs.find? q) := by
  induction h with
  | nil => exact .none
  | @cons b0 b _ _ hP _ ih =>
    rw [List.find?_cons, List.find?_cons, hP.2]
    cases q0 b0 with
    | true => exact .some hP.1
    | false => exact ih

/-! ### Results -/

theorem ok_bind (a : α) (f : α → Except ε β) : Except.ok a >>= f = f a := rfl

theorem toOption_eq_some {x : Except ε α} : x.toOption = some a ↔ x = .ok a := by
  cases x <;> simp [Except.toOption]

theorem bind_eq_ok {f : α → Except ε β} (h : x >>= f = .ok b) :
    ∃ a, x = .ok a ∧ f a = .ok b := by
  cases x with
  | error => cases h
  | ok a => exact ⟨a, rfl, h⟩

theorem bind_eq_ok_iff {f : α → Except ε β} :
    x >>= f = .ok b ↔ ∃ a, x = .ok a ∧ f a = .ok b := by
  refine ⟨bind_eq_ok, fun ⟨a, hx, hf⟩ => ?_⟩
  rw [hx]
  exact hf

theorem map_eq_ok {x : Except ε α} {b : β} (h : f <$> x = .ok b) : ∃ a, x = .ok a ∧ f a = b := by
  cases x with
  | error => cases h
  | ok a => exact ⟨a, rfl, Except.ok.inj h⟩

instance decidableExistsOk {x : Except ε α} {P : α → Prop} [DecidablePred P] : Decidable (∃ a, x = .ok a ∧ P a) :=
  match x with
  | .ok a => decidable_of_iff (P a) (by simp)
  | .error _ => .isFalse (by simp)

theorem mapM_eq_ok {f : α → Except ε β} {as : List α} (h : as.mapM f = .ok bs) :
    Forall₂ (fun a b => f a = .ok b) as bs := by
  induction as generalizing bs with
  | nil => cases h; exact .nil
  | cons a as ih =>
    rw [mapM_cons] at h
    obtain ⟨b, hb, h⟩ := bind_eq_ok h
    obtain ⟨bs', hbs, h⟩ := bind_eq_ok h
    cases h
    exact .cons hb (ih hbs)

theorem mapM_eq_ok_iff {f : α → Except ε β} {as bs} :
    as.mapM f = .ok bs ↔ Forall₂ (fun a b => f a = .ok b) as bs := by
  refine ⟨mapM_eq_ok, fun h => ?_⟩
  induction h with
  | nil => rfl
  | cons hab _ ih =>
    rw [mapM_cons, hab, ih]
    rfl

theorem exists_of_mem_mapM {f : α → Except ε β} {as : List α} (h : as.mapM f = .ok bs)
    (hb : b ∈ bs) : ∃ a ∈ as, f a = .ok b :=
  exists_left (mapM_eq_ok h) hb

theorem mapM_ok {f : α → Except ε β} {as : List α} (h : ∀ a ∈ as, f a = .ok (g a)) :
    as.mapM f = .ok (as.map g) := by
  induction as with
  | nil => rfl
  | cons a as ih =>
    rw [mapM_cons, h a (.head _), ih fun b hb => h b (.tail _ hb)]
    rfl

end Lowering
