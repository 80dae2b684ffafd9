/-!
# What a step that changes a state and may fail guarantees

`Ensures x s Q E` says that `x`, begun in the state `s`, either ends with a result and a state that satisfy `Q`, or
fails with an error and a state that satisfy `E`. The lemmas follow the operations that such steps are built from, so a
proof about a step has the shape of the step.
-/

namespace Lowering

/-- Where `x` leads from `s`: `Q` holds of its result and `E` of its failure. -/
def Ensures {ε σ α : Type} (x : EStateM ε σ α) (s : σ) (Q : α → σ → Prop) (E : ε → σ → Prop) : Prop :=
  match x s with
  | .ok a s' => Q a s'
  | .error e s' => E e s'

section Sequence

variable {ε σ α β : Type} {x : EStateM ε σ α} {s s' : σ}

theorem bind_of_ok {a : α} (h : x s = .ok a s') (f : α → EStateM ε σ β) : (x >>= f) s = f a s' := by
  show EStateM.bind x f s = _
  rw [EStateM.bind, h]

theorem bind_of_error {e : ε} (h : x s = .error e s') (f : α → EStateM ε σ β) : (x >>= f) s = .error e s' := by
  show EStateM.bind x f s = _
  rw [EStateM.bind, h]

end Sequence

namespace Ensures

variable {ε σ α β : Type} {s : σ} {x : EStateM ε σ α} {Q R : α → σ → Prop} {E F : ε → σ → Prop}

theorem of_ok (h : Ensures x s Q E) {a : α} {s' : σ} (hx : x s = .ok a s') : Q a s' := by
  simpa only [Ensures, hx] using h

theorem of_eq {a : α} {s' : σ} (hx : x s = .ok a s') (h : Q a s') : Ensures x s Q E := by
  simpa only [Ensures, hx] using h

theorem of_error (h : Ensures x s Q E) {e : ε} {s' : σ} (hx : x s = .error e s') : E e s' := by
  simpa only [Ensures, hx] using h

theorem exists_ok (h : Ensures x s Q E) (hE : ∀ e s', ¬ E e s') : ∃ a s', x s = .ok a s' := by
  cases hx : x s with
  | ok a s' => exact ⟨a, s', rfl⟩
  | error e s' => exact absurd (h.of_error hx) (hE e s')

theorem mono (h : Ensures x s Q E) (hQ : ∀ a s', x s = .ok a s' → Q a s' → R a s')
    (hE : ∀ e s', x s = .error e s' → E e s' → F e s') : Ensures x s R F := by
  unfold Ensures at h ⊢
  grind

theorem and (hQ : Ensures x s Q E) (hR : Ensures x s R F) :
    Ensures x s (fun a s' => Q a s' ∧ R a s') fun e s' => E e s' ∧ F e s' := by
  unfold Ensures at hQ hR ⊢
  grind

theorem pure {a : α} (h : Q a s) : Ensures (Pure.pure a : EStateM ε σ α) s Q E := h

theorem throw {e : ε} (h : E e s) : Ensures (MonadExcept.throw e : EStateM ε σ α) s Q E := h

/-- One step after another: the second is judged wherever the first can lead. -/
theorem bind {f : α → EStateM ε σ β} {Q} (h : Ensures x s (fun a s' => Ensures (f a) s' Q E) E) :
    Ensures (x >>= f) s Q E := by
  unfold Ensures
  cases hx : x s with
  | ok =>
    rw [bind_of_ok hx]
    exact h.of_ok hx
  | error =>
    rw [bind_of_error hx]
    exact h.of_error hx

theorem map {f : α → β} {Q} (h : Ensures x s (fun a s' => Q (f a) s') E) : Ensures (f <$> x) s Q E :=
  bind h

theorem tryCatch (h : Ensures x s Q fun e s' => Ensures (handle e) s' Q E) :
    Ensures (MonadExcept.tryCatch x handle) s Q E := by
  show match EStateM.tryCatch x handle s with
    | .ok a s' => Q a s'
    | .error e s' => E e s'
  unfold EStateM.tryCatch
  cases hx : x s with
  | ok => exact h.of_ok hx
  | error => exact h.of_error hx

theorem get {Q} (h : Q s s) : Ensures (MonadState.get : EStateM ε σ σ) s Q E := h

theorem set {t : σ} {Q} (h : Q ⟨⟩ t) : Ensures (MonadStateOf.set t : EStateM ε σ PUnit) s Q E := h

theorem modify {f Q} (h : Q ⟨⟩ (f s)) : Ensures (modify f : EStateM ε σ PUnit) s Q E := h

end Ensures

end Lowering
