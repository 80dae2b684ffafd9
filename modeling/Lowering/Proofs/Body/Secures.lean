import Lowering.Proofs.Blames
import Lowering.Proofs.Body.Attains
/-!
# What a step of the lowering promises

`Secures x s Q` says that the step `x`, begun in the state `s`, keeps every promise of the lowering: it may stop with an
error in the program, but never with an `InternalError`, and if it comes to an end then `Q` holds of its result and of
the state it leaves. Everything that is said about the lowering is said in this form, so the absence of internal errors
is proved along with the properties that exclude them.
-/

namespace Lowering

/-- Whether a failure is an error in the program. -/
def Failure.IsDiagnostic : Failure → Prop
  | .diagnostic d => d.isError = true
  | .internal _ => False

/-- The step `x` breaks no promise when it is begun in `s`, and `Q` holds of its result and its last state. -/
def Secures {σ α : Type} (x : EStateM Failure σ α) (s : σ) (Q : α → σ → Prop) : Prop :=
  Ensures x s Q fun e _ => e.IsDiagnostic

namespace Secures

variable {σ α β : Type} {s : σ} {x : EStateM Failure σ α} {Q R : α → σ → Prop}

theorem mono (h : Secures x s Q) (hQR : ∀ a s', x s = .ok a s' → Q a s' → R a s') : Secures x s R :=
  Ensures.mono h hQR fun _ _ _ he => he

theorem of_ensures (h : Ensures x s Q E) (hE : ∀ e s', ¬ E e s') : Secures x s Q :=
  h.mono (fun _ _ _ h => h) fun e s' _ he => absurd he (hE e s')

theorem pure (h : Q a s) : Secures (Pure.pure a : EStateM Failure σ α) s Q := h

theorem bind {f : α → EStateM Failure σ β} {Q} (h : Secures x s fun a s' => Secures (f a) s' Q) :
    Secures (x >>= f) s Q :=
  Ensures.bind h

theorem map {f : α → β} {Q} (h : Secures x s fun a s' => Q (f a) s') : Secures (f <$> x) s Q :=
  Ensures.map h

theorem reject : Secures (throw (.error cause span) : EStateM Failure σ α) s Q := rfl

/-- A question that the program may have answered wrongly: only a right answer goes on. -/
theorem check {w : Workspace} {Q : α → Workspace → Prop} (hblames : Blames answer) (h : ∀ a, answer = .ok a → Q a w) :
    Secures (Work.check answer) w Q := by
  cases answer with
  | error d => exact (hblames d rfl).1
  | ok a => exact h a rfl

end Secures

end Lowering
