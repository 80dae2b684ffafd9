import Lowering.Body.Path
import Lowering.Proofs.Ensures
/-!
# What a step of the lowering comes to, if it comes to a result

`Attains x s Q` says that `Q` holds of the result of the step `x`, begun in the state `s`, and of the state it leaves.
Of a step that stops with a failure it says nothing; that no promise is broken is said elsewhere (`Secures`).
-/

namespace Lowering

/-! ### The steps that bodies are lowered with -/

namespace Ensures

variable {w : Workspace} {path : Path} {E : Failure → Workspace → Prop}

theorem fresh (h : Q w.fresh { w with fresh := w.fresh + 1 }) : Ensures Work.fresh w Q E := h

theorem noteCopy (h : Q () { w with copied := true }) : Ensures Work.noteCopy w Q E := h

theorem updateScope (h : Q () { w with scope := f w.scope }) : Ensures (Work.updateScope f) w Q E := h

/-- A step on the variables of a path leaves everything else of the path as it is. -/
theorem ofWork {α : Type} {x : Work α} {Q : α → Path → Prop} {E : Failure → Path → Prop}
    (h : Ensures x path.toWorkspace (fun a w => Q a { path with toWorkspace := w })
      fun e w => E e { path with toWorkspace := w }) : Ensures (Build.ofWork x) path Q E := by
  unfold Ensures Build.ofWork at *
  grind

theorem report {d Q E} (h : Q () { path with reports := path.reports ++ [d] }) : Ensures (Build.report d) path Q E := h

end Ensures

/-! ### Steps that come to a result -/

/-- If the step `x` comes to a result when it is begun in `s`, then `Q` holds of it and of the last state. -/
def Attains {σ α : Type} (x : EStateM Failure σ α) (s : σ) (Q : α → σ → Prop) : Prop := Ensures x s Q fun _ _ => True

theorem Ensures.attains {σ α : Type} {x s} {Q : α → σ → Prop} {E}
    (h : Ensures x s Q E) : Attains x s Q :=
  h.mono (fun _ _ _ h => h) fun _ _ _ _ => trivial

namespace Attains

variable {σ α β : Type} {s : σ} {x : EStateM Failure σ α} {Q Q' : α → σ → Prop}

theorem of_ok (h : Attains x s Q) (hx : x s = .ok a s') : Q a s' := Ensures.of_ok h hx

theorem mono (h : Attains x s Q) (hQ : ∀ a s', x s = .ok a s' → Q a s' → Q' a s') : Attains x s Q' :=
  Ensures.mono h hQ fun _ _ _ h => h

theorem self (x : EStateM Failure σ α) (s : σ) : Attains x s fun a s' => x s = .ok a s' := by
  unfold Attains Ensures
  cases x s <;> trivial

theorem and (h : Attains x s Q) (h' : Attains x s Q') : Attains x s fun a s' => Q a s' ∧ Q' a s' :=
  Ensures.mono (Ensures.and h h') (fun _ _ _ h => h) fun _ _ _ _ => trivial

theorem pure (h : Q a s) : Attains (Pure.pure a : EStateM Failure σ α) s Q := h

theorem bind {f : α → EStateM Failure σ β} {Q} (h : Attains x s fun a s' => Attains (f a) s' Q) :
    Attains (x >>= f) s Q :=
  Ensures.bind h

theorem map {f : α → β} {Q} (h : Attains x s fun a s' => Q (f a) s') : Attains (f <$> x) s Q :=
  Ensures.map h

theorem workAbort {w : Workspace} {Q : α → Workspace → Prop} : Attains (Work.abort e) w Q := trivial

theorem reject : Attains (throw (.error cause span) : EStateM Failure σ α) s Q := trivial

theorem check {w : Workspace} {Q : α → Workspace → Prop} (h : ∀ a, answer = .ok a → Q a w) :
    Attains (Work.check answer) w Q := by
  cases answer with
  | error => trivial
  | ok a => exact h a rfl

end Attains

end Lowering
