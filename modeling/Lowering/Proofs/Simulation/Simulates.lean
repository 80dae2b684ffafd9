import Lowering.Proofs.Meaning.Evaluate
import Lowering.Proofs.Simulation.Actions
/-!
# Code that does what an evaluation does

`site.Simulates x code rest R M Q` says that `code`, run with registers `R` and memory `M` in front of `rest`, comes out
where the evaluation `x` does: with the same failure, or with a result that `Q` relates to the registers and the memory
behind it. The bytes that `x` counts are the bytes that are allocated, so running out of memory is a failure like any
other. Evaluations that get stuck are simulated by nothing.

The lemmas follow the way evaluations are put together: what one is followed by is simulated behind the code of the
first.
-/

namespace Lowering

open IR (Code Local)
open Meaning

/-- Running code does what an evaluation does, and `Q` holds behind it. -/
def Site.Simulates {α : Type} (site : Site) (x : Eval α) (code rest : Code) (R : Registers) (M : Memory)
    (Q : α → Registers → Memory → Prop) : Prop :=
  Ensures x M.size
    (fun a used => ∃ R' M', M'.size = used ∧
      Moment.Steps site.program ⟨site.holding R (code ++ rest), site.callers, M⟩
        ⟨site.holding R' rest, site.callers, M'⟩ ∧ Q a R' M')
    fun stop _ => ∃ e, stop = .fails e ∧
      Moment.Halts site.program ⟨site.holding R (code ++ rest), site.callers, M⟩ (.error e)

namespace Site.Simulates

variable {α β : Type} {site : Site} {x : Eval α} {f : α → Eval β} {code more rest : Code} {R R' : Registers}
  {M M' : Memory} {P : β → Registers → Memory → Prop} {Q Q' : α → Registers → Memory → Prop}

theorem mono (h : site.Simulates x code rest R M Q) (hQ : ∀ a R' M', Q a R' M' → Q' a R' M') :
    site.Simulates x code rest R M Q' :=
  Ensures.mono h (fun a _ _ hok => by
    grind) fun _ _ _ herr => herr

/-- An evaluation and what depends on it are simulated one behind the other. -/
theorem bind (h : site.Simulates x code (more ++ rest) R M Q)
    (hf : ∀ a R' M', Q a R' M' → site.Simulates (f a) more rest R' M' P) :
    site.Simulates (x >>= f) (code ++ more) rest R M P := by
  unfold Simulates
  rw [List.append_assoc]
  refine Ensures.bind (Ensures.mono h (fun a used _ hok => ?_) fun stop used _ herr => herr)
  obtain ⟨R', M', rfl, hsteps, hpost⟩ := hok
  refine Ensures.mono (hf a R' M' hpost) (fun b _ _ hok' => ?_) fun stop _ _ herr => ?_
  · obtain ⟨R'', M'', hsize, hsteps', hpost'⟩ := hok'
    exact ⟨R'', M'', hsize, hsteps.trans hsteps', hpost'⟩
  · obtain ⟨e, rfl, hhalts⟩ := herr
    exact ⟨e, rfl, hsteps.halts hhalts⟩

theorem pure (hQ : Q a R M) : site.Simulates (Pure.pure a) [] rest R M Q := ⟨R, M, rfl, .refl _, hQ⟩

/-- What is done with a result needs no code. -/
theorem bind_pure (h : site.Simulates x code rest R M Q)
    (hf : ∀ a R' M', Q a R' M' → site.Simulates (f a) [] rest R' M' P) : site.Simulates (x >>= f) code rest R M P := by
  have hbind : site.Simulates (x >>= f) (code ++ []) rest R M P := h.bind hf
  rwa [List.append_nil] at hbind

theorem of_runs (hruns : site.Runs code R M R' M') (hsize : M'.size = M.size) (hQ : Q a R' M') :
    site.Simulates (Pure.pure a) code rest R M Q := ⟨R', M', hsize, hruns rest, hQ⟩

theorem of_fails (h : site.Fails code R M e) : site.Simulates (throw (.fails e) : Eval α) code rest R M Q :=
  ⟨e, rfl, h rest⟩

theorem before (hruns : site.Runs code R M R' M') (hsize : M'.size = M.size) (h : site.Simulates x more rest R' M' Q) :
    site.Simulates x (code ++ more) rest R M Q := by
  have hpure : site.Simulates (Pure.pure ()) code (more ++ rest) R M fun _ R'' M'' => R'' = R' ∧ M'' = M' :=
    of_runs hruns hsize ⟨rfl, rfl⟩
  refine hpure.bind (f := fun _ => x) fun _ R'' M'' hpost => ?_
  simp [*]

theorem behind (h : site.Simulates x code (more ++ rest) R M fun a R' M' => ∃ R'' M'', M''.size = M'.size ∧
      site.Runs more R' M' R'' M'' ∧ Q a R'' M'') : site.Simulates x (code ++ more) rest R M Q := by
  have hbind : site.Simulates (x >>= Pure.pure) (code ++ more) rest R M Q := h.bind fun a R' M' hpost => by
    obtain ⟨R'', M'', hsize, hruns, hpost⟩ := hpost
    exact of_runs hruns hsize hpost
  simp_all

end Site.Simulates

/-! ### Memory -/

section Reserve

variable {site : Site} {R : Registers} {M : Memory} {r : Local} {t : TypeRef} {size : Nat} {rest : Code}

theorem evaluate_alloc {m frame ty} (hsize : sizeOf m ty = Memory.fit size) :
    evaluate m frame (.alloc ty) M =
      if 0x10000000000000000 ≤ M.size + size then .error .trap M
      else if Memory.limit < M.size + size then .error .outOfMemory M
      else .ok (.done (.address M.size)) (M.grow (max size 1)) := by
  rw [evaluate, hsize]
  by_cases hfit : size < 0x10000000000000000
  · rw [Effect.lift_bind (Memory.fit_of_lt hfit)]
    simp only [bind, EStateM.bind, Effect.allocate_eq]
    by_cases htrap : 0x10000000000000000 ≤ M.size + size
    · rw [if_pos htrap, if_pos htrap]
    by_cases hfull : Memory.limit < M.size + size
    · simp [if_neg htrap, if_pos hfull]
    · rw [if_neg htrap, if_neg htrap, if_neg hfull, if_neg hfull]
      rfl
  · have hnone : Memory.fit size = .error .trap := by rw [Memory.fit, if_neg hfit]
    rw [Effect.lift_bind_error hnone, if_pos (by omega)]

/-- **Taking memory** is allocating it. -/
theorem Site.Simulates.reserve {setting : Setting} (hlimit : setting.limit = some Memory.limit)
    (hc : setting.catalog.Sound) (hm : setting.catalog.DeclaredIn site.program) (ht : setting.catalog.Usable t)
    (hsize : setting.catalog.sizeOf? t = some size) {Q}
    (hQ : M.size + size ≤ Memory.limit → Q () (R.set r (.address M.size)) (M.grow (max size 1))) :
    site.Simulates (setting.reserve t) [.set r (.alloc t.storageType)] rest R M Q := by
  have hstor : sizeOf site.program t.storageType = Memory.fit size := by
    rw [Catalog.sizeOf_storageType hc hm ht, hsize]
    rfl
  have heval (rest : Code) := @evaluate_alloc M size site.program (site.holding R rest) _ hstor
  unfold Site.Simulates Ensures
  rw [Setting.reserve_eq hlimit hsize]
  by_cases htrap : 0x10000000000000000 ≤ M.size + size
  · simp only [if_pos htrap] at heval ⊢
    exact ⟨.trap, rfl, Site.Fails.set heval rest⟩
  by_cases hfull : Memory.limit < M.size + size
  · simp only [if_neg htrap, if_pos hfull] at heval ⊢
    exact ⟨.outOfMemory, rfl, Site.Fails.set heval rest⟩
  · simp only [if_neg htrap, if_neg hfull] at heval ⊢
    exact ⟨_, _, Memory.size_grow M _, Site.Runs.set heval rest, hQ (Nat.le_of_not_lt hfull)⟩

end Reserve

end Lowering
