import Lowering.Proofs.Machine.Memory
import Lowering.Proofs.Machine.Run
/-!
# Straight code, register by register and word by word

Running is deterministic: code without jumps comes to one state only, and it does not both run and fail (`Runs.unique`,
`Runs.not_fails`). What single instructions do is said here of scalars and memory as the machine has them, whatever
values of the language they stand for.
-/

namespace Lowering

open IR (Argument Code Local)

/-! ### Running is deterministic -/

namespace Moment

variable {m : IR.Module} {s s1 s2 : Moment} {result : Except EvalError (Option Scalar)}

theorem Step.unique (h1 : Step m s s1) (h2 : Step m s s2) : s1 = s2 := by
  obtain ⟨i, rest, hrest, hstep⟩ := h1
  obtain ⟨i', rest', hrest', hstep'⟩ := h2
  cases hrest.symm.trans hrest'
  rw [hstep] at hstep'
  obtain ⟨frame, callers, memory⟩ := s1
  cases hstep'
  rfl

theorem Step.rest_ne_nil (h : Step m s s1) : s.frame.rest ≠ [] := by
  obtain ⟨i, rest, hrest, -⟩ := h
  simp [hrest]

theorem Steps.unique (h1 : Steps m s s1) (h2 : Steps m s s2) (hrest1 : s1.frame.rest = [])
    (hrest2 : s2.frame.rest = []) : s1 = s2 := by
  induction h1 with
  | refl s =>
    cases h2 with
    | refl => rfl
    | head hstep => exact absurd hrest1 hstep.rest_ne_nil
  | head hstep _ ih =>
    rcases h2 with _ | ⟨hstep', hsteps'⟩
    · exact absurd hrest2 hstep.rest_ne_nil
    cases hstep.unique hstep'
    exact ih hsteps' hrest1

theorem Steps.not_halts (h : Steps m s s1) (hrest1 : s1.frame.rest = []) : ¬ Halts m s result := by
  rintro ⟨last, memory, hsteps, i, rest, hrest, hlast⟩
  induction h with
  | refl s =>
    cases hsteps with
    | refl =>
      simp_all
    | head hstep => exact hstep.rest_ne_nil hrest1
  | head hstep _ ih =>
    rcases hsteps with _ | ⟨hstep', hsteps'⟩
    · obtain ⟨i', rest', hrest', hstep⟩ := hstep
      grind
    cases hstep.unique hstep'
    exact ih hrest1 hsteps'

end Moment

namespace Site

variable {site : Site} {code : Code} {R R1 R2 : Registers} {M M1 M2 : Memory} {e : EvalError}

/-- Code without jumps comes to one state. -/
theorem Runs.unique (h1 : site.Runs code R M R1 M1) (h2 : site.Runs code R M R2 M2) : R1 = R2 ∧ M1 = M2 := by
  have hsame := (h1 []).unique (h2 []) rfl rfl
  exact ⟨congrArg (fun s => s.frame.registers) hsame, congrArg Moment.memory hsame⟩

theorem Runs.not_fails (h : site.Runs code R M R1 M1) : ¬ site.Fails code R M e :=
  fun hfails => (h []).not_halts rfl (hfails [])

end Site

/-! ### Single instructions -/

/-- The scalar of a type that lies at an address. -/
def Registers.load (R : Registers) (m : IR.Module) (M : Memory) (ty : IR.Ty) (address : Argument) :
    Except EvalError Scalar := do
  let a ← R.argument address
  loadScalar m M ty a.word

theorem Registers.load_eq_ok {R : Registers} :
    R.load m M ty address = .ok x ↔ ∃ a, R.argument address = .ok a ∧ loadScalar m M ty a.word = .ok x := by
  unfold Registers.load
  rw [bind_eq_ok_iff]

namespace Site

variable {site : Site} {R : Registers} {M M' : Memory} {r : Local} {ty : IR.Ty} {address : Argument} {x : Scalar}
  {e : EvalError}

theorem Runs.fetch (h : R.load site.program M ty address = .ok x) :
    site.Runs [.set r (.load ty address)] R M (R.set r x) M := by
  obtain ⟨a, haddr, hload⟩ := Registers.load_eq_ok.1 h
  refine .set fun rest => ?_
  exact (Effect.lift_bind haddr _ M).trans (Effect.lift_bind hload _ M)

theorem Fails.fetch (h : R.load site.program M ty address = .error e) :
    site.Fails [.set r (.load ty address)] R M e := by
  have heval (rest : Code) : evaluate site.program (site.holding R rest) (.load ty address) M = .error e M := by
    unfold Registers.load at h
    rcases haddr : R.argument address with e' | a
    · rw [haddr] at h
      cases h
      exact Effect.lift_bind_error haddr _ M
    rw [haddr] at h
    exact (Effect.lift_bind haddr _ M).trans (Effect.lift_bind_error h _ M)
  exact .set heval

theorem Runs.phi (hprev : site.frame.previous = some label)
    (hsrc : sources.find? (fun source => some source.1 == some label) = some (label, o)) (ho : R.operand ty o = .ok x) :
    site.Runs [.set r (.phi ty sources)] R M (R.set r x) M := by
  refine .set fun rest => ?_
  have hcame : (site.holding R rest).previous = some label := hprev
  rw [evaluate, hcame, hsrc]
  exact Effect.lift_bind ho _ M

theorem Runs.keep (haddr : R.argument address = .ok a) (ho : R.operand ty o = .ok x)
    (hstore : storeScalar site.program ty a.word x M = .ok () M') : site.Runs [.store address ⟨ty, o⟩] R M R M' := by
  refine .of_step rfl fun rest => ?_
  refine (Effect.lift_bind haddr _ M).trans ?_
  cases o with
  | bytes => cases ho
  | _ =>
    refine (Effect.lift_bind ho _ M).trans ?_
    simp only [bind, EStateM.bind, hstore]
    rfl

theorem Fails.keep (haddr : R.argument address = .ok a) (ho : R.operand ty o = .ok x)
    (hstore : storeScalar site.program ty a.word x M = .error e M') : site.Fails [.store address ⟨ty, o⟩] R M e := by
  have hstep (rest : Code) :
      step site.program (site.holding R rest) site.callers (.store address ⟨ty, o⟩) M = .error e M' := by
    refine (Effect.lift_bind haddr _ M).trans ?_
    cases o with
    | bytes => cases ho
    | _ =>
      refine (Effect.lift_bind ho _ M).trans ?_
      simp [bind, EStateM.bind, hstore]
  exact .of_step rfl hstep

theorem Runs.alloc (hsize : sizeOf site.program ty = .ok size) (hM : M.size + size ≤ Memory.limit) :
    site.Runs [.set r (.alloc ty)] R M (R.set r (.int (UInt64.ofNat M.size))) (M.grow (max size 1)) := by
  have hallocate : Effect.allocate size M = .ok (UInt64.ofNat M.size) (M.grow (max size 1)) := by
    have hlimit : Memory.limit < 0x10000000000000000 := by decide
    rw [Effect.allocate_eq, if_neg (by omega), if_neg (by omega)]
  refine .set fun rest => ?_
  refine (Effect.lift_bind hsize _ M).trans ?_
  simp only [bind, EStateM.bind, hallocate]
  rfl

theorem Fails.alloc_full (hsize : sizeOf site.program ty = .ok size) (hfull : Memory.limit < M.size + size)
    (hfit : M.size + size < 0x10000000000000000) : site.Fails [.set r (.alloc ty)] R M .outOfMemory := by
  have hallocate : Effect.allocate size M = .error .outOfMemory M := by
    rw [Effect.allocate_eq, if_neg (Nat.not_le.2 hfit), if_pos hfull]
  have heval (rest : Code) : evaluate site.program (site.holding R rest) (.alloc ty) M = .error .outOfMemory M := by
    refine (Effect.lift_bind hsize _ M).trans ?_
    simp [bind, EStateM.bind, hallocate]
  exact .set heval

theorem Fails.alloc (h : ∀ size, sizeOf site.program ty = .ok size → Memory.limit < M.size + size) :
    ∃ e, site.Fails [.set r (.alloc ty)] R M e := by
  have heval : ∃ e, ∀ rest, evaluate site.program (site.holding R rest) (.alloc ty) M = .error e M := by
    simp only [evaluate]
    rcases hsize : sizeOf site.program ty with e | size
    · exact ⟨e, fun _ => Effect.lift_bind_error rfl _ M⟩
    have hallocate : ∃ e, Effect.allocate size M = .error e M := by
      rw [Effect.allocate_eq]
      by_cases hfit : 0x10000000000000000 ≤ M.size + size
      · exact ⟨_, if_pos hfit⟩
      · simp [if_neg hfit, if_pos (h size hsize)]
    obtain ⟨e, hallocate⟩ := hallocate
    refine ⟨e, fun _ => (Effect.lift_bind rfl _ M).trans ?_⟩
    simp [bind, EStateM.bind, hallocate]
  obtain ⟨e, heval⟩ := heval
  exact ⟨e, .set heval⟩

end Site

end Lowering
