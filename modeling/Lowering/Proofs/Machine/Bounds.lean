import Lowering.Proofs.Machine.Progress
/-!
# When an access to memory fails

The end of a range of bytes is computed as a word. Where it is one, an access fails exactly if the range cannot be used;
where it is not, the machine breaks. Either way memory stays as it was.
-/

namespace Lowering

namespace Memory

/-- What an access to a range of bytes fails with. -/
inductive Refuses (M : Memory) (address : UInt64) (count : Nat) : EvalError → Prop where
  | outside (houtside : ¬ M.Has address.toNat count) (hend : guard ≤ address.toNat → address.toNat + count < 2 ^ 64) :
    Refuses M address count (.outOfBounds address count)
  | endless (hguard : guard ≤ address.toNat) (hend : 2 ^ 64 ≤ address.toNat + count) : Refuses M address count .trap

variable {M : Memory} {address : UInt64} {count : Nat} {e : EvalError}

theorem check_eq : M.check address count =
    if address.toNat < guard then .error (.outOfBounds address count)
    else if 2 ^ 64 ≤ address.toNat + count then .error .trap
    else if M.size < address.toNat + count then .error (.outOfBounds address count)
    else .ok () := by
  unfold check fit
  by_cases hguard : address.toNat < guard
  · rw [if_pos hguard, if_pos hguard]
    rfl
  by_cases hend : address.toNat + count < 0x10000000000000000
  · rw [if_pos hend, if_neg (show ¬ 2 ^ 64 ≤ address.toNat + count from Nat.not_le.2 hend)]
    rfl
  · rw [if_neg hend, if_pos (show 2 ^ 64 ≤ address.toNat + count from Nat.le_of_not_lt hend)]
    rfl

/-- **The check is exact.** -/
theorem check_eq_error_iff : M.check address count = .error e ↔ M.Refuses address count e := by
  rw [check_eq]
  constructor
  · intro h
    split_ifs at h with hguard hend hsize <;> cases h
    · exact .outside (fun hhas => Nat.not_le.2 hguard hhas.guarded) fun h => absurd hguard (Nat.not_lt.2 h)
    · exact .endless (Nat.le_of_not_lt hguard) hend
    · exact .outside (fun hhas => Nat.not_le.2 hsize hhas.allocated) fun _ => Nat.lt_of_not_le hend
  intro h
  cases h with
  | outside houtside hend =>
    by_cases hguard : address.toNat < guard
    · rw [if_pos hguard]
    have hguard' := Nat.le_of_not_lt hguard
    rw [if_neg hguard, if_neg (Nat.not_le.2 (hend hguard')), if_pos]
    exact Nat.lt_of_not_le fun h => houtside ⟨hguard', h⟩
  | endless hguard hend => simp_all

theorem read_eq_error_iff : M.read address count = .error e ↔ M.Refuses address count e := by
  rw [← check_eq_error_iff, read]
  cases M.check address count <;> simp [bind, Except.bind, pure, Except.pure]

end Memory

section Errors

variable {m : IR.Module} {M M' : Memory} {e : EvalError} {address : UInt64}

theorem Effect.write_eq_error_iff :
    Effect.write address bytes M = .error e M' ↔ M.Refuses address bytes.length e ∧ M' = M := by
  rw [← Memory.check_eq_error_iff]
  show ((liftM (M.check address bytes.length) : Effect Unit) >>= fun _ => _) M = _ ↔ _
  cases M.check address bytes.length with
  | ok =>
    constructor
    · rintro ⟨⟩
    · rintro ⟨⟨⟩, -⟩
  | error => simp [Effect.lift_bind_error rfl, eq_comm]

/-- The source is checked first, and bytes are written only if both ranges can be used. -/
theorem Effect.copy_eq_error_iff :
    Effect.copy destination source count M = .error e M' ↔
      (M.Refuses source count e ∨ (∀ e', ¬ M.Refuses source count e') ∧ M.Refuses destination count e) ∧ M' = M := by
  have hrefuses {e} : M.read source count = .error e ↔ _ := Memory.read_eq_error_iff
  simp only [← hrefuses]
  show ((liftM (M.read source count) : Effect _) >>= fun bytes => Effect.write destination bytes) M = _ ↔ _
  rcases hread : M.read source count with _ | bytes
  · simp [Effect.lift_bind_error rfl, eq_comm]
  obtain ⟨-, -, hbytes⟩ := bind_eq_ok hread
  cases hbytes
  rw [Effect.lift_bind rfl, write_eq_error_iff]
  simp

variable {ty : IR.Ty} {size : Nat} (hty : ty.IsScalar) (hsize : sizeOf m ty = .ok size)
include hty hsize

theorem loadScalar_eq_error_iff : loadScalar m M ty address = .error e ↔ M.Refuses address size e := by
  obtain ⟨scalar, hload⟩ := loadScalar_eq_map hty hsize
  rw [hload, ← Memory.read_eq_error_iff]
  cases M.read address size <;> simp

theorem storeScalar_eq_error_iff :
    storeScalar m ty address value M = .error e M' ↔ M.Refuses address size e ∧ M' = M := by
  obtain ⟨_, hsmall, hsize'⟩ := sizeOf_scalar m hty
  cases hsize.symm.trans hsize'
  obtain ⟨word, hword⟩ := storedWord_scalar hty value
  rw [storeScalar, Effect.lift_bind hsize, Effect.lift_bind hword]
  show ((liftM (M.check address size) : Effect Unit) >>= fun _ => _) M = _ ↔ _
  rcases hcheck : M.check address size with _ | _
  · simp [Effect.lift_bind_error rfl, ← Memory.check_eq_error_iff, hcheck, eq_comm]
  rw [if_neg (Nat.not_lt.2 hsmall)]
  exact Effect.write_eq_error_iff.trans (by rw [Word.length_toBytes])

end Errors

/-- The byte copy is done at once and takes nothing from the budget. -/
theorem Machine.call_memcpy_eq_error_iff {machine machine' : Machine} :
    machine.call m IR.memcpy (destination :: source :: count :: more) = (.error e, machine') ↔
      Effect.copy destination.word source.word count.word.toNat machine.memory = .error e machine'.memory ∧
        machine'.budget = machine.budget := by
  obtain ⟨M', budget'⟩ := machine'
  rw [Machine.call, beginCall, if_pos rfl]
  simp only [bind, EStateM.bind]
  cases Effect.copy destination.word source.word count.word.toNat machine.memory with
  | ok => simp [pure, EStateM.pure]
  | error => simp [eq_comm, and_assoc]

/-- **Accesses fail exactly where they must**: `load` and `store` of `size` bytes at `address`, and `IR.memcpy` of
`count` bytes, which looks at `source` first. They fail with `outOfBounds` if the range is not in memory, or with `trap`
if its end is no word (`Memory.Refuses`), and change nothing then. -/
theorem access_eq_error_iff (m : IR.Module) (machine : Machine) {ty size} (hty : ty.IsScalar)
    (hsize : sizeOf m ty = .ok size) (address : UInt64) (value destination source count : Scalar) (more : List Scalar)
    (e : EvalError) :
    (machine.load m ty address = .error e ↔ machine.memory.Refuses address size e) ∧
    (∀ M, storeScalar m ty address value machine.memory = .error e M ↔
      machine.memory.Refuses address size e ∧ M = machine.memory) ∧
    ∀ machine', machine.call m IR.memcpy (destination :: source :: count :: more) = (.error e, machine') ↔
      (machine.memory.Refuses source.word count.word.toNat e ∨
        (∀ e', ¬ machine.memory.Refuses source.word count.word.toNat e') ∧
          machine.memory.Refuses destination.word count.word.toNat e) ∧ machine' = machine := by
  refine ⟨loadScalar_eq_error_iff hty hsize, fun M => storeScalar_eq_error_iff hty hsize, fun machine' => ?_⟩
  obtain ⟨M, budget⟩ := machine
  obtain ⟨M', budget'⟩ := machine'
  rw [Machine.call_memcpy_eq_error_iff, Effect.copy_eq_error_iff, and_assoc, Machine.mk.injEq]

/-- Memory ends at address 8 on a fresh machine: eight bytes can neither be read there, nor set, nor copied from
there. -/
theorem access_eq_error_iff_fresh : Machine.fresh.load ⟨[], []⟩ (.int 64) 8 = .error (.outOfBounds 8 8) ∧
    storeScalar ⟨[], []⟩ (.int 64) 8 (.int 0) Machine.fresh.memory = .error (.outOfBounds 8 8) Machine.fresh.memory ∧
    Machine.fresh.call ⟨[], []⟩ IR.memcpy [.int 8, .int 8, .int 8] = (.error (.outOfBounds 8 8), Machine.fresh) := by
  have hrefuses : Machine.fresh.memory.Refuses 8 8 (.outOfBounds 8 8) :=
    .outside (fun h => absurd h.allocated (by decide)) fun _ => by decide
  have hscalar : IR.Ty.IsScalar (.int 64) := .inr ⟨64, le_rfl, .inl rfl⟩
  obtain ⟨hload, hstore, hcopy⟩ :=
    access_eq_error_iff ⟨[], []⟩ Machine.fresh hscalar rfl 8 (.int 0) (.int 8) (.int 8) (.int 8) [] (.outOfBounds 8 8)
  exact ⟨hload.2 hrefuses, (hstore _).2 ⟨hrefuses, rfl⟩, (hcopy _).2 ⟨.inl hrefuses, rfl⟩⟩

/-- Nothing can be read close to the largest word, and trying it breaks the machine. -/
theorem fresh_load_traps : ¬ Machine.fresh.memory.Has 18446744073709551612 8 ∧
    Machine.fresh.load ⟨[], []⟩ (.int 64) 18446744073709551612 = .error .trap := by
  refine ⟨fun h => absurd h.allocated (by decide), ?_⟩
  exact (loadScalar_eq_error_iff (.inr ⟨64, le_rfl, .inl rfl⟩) rfl).2 (.endless (by decide) (by decide))

end Lowering
