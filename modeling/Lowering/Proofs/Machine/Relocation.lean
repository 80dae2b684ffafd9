import Lowering.Proofs.Machine.History
import Lowering.Proofs.Machine.Layout
/-!
# A run does not depend on where its memory begins

Two runs of the same code go side by side, one on a machine that has not run yet and one on a machine whose memory is
already in use. What the second one allocates lies further up by the same distance all the time (`Memory.Moved`), and is
blank at first as well. Types tell addresses from numbers: an address of the second run is further up by the distance,
and every number is the same (`Likeness.moved`). Where code is direct, no address lies in memory, so that bytes are the
same too.

The first run is known not to get stuck, and to stay within its memory. So the second one does what it does, unless one
of them comes to the end of its memory or its budget (`Machine.call_eq_runFresh`).
-/

namespace Lowering

open IR (Argument Module Setting Ty)

/-! ### Memory -/

/-- Memory whose part that is not out of bounds lies further up in another one. -/
structure Memory.Moved (distance : Nat) (M N : Memory) : Prop where
  guarded : guard ≤ M.size
  size : N.size = M.size + distance
  limited : N.size ≤ limit + 1
  bytes : ∀ a, guard ≤ a → a < M.size → N.byteAt (a + distance) = M.byteAt a

namespace Memory.Moved

variable {distance : Nat} {M N : Memory} {a b : UInt64} {count : Nat}

theorem start (hN : N.Proper) : Memory.empty.Moved (N.size - guard) N := by
  have hsize : Memory.empty.size = guard := by
    rfl
  have hguarded := hN.guarded
  exact ⟨by rw [hsize], by rw [hsize]; omega, hN.limited, fun a ha hsize' => by omega⟩

variable (h : M.Moved distance N)
include h

theorem proper : M.Proper ∧ N.Proper := by
  have hguarded := h.guarded
  have hsize := h.size
  have hlimited := h.limited
  exact ⟨⟨hguarded, by omega⟩, by omega, hlimited⟩

theorem has (hhas : M.Has a.toNat count) (ha : b.toNat = a.toNat + distance) : N.Has b.toNat count := by
  have hguarded := hhas.guarded
  have hallocated := hhas.allocated
  have hsize := h.size
  exact ⟨by omega, by omega⟩

theorem slice (hhas : M.Has a.toNat count) (ha : b.toNat = a.toNat + distance) :
    N.slice b.toNat count = M.slice a.toNat count := by
  rw [ha]
  have hguarded := hhas.guarded
  have hallocated := hhas.allocated
  generalize a.toNat = start at hguarded hallocated
  clear ha hhas
  induction count generalizing start with
  | zero => rfl
  | succ count ih =>
    rw [Memory.slice, Memory.slice, h.bytes start hguarded (by omega), Nat.add_right_comm,
      ih (start + 1) (by omega) (by omega)]

theorem patch {bytes} (hhas : M.Has a.toNat bytes.length)
    (ha : b.toNat = a.toNat + distance) : (M.patch a.toNat bytes).Moved distance (N.patch b.toNat bytes) := by
  have hallocated := hhas.allocated
  have hsize := h.size
  refine ⟨by rw [size_patch]; exact h.guarded, by simp_all, by rw [size_patch]; exact h.limited,
    fun i hguarded hi => ?_⟩
  rw [size_patch] at hi
  rw [byteAt_patch _ _ _ hallocated, byteAt_patch _ _ _ (by omega), h.bytes i hguarded hi]
  grind

theorem grow (hlimit : N.size + count ≤ limit + 1) : (M.grow count).Moved distance (N.grow count) := by
  have hsize := h.size
  refine ⟨by rw [size_grow]; have := h.guarded; omega, by rw [size_grow, size_grow]; omega, by rwa [size_grow],
    fun a hguarded ha => ?_⟩
  rw [byteAt_grow, byteAt_grow]
  by_cases hold : a < M.size
  · exact h.bytes a hguarded hold
  · -- What was just allocated is blank in both.
    rw [byteAt_of_size_le (by omega), byteAt_of_size_le (by omega)]

end Memory.Moved

/-! ### Steps side by side -/

/-- Of the two runs one has its memory further up, and no address in it. -/
def Likeness.moved (env : Setting) (m : Module) (distance : Nat) : Likeness env m True where
  memory := Memory.Moved distance
  address a b := b.toNat = a.toNat + distance
  number _ s t := t = s
  uneven := True
  number_refl _ _ := rfl

section Effects

variable {env : Setting} {m : Module} {distance : Nat} {M N : Memory} {a b : UInt64} {count : Nat} {ty : Ty}
  (hM : M.Moved distance N)
include hM

theorem Effect.write_moved (hhas : M.Has a.toNat bytes.length) (ha : b.toNat = a.toNat + distance) :
    (Likeness.moved env m distance).Both (fun _ _ _ => True) (Effect.write a bytes) M (Effect.write b bytes) N := by
  unfold Likeness.Both
  rw [Effect.write_eq hM.proper.1 hhas, Effect.write_eq hM.proper.2 (hM.has hhas ha)]
  exact .ok (by rw [Memory.size_patch]) (hM.patch hhas ha) trivial

theorem Effect.copy_moved (hhas : M.Has a.toNat count) (ha : b.toNat = a.toNat + distance)
    (hhas' : M.Has a'.toNat count) (ha' : b'.toNat = a'.toNat + distance) :
    (Likeness.moved env m distance).Both (fun _ _ _ => True) (Effect.copy a' a count) M (Effect.copy b' b count) N := by
  unfold Likeness.Both
  rw [Effect.copy_eq hM.proper.1 hhas hhas', Effect.copy_eq hM.proper.2 (hM.has hhas ha) (hM.has hhas' ha'),
    hM.slice hhas ha]
  exact .ok (by rw [Memory.size_patch]) (hM.patch (by rwa [Memory.length_slice]) ha') trivial

/-- What is allocated lies further up, and there may be no room for it there. -/
theorem Effect.allocate_moved (count : Nat) :
    (Likeness.moved env m distance).Both (fun a M' b => M'.Has a.toNat count ∧ b.toNat = a.toNat + distance)
      (Effect.allocate count) M (Effect.allocate count) N := by
  have hsize := hM.size
  have hguarded := hM.guarded
  have hlimited : N.size < 2 ^ 64 := hM.limited.trans_lt (by decide)
  have hlimit : Memory.limit + Memory.limit + 1 < 0x10000000000000000 := by decide
  unfold Likeness.Both
  rw [Effect.allocate_eq, Effect.allocate_eq]
  by_cases htrap : 0x10000000000000000 ≤ M.size + count
  · rw [if_pos htrap, if_pos (by omega)]
    exact .error (.trap True) _ _
  rw [if_neg htrap]
  by_cases hfull : Memory.limit < M.size + count
  · rw [if_pos hfull]
    exact .left trivial _ _
  rw [if_neg hfull, if_neg (by have := hM.limited; omega)]
  by_cases hfull' : Memory.limit < N.size + count
  · rw [if_pos hfull']
    exact .right trivial _ _
  rw [if_neg hfull']
  have haddr : (UInt64.ofNat M.size).toNat = M.size :=
    UInt64.toNat_ofNat_of_lt' (Nat.lt_of_le_of_lt (by omega) hlimited)
  refine .ok (by rw [Memory.size_grow]; omega) (hM.grow (by omega)) ⟨⟨?_, ?_⟩, ?_⟩
  · rwa [haddr]
  · rw [Memory.size_grow]
    omega
  · rw [UInt64.toNat_ofNat_of_lt' hlimited, haddr, hsize]

theorem loadScalar_moved (hroom : Room m True M ty a) (ha : b.toNat = a.toNat + distance) :
    loadScalar m N ty b = loadScalar m M ty a := by
  obtain ⟨size, hsize, hhas⟩ := hroom trivial
  unfold loadScalar
  rw [hsize]
  simp [bind, Except.bind, Memory.read_eq_ok hM.proper.1 hhas, Memory.read_eq_ok hM.proper.2 (hM.has hhas ha),
    hM.slice hhas ha]

theorem storeScalar_moved (hty : ty.IsScalar) (hroom : Room m True M ty a) (ha : b.toNat = a.toNat + distance)
    (s : Scalar) :
    (Likeness.moved env m distance).Both (fun _ _ _ => True) (storeScalar m ty a s) M (storeScalar m ty b s) N := by
  obtain ⟨size, hle, hsize⟩ := sizeOf_scalar m hty
  obtain ⟨word, hword⟩ := storedWord_scalar hty s
  have hhas := hroom.has hsize trivial
  refine .ok_bind hsize hsize (.ok_bind hword hword (.get_bind (.ok_bind (Memory.check_eq_ok hM.proper.1 hhas)
    (Memory.check_eq_ok hM.proper.2 (hM.has hhas ha)) ?_)))
  rw [if_neg (Nat.not_lt.2 hle), if_neg (Nat.not_lt.2 hle)]
  exact Effect.write_moved hM (by rwa [Word.length_toBytes]) ha

end Effects

theorem Likeness.moved_kept (env : Setting) (m : Module) (distance : Nat) : (Likeness.moved env m distance).Kept where
  toComputes := .of_eq id
  allocate hM count := Effect.allocate_moved hM count
  write hM ha hhas := Effect.write_moved hM (hhas trivial) ha
  copy hM ha hhas ha' hhas' := Effect.copy_moved hM (hhas trivial) ha (hhas' trivial) ha'
  load hM ha hroom hty hplain := by
    rw [loadScalar_moved hM hroom ha]
    exact .same (fun _ => (if_pos (hplain trivial)).mpr rfl) fun _ => loadScalar_expected hty hroom
  store hM ha hroom hty hplain hs := by
    cases (if_pos (hplain trivial)).mp hs
    exact storeScalar_moved hM hty hroom ha _
  field hM ha hroom hd hfield hzero hj := by
    obtain ⟨size, hsize, hhas⟩ := hroom trivial
    obtain ⟨offset, target, hoffset, htgt, hword⟩ :=
      elementAddress_bounded hd hfield hzero hj hsize (hhas.stop_lt hM.proper.1)
    obtain ⟨offset', target', hoffset', htgt', hword'⟩ :=
      elementAddress_bounded hd hfield hzero hj hsize ((hM.has hhas ha).stop_lt hM.proper.2)
    cases hoffset.symm.trans hoffset'
    rw [htgt, htgt']
    refine .ok ?_
    show target'.toNat = target.toNat + distance
    rw [hword', hword, show UInt64.toNat _ = _ from ha, Nat.add_right_comm]

/-! ### Machines that have run -/

variable {name : String} {ss : List Scalar} {m : Module} {machine : Machine}

/-- A call with a wrong number of arguments fails before anything is done. -/
theorem beginCall_miscounted (hname : name ≠ IR.memcpy) (hp : m.procedure? name = some p)
    (hcount : p.parameters.length ≠ ss.length) (depth : Nat) : ∃ e, ∀ M, beginCall m depth name ss M = .error e M := by
  unfold beginCall
  rw [if_neg hname, hp]
  dsimp only
  split
  · exact ⟨_, fun _ => rfl⟩
  · exact ⟨_, fun _ => rfl⟩

/-- **A call on a machine that has run** gives what it gives on one that has not, or fails alike, unless it is exhausted
on one of them. -/
theorem Machine.call_eq_runFresh (hm : m.Sound env True)
    (hplain : ∀ p ∈ m.procedures, p.returnType.pointer = 0) (hmachine : machine.memory.Proper)
    (hname : name ≠ IR.memcpy)
    (htypes : ∀ p, m.procedure? name = some p → ∀ ty ∈ p.parameters.map Argument.ty, ty.pointer = 0)
    (ss : List Scalar) : Exhausted (runFresh m name ss) ∨ Exhausted (machine.call m name ss).1 ∨
      (machine.call m name ss).1 = runFresh m name ss := by
  by_cases hcount : ∀ p, m.procedure? name = some p → p.parameters.length = ss.length
  · have hM : (Likeness.moved env m _).memory fresh.memory machine.memory := Memory.Moved.start hmachine
    have hends := call_abreast_self hm (Likeness.moved_kept env m _) hname hM (.inl trivial) fun p hp =>
      List.forall₂_iff_get.2 ⟨hcount p hp, fun i hi _ =>
        .of_number (htypes p hp _ (List.mem_map_of_mem (List.getElem_mem hi))) rfl⟩
    unfold runFresh
    generalize (fresh.call m name ss).1 = x at hends ⊢
    generalize (machine.call m name ss).1 = y at hends ⊢
    cases hends with
    | error => exact .inr (.inr rfl)
    | left _ hx => exact .inl hx
    | right _ hy => exact .inr (.inl hy)
    | ok hres =>
      obtain ⟨p, hp, hres⟩ := hres
      refine .inr (.inr ?_)
      cases hres with
      | none => rfl
      | some hs => rw [(if_pos (hplain p (List.mem_of_find?_eq_some hp))).mp hs]
  unfold runFresh Machine.call Machine.fresh
  push Not at hcount
  obtain ⟨p, hp, hne⟩ := hcount
  obtain ⟨e, herr⟩ := beginCall_miscounted hname hp hne 0
  simp [herr]

end Lowering
