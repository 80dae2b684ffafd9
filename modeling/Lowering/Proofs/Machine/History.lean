import Lowering.Proofs.Machine.Bounds
import Mathlib.Logic.Relation
/-!
# Memory from call to call

Memory changes where a call begins and with the instructions of calls in progress (`Machine.MemoryStep`), and a machine
keeps it from one call to the next, also when a call fails. One change never takes bytes away and leaves the first ones
alone (`Memory.GrowsTo`), so that holds of whole histories. The size comes to the limit and no further, but for one
thing: an allocation of nothing takes a byte, also where there is none left.
-/

namespace Lowering

open IR (Instruction Local Module Ty Value)

namespace Memory

/-- What memory may become: no byte is taken away, and those that are out of bounds stay as they are. -/
structure GrowsTo (M M' : Memory) : Prop where
  proper : M'.Proper
  size : M.size ≤ M'.size
  guarded : ∀ a < guard, M'.byteAt a = M.byteAt a

variable {M M' M'' : Memory}

theorem GrowsTo.refl (hM : M.Proper) : M.GrowsTo M := ⟨hM, le_rfl, fun _ _ => rfl⟩

theorem GrowsTo.trans (h : M.GrowsTo M') (h' : M'.GrowsTo M'') : M.GrowsTo M'' :=
  ⟨h'.proper, h.size.trans h'.size, fun a ha => (h'.guarded a ha).trans (h.guarded a ha)⟩

theorem GrowsTo.grow (hM : M.Proper) (hsize : M.size + count ≤ limit) : M.GrowsTo (M.grow (max count 1)) :=
  ⟨hM.grow hsize, by simp, by simp⟩

theorem GrowsTo.patch (hM : M.Proper) {start bytes} (h : M.Has start (List.length bytes)) :
    M.GrowsTo (M.patch start bytes) := by
  refine ⟨hM.patch .., by simp, fun a ha => ?_⟩
  rw [byteAt_patch M start bytes h.allocated, if_neg fun hin => Nat.not_lt.2 (h.guarded.trans hin.1) ha]

end Memory

/-- Whatever comes of a step, memory is what it may become. -/
def Effect.Keeps {α : Type} (x : Effect α) : Prop :=
  ∀ M, M.Proper → Ensures x M (fun _ M' => M.GrowsTo M') fun _ M' => M.GrowsTo M'

namespace Effect.Keeps

variable {α β : Type} {m : Module}

theorem pure (a : α) : Keeps (Pure.pure a) := fun _ hM => .pure (.refl hM)

theorem throw (e : EvalError) : Keeps (MonadExcept.throw e : Effect α) := fun _ hM => .throw (.refl hM)

theorem lift (x : Except EvalError α) : Keeps (liftM x : Effect α) :=
  fun _ hM => .lift (fun _ _ => .refl hM) fun _ _ => .refl hM

theorem bind {f : α → Effect β} (h : x.Keeps) (hf : ∀ a, (f a).Keeps) : (x >>= f).Keeps := fun M hM =>
  .bind ((h M hM).mono (fun a M' _ hM' => (hf a M' hM'.proper).mono (fun _ _ _ => hM'.trans) fun _ _ _ => hM'.trans)
    fun _ _ _ hM' => hM')

theorem get_bind {f : Memory → Effect β} (hf : ∀ M, (f M).Keeps) : (get >>= f).Keeps := fun M hM => hf M M hM

theorem write (address : UInt64) (bytes : List UInt8) : (Effect.write address bytes).Keeps := by
  refine fun M hM => .bind (.get (.bind (.lift (fun _ hcheck => .modify (.patch hM ?_)) fun _ _ => .refl hM)))
  rw [Memory.check_eq] at hcheck
  split_ifs at hcheck with hguard hend hsize
  exact ⟨Nat.le_of_not_lt hguard, Nat.le_of_not_lt hsize⟩

theorem copy (destination source : UInt64) (count : Nat) : (Effect.copy destination source count).Keeps :=
  get_bind fun _ => (lift _).bind fun _ => write _ _

theorem allocate (count : Nat) : (Effect.allocate count).Keeps := by
  intro M hM
  unfold Ensures
  rw [Effect.allocate_eq]
  by_cases htrap : 0x10000000000000000 ≤ M.size + count
  · rw [if_pos htrap]
    exact .refl hM
  rw [if_neg htrap]
  by_cases hfull : Memory.limit < M.size + count
  · rw [if_pos hfull]
    exact .refl hM
  · rw [if_neg hfull]
    exact .grow hM (Nat.le_of_not_lt hfull)

theorem storeScalar (ty : Ty) (address : UInt64) (s : Scalar) : (storeScalar m ty address s).Keeps := by
  refine (lift _).bind fun size => (lift _).bind fun word => get_bind fun _ => (lift _).bind fun _ => ?_
  split
  · exact throw _
  · exact write _ _

theorem beginCall (depth : Nat) (callee : String) (ss : List Scalar) : (beginCall m depth callee ss).Keeps := by
  unfold Lowering.beginCall
  split
  · split
    · exact (copy _ _ _).bind fun _ => pure _
    · exact throw _
  split
  · exact throw _
  dsimp only
  split
  · exact throw _
  split
  · exact throw _
  split
  · exact throw _
  · exact (lift _).bind fun _ => pure _

theorem call (frame : Frame) (callers : List Caller) (destination : Option Local) (callee : String) (ss : List Scalar) :
    (call m frame callers destination callee ss).Keeps := by
  refine (beginCall _ _ _).bind fun started => ?_
  cases started with
  | none => exact (lift _).bind fun _ => pure _
  | some => exact pure _

theorem evaluate (frame : Frame) (value : Value) : (evaluate m frame value).Keeps := by
  cases value with
  | alloc => exact (lift _).bind fun size => (allocate size).bind fun _ => pure _
  | load => exact (lift _).bind fun _ => get_bind fun _ => (lift _).bind fun _ => pure _
  | elementPointer => exact (lift _).bind fun _ => (lift _).bind fun _ => pure _
  | binary operator mode ty lhs rhs =>
    exact (lift _).bind fun _ => (lift _).bind fun _ => (lift _).bind fun _ => pure _
  | compare => exact (lift _).bind fun _ => (lift _).bind fun _ => pure _
  | bitcast | convert | sizeOf | call => exact (lift _).bind fun _ => pure _
  | phi ty sources =>
    rw [Lowering.evaluate]
    split
    · exact throw _
    · exact (lift _).bind fun _ => pure _

theorem step (frame : Frame) (callers : List Caller) (i : Instruction) : (step m frame callers i).Keeps := by
  rcases i with _ | ⟨destination, value⟩ | ⟨address, value⟩ | _ | _ | _ | value
  · exact pure _
  · refine (evaluate frame value).bind fun result => ?_
    cases result with
    | done => exact (lift _).bind fun _ => pure _
    | call => exact call _ _ _ _ _
  · refine (lift _).bind fun _ => ?_
    split
    · exact (write _ _).bind fun _ => pure _
    · exact (lift _).bind fun _ => (storeScalar _ _ _).bind fun _ => pure _
  · exact (lift _).bind fun _ => call _ _ _ _ _
  · exact (lift _).bind fun _ => (lift _).bind fun _ => pure _
  · exact (lift _).bind fun _ => pure _
  cases value with
  | none => exact lift _
  | some => exact (lift _).bind fun _ => lift _

end Effect.Keeps

/-- What memory is left as, by a result or by a failure. -/
def Effect.Leaves {α : Type} (x : Effect α) (M M' : Memory) : Prop := (∃ a, x M = .ok a M') ∨ ∃ e, x M = .error e M'

theorem Effect.Keeps.leaves {α : Type} {x : Effect α} (h : x.Keeps) (hM : M.Proper) (hx : x.Leaves M M') :
    M.GrowsTo M' := by
  obtain ⟨a, hok⟩ | ⟨e, herr⟩ := hx
  · exact (h M hM).of_ok hok
  · exact (h M hM).of_error herr

namespace Machine

/-- One change of memory: a call begins, or an instruction of a call in progress is run. -/
inductive MemoryStep (m : Module) (M M' : Memory) : Prop where
  | begins (depth : Nat) (callee : String) (ss : List Scalar) (h : (beginCall m depth callee ss).Leaves M M')
  | works (frame : Frame) (callers : List Caller) (i : Instruction) (h : (step m frame callers i).Leaves M M')

/-- Any number of changes. -/
abbrev Reaches (m : Module) : Memory → Memory → Prop := Relation.ReflTransGen (MemoryStep m)

variable {m : Module} {machine : Machine} {M M' : Memory}

theorem MemoryStep.growsTo (h : MemoryStep m M M') (hM : M.Proper) : M.GrowsTo M' := by
  cases h with
  | begins depth callee ss h => exact (Effect.Keeps.beginCall depth callee ss).leaves hM h
  | works frame callers i h => exact (Effect.Keeps.step frame callers i).leaves hM h

theorem Reaches.growsTo (h : Reaches m M M') (hM : M.Proper) : M.GrowsTo M' := by
  induction h with
  | refl => exact .refl hM
  | tail _ hstep ih => exact ih.trans (hstep.growsTo ih.proper)

theorem run_reaches (budget : Nat) (frame : Frame) (callers : List Caller) (M : Memory) :
    Reaches m M (run m budget frame callers M).2.memory := by
  induction budget generalizing frame callers M with
  | zero => exact .refl
  | succ budget ih =>
    rw [run]
    split
    · exact .refl
    split
    · next hok => exact .head (.works _ _ _ (.inl ⟨_, hok⟩)) (ih ..)
    · next hok => exact .single (.works _ _ _ (.inl ⟨_, hok⟩))
    · next herr => exact .single (.works _ _ _ (.inr ⟨_, herr⟩))

/-- A call passes from one change to the next, whatever the call and its code are, and also when it fails. -/
theorem call_reaches (machine : Machine) (name : String) (ss : List Scalar) :
    Reaches m machine.memory (machine.call m name ss).2.memory := by
  unfold Machine.call
  split
  · next hok => exact .head (.begins _ _ _ (.inl ⟨_, hok⟩)) (run_reaches ..)
  · next hok => exact .single (.begins _ _ _ (.inl ⟨_, hok⟩))
  · next herr => exact .single (.begins _ _ _ (.inr ⟨_, herr⟩))

/-- A machine after calls, of which some may have failed. -/
def after (m : Module) (machine : Machine) (calls : List (String × List Scalar)) : Machine :=
  calls.foldl (fun machine c => (machine.call m c.1 c.2).2) machine

theorem after_reaches (machine : Machine) (calls : List (String × List Scalar)) :
    Reaches m machine.memory (machine.after m calls).memory := by
  induction calls generalizing machine with
  | nil => exact .refl
  | cons c calls ih => exact (call_reaches machine c.1 c.2).trans (ih _)

theorem after_proper (h : machine.memory.Proper) (calls : List (String × List Scalar)) :
    (machine.after m calls).memory.Proper :=
  ((after_reaches machine calls).growsTo h).proper

end Machine

open Machine in
/-- **Memory has its limits**, before, between and after calls of any code and in the middle of them (`Reaches`). It
holds the `Memory.guard` bytes that are out of bounds, which are zero, and never shrinks. It comes to `Memory.limit` at
most, but for an allocation of nothing when all of it is taken. -/
theorem memory_limited (m : Module) {M : Memory} (h : Reaches m .empty M) :
    Memory.guard ≤ M.size ∧ M.size ≤ Memory.limit + 1 ∧ (∀ a < Memory.guard, M.byteAt a = 0) ∧
    (∀ M', MemoryStep m M M' → M.size ≤ M'.size) ∧
    (∀ budget calls, Reaches m M (after m ⟨M, budget⟩ calls).memory) ∧
    ∀ count address M', Effect.allocate count M = .ok address M' →
      (Memory.limit < M'.size ↔ count = 0 ∧ M.size = Memory.limit) := by
  have hM := h.growsTo Memory.proper_empty
  refine ⟨hM.proper.guarded, hM.proper.limited, fun a ha => (hM.guarded a ha).trans ?_, fun M' hstep =>
    (hstep.growsTo hM.proper).size, fun budget => after_reaches ⟨M, budget⟩, fun count address M' hM' => ?_⟩
  · exact Memory.byteAt_grow ..
  · rw [Effect.allocate_eq] at hM'
    split_ifs at hM' with htrap hfull
    cases hM'
    rw [Memory.size_grow]
    omega

/-- A procedure that allocates all of memory, and then a place for nothing. -/
def fillModule : Module where
  structures := []
  procedures := [
    { name := "fill"
      returnType := .void
      parameters := []
      blocks := [⟨0, [.set 0 (.alloc ⟨.array 16777208 (.int 8), 0⟩), .set 1 (.alloc .void), .ret none], []⟩] }]

theorem Machine.run_alloc (hty : sizeOf m ty = .ok count)
    (h : Effect.allocate count M = .ok address M') (budget : Nat) (p : IR.Procedure) (label r : Local) (rest : IR.Code)
    (previous : Option Local) (R : Registers) (callers : List Caller) :
    run m (budget + 1) ⟨p, label, .set r (.alloc ty) :: rest, previous, R⟩ callers M =
      run m budget ⟨p, label, rest, previous, R.set r (.int address)⟩ callers M' := by
  have hvalue (frame : Frame) : evaluate m frame (.alloc ty) M = .ok (.done (.int address)) M' := by
    refine (Effect.lift_bind hty _ M).trans ?_
    simp only [bind, EStateM.bind, h]
    rfl
  have hstep : step m ⟨p, label, rest, previous, R⟩ callers (.set r (.alloc ty)) M =
      .ok (.running ⟨p, label, rest, previous, R.set r (.int address)⟩ callers) M' := by
    rw [step]
    simp only [bind, EStateM.bind, hvalue]
    rfl
  rw [run]
  simp only [hstep]

/-- After the call, memory is larger than it may be. -/
theorem fillModule_exceeds : (Machine.fresh.call fillModule "fill" []).2.memory.size = Memory.limit + 1 := by
  have hfull : Effect.allocate 16777208 .empty = .ok 8 (Memory.empty.grow 16777208) := by
    rw [Effect.allocate_eq, show Memory.empty.size = 8 from rfl]
    rfl
  generalize hM : Memory.empty.grow 16777208 = M at hfull
  have hsize : M.size = Memory.limit := by
    rw [← hM, Memory.size_grow]
    rfl
  have hover : Effect.allocate 0 M = .ok (UInt64.ofNat M.size) (M.grow 1) := by
    rw [Effect.allocate_eq, hsize]
    rfl
  have hbegin : beginCall fillModule 0 "fill" [] .empty = .ok (some ⟨_, 0, _, none, []⟩) .empty := rfl
  have hcall (budget : Nat) : (Machine.call fillModule ⟨.empty, budget + 3⟩ "fill" []).2.memory = M.grow 1 := by
    rw [Machine.call, hbegin]
    dsimp only
    rw [Machine.run_alloc (show sizeOf fillModule _ = .ok 16777208 from rfl) hfull,
      Machine.run_alloc (show sizeOf fillModule .void = .ok 0 from rfl) hover]
    rfl
  rw [show Machine.fresh = ⟨.empty, 999997 + 3⟩ from rfl, hcall, Memory.size_grow, hsize]

/-- The bytes that are out of bounds are zero then, too. -/
theorem memory_limited_fillModule :
    Machine.Reaches fillModule .empty (Machine.fresh.call fillModule "fill" []).2.memory ∧
    ∀ a < Memory.guard, (Machine.fresh.call fillModule "fill" []).2.memory.byteAt a = 0 :=
  have h := Machine.call_reaches .fresh "fill" []
  ⟨h, (memory_limited fillModule h).2.2.1⟩

end Lowering
