import Lowering.Proofs.Ensures
import Lowering.Proofs.Machine.Frame
/-!
# Code that is typed does not get stuck

A step of two runs from frames that can go on either leads both to such frames, or both come to the end, or both fail
for a reason that no type can rule out: memory, depth or budget run out, a divisor is zero, a procedure is somewhere
else, a size leaves the range of words (`step_abreast`). Where code is direct the first run also stays within the memory
that was allocated. By induction the same holds of whole runs (`Machine.run_abreast`).

What is asked of a likeness is that single operations on memory and on numbers keep it (`Likeness.Kept`). A run that
goes beside itself is one case (`Likeness.same`).
-/

namespace Lowering

open List
open IR (Argument Block Code Instruction Local Module Procedure Setting Ty Value)

/-! ### Failures -/

namespace EvalError

/-- A failure that tells of broken code. -/
def isStuck : EvalError → Bool
  | .undefinedRegister _ | .unknownLabel _ | .unterminatedBlock _ | .missingPhiSource | .unsupportedType _
  | .argumentCount .. => true
  | _ => false

/-- An access to memory that is not allocated. -/
def isOutOfBounds : EvalError → Bool
  | .outOfBounds .. => true
  | _ => false

/-- A failure that typed code may come to. -/
def Expected (direct : Prop) (e : EvalError) : Prop := e.isStuck = false ∧ (direct → e.isOutOfBounds = false)

theorem Expected.trap (direct : Prop) : Expected direct .trap := ⟨rfl, fun _ => rfl⟩

end EvalError

variable {E : EvalError → Memory → Prop}

section

variable {α : Type} {env : Setting} {m : Module} {direct : Prop} {M : Memory} {ty : Ty} {address : UInt64} {count : Nat}
  {e : EvalError}

theorem Traps.expected {x : Except EvalError α} (h : Traps x) (he : x = .error e) : e.Expected direct := by
  rw [h e he]
  exact .trap direct

theorem Ensures.lift {x : Except EvalError α} (hok : ∀ a, x = .ok a → Q a M)
    (herr : ∀ e, x = .error e → E e M) : Ensures (liftM x : Effect α) M Q E := by
  cases x with
  | ok a => exact hok a rfl
  | error e => exact herr e rfl

theorem Ensures.lift_ok {x : Except EvalError α} (hx : x = .ok a) (hQ : Q a M) :
    Ensures (liftM x : Effect α) M Q E := by
  subst hx
  exact hQ

/-! ### Memory -/

theorem Memory.check_expected (h : direct → M.Has address.toNat count) (he : M.check address count = .error e) :
    e.Expected direct := by
  unfold Memory.check at he
  split at he
  · next hguard =>
    cases he
    exact ⟨rfl, fun hdir => absurd (h hdir).guarded (Nat.not_le.2 hguard)⟩
  rcases hfit : Memory.fit (address.toNat + count) with e' | stop
  · rw [hfit] at he
    cases he
    exact (Traps.fit _).expected hfit
  obtain ⟨rfl, -⟩ := Memory.fit_eq_ok hfit
  rw [hfit] at he
  simp only [bind, Except.bind, pure, Except.pure] at he
  split at he
  · next hsize =>
    cases he
    exact ⟨rfl, fun hdir => absurd (h hdir).allocated (Nat.not_le.2 hsize)⟩
  · cases he

theorem Memory.read_expected (h : direct → M.Has address.toNat count) (he : M.read address count = .error e) :
    e.Expected direct := by
  unfold Memory.read at he
  cases hcheck : M.check address count with
  | ok =>
    rw [hcheck] at he
    cases he
  | error e' =>
    rw [hcheck] at he
    cases he
    exact Memory.check_expected h hcheck

theorem Effect.write_sound {bytes : List UInt8} (h : direct → M.Has address.toNat bytes.length) :
    Ensures (Effect.write address bytes) M (fun _ M' => M.size ≤ M'.size) fun e _ => e.Expected direct := by
  refine .bind (.get (.bind (.lift (fun _ _ => .modify ?_) fun e he => Memory.check_expected h he)))
  rw [Memory.size_patch]

theorem Effect.copy_sound {destination source : UInt64} (hsrc : direct → M.Has source.toNat count)
    (hdest : direct → M.Has destination.toNat count) :
    Ensures (Effect.copy destination source count) M (fun _ M' => M.size ≤ M'.size) fun e _ => e.Expected direct := by
  refine .bind (.get (.bind (.lift (fun bytes hbytes => ?_) fun e he => Memory.read_expected hsrc he)))
  obtain ⟨_, -, hbytes⟩ := bind_eq_ok hbytes
  cases hbytes
  exact Effect.write_sound (by rwa [Memory.length_slice])

theorem Effect.allocate_sound (hguard : Memory.guard ≤ M.size) (count : Nat) :
    Ensures (Effect.allocate count) M (fun address M' => M.size ≤ M'.size ∧ M'.Has address.toNat count)
      fun e _ => e.Expected direct := by
  refine .bind (.get (.bind (.lift (fun stop hstop => ?_) fun e he => (Traps.fit _).expected he)))
  obtain ⟨rfl, hlt⟩ := Memory.fit_eq_ok hstop
  have haddr : (UInt64.ofNat M.size).toNat = M.size :=
    UInt64.toNat_ofNat_of_lt' ((Nat.le_add_right ..).trans_lt hlt)
  split
  · exact .throw ⟨rfl, fun _ => rfl⟩
  refine .bind (.modify (.pure ⟨?_, ?_, ?_⟩))
  · simp
  · rw [haddr]
    exact hguard
  · rw [Memory.size_grow]
    omega

/-! ### Scalars in memory -/

theorem sizeOf_scalar (m : Module) (h : ty.IsScalar) : ∃ size ≤ 8, sizeOf m ty = .ok size := by
  obtain ⟨base, pointer⟩ := ty
  unfold sizeOf typeSize
  by_cases hptr : pointer = 0
  · obtain h | ⟨bits, hbits, h⟩ := h
    · exact absurd hptr h
    rw [if_pos hptr]
    obtain h | h := h <;> rw [show base = _ from h]
    · exact ⟨_, by omega, rfl⟩
    · exact ⟨_, by omega, rfl⟩
  · simp [if_neg hptr]

theorem Room.has (h : Room m direct M ty address) (hsize : sizeOf m ty = .ok count) :
    direct → M.Has address.toNat count := by
  intro hdir
  obtain ⟨_, hsize', hhas⟩ := h hdir
  simp_all

/-- A scalar is made of the bytes at its address. -/
theorem loadScalar_eq_map (hty : ty.IsScalar) (hsize : sizeOf m ty = .ok count) :
    ∃ scalar : List UInt8 → Scalar, ∀ M address, loadScalar m M ty address = scalar <$> M.read address count := by
  obtain ⟨size, hle, hsize'⟩ := sizeOf_scalar m hty
  cases hsize.symm.trans hsize'
  unfold loadScalar
  simp only [hsize, ok_bind, if_neg (Nat.not_lt.2 hle)]
  obtain ⟨base, pointer⟩ := ty
  cases pointer with
  | succ => exact ⟨fun bytes => .int (Word.ofBytes bytes), fun _ _ => rfl⟩
  | zero =>
    obtain h | ⟨bits, -, h | h⟩ := hty
    · exact absurd rfl h
    · cases h
      exact ⟨fun bytes => .int (Word.ofBytes bytes), fun _ _ => rfl⟩
    cases h
    by_cases hbits : bits = 32
    · cases hbits
      exact ⟨fun bytes => .float (.ofSingle (Word.ofBytes bytes).toUInt32), fun _ _ => rfl⟩
    · exact ⟨fun bytes => .float ⟨Word.ofBytes bytes⟩, by simp⟩

theorem loadScalar_expected (hty : ty.IsScalar) (hroom : Room m direct M ty address)
    (he : loadScalar m M ty address = .error e) : e.Expected direct := by
  obtain ⟨size, -, hsize⟩ := sizeOf_scalar m hty
  obtain ⟨scalar, hload⟩ := loadScalar_eq_map hty hsize
  rw [hload] at he
  cases hread : M.read address size with
  | ok => simp [hread] at he
  | error e' =>
    rw [hread] at he
    cases he
    exact Memory.read_expected (hroom.has hsize) hread

theorem storedWord_scalar (hty : ty.IsScalar) (s : Scalar) : ∃ word, storedWord ty s = .ok word := by
  obtain ⟨base, pointer⟩ := ty
  cases pointer with
  | succ => exact ⟨_, rfl⟩
  | zero =>
    obtain h | ⟨bits, -, h | h⟩ := hty
    · exact absurd rfl h
    · cases h
      exact ⟨_, rfl⟩
    cases h
    by_cases hbits : bits = 32
    · cases hbits
      exact ⟨_, rfl⟩
    · exact ⟨s.number.bits, by simp [storedWord]⟩

theorem storeScalar_sound (hty : ty.IsScalar) (hroom : Room m direct M ty address) (s : Scalar) :
    Ensures (storeScalar m ty address s) M (fun _ M' => M.size ≤ M'.size) fun e _ => e.Expected direct := by
  obtain ⟨size, hle, hsize⟩ := sizeOf_scalar m hty
  obtain ⟨word, hword⟩ := storedWord_scalar hty s
  have hhas := hroom.has hsize
  refine .bind (.lift_ok hsize (.bind (.lift_ok hword (.bind (.get (.bind (.lift (fun _ _ => ?_) fun e he => ?_)))))))
  · rw [if_neg (Nat.not_lt.2 hle)]
    exact Effect.write_sound (by rwa [Word.length_toBytes])
  · exact Memory.check_expected hhas he

theorem evalBinary_expected (h : mode = .float → operator ∉ [.and, .or, .xor] ∧ ty.isInt = false)
    (he : evalBinary operator mode ty x y = .error e) : e.Expected direct := by
  have hword (signed : Bool) (he : Scalar.int <$> wordBinary operator signed (wordBits ty) x.word y.word = .error e) :
      e.Expected direct := by
    unfold wordBinary at he
    repeat' split at he
    all_goals cases he
    all_goals exact ⟨rfl, fun _ => rfl⟩
  cases mode with
  | float =>
    cases operator with
    | and | or | xor => exact absurd (by simp) (h rfl).1
    | _ => cases he
  | signed => exact hword true he
  | unsigned => exact hword false he

end

/-! ### Steps side by side -/

variable {env : Setting} {m : Module} {direct : Prop} {L : Likeness env m direct} {M N : Memory} {α β γ δ : Type}

/-- What comes of a question in both runs: answers that are alike, or a failure that typed code may come to. -/
inductive Concurs (direct : Prop) (P : α → β → Prop) : Except EvalError α → Except EvalError β → Prop where
  | ok {a : α} {b : β} (h : P a b) : Concurs direct P (.ok a) (.ok b)
  | error {e : EvalError} (he : e.Expected direct) : Concurs direct P (.error e) (.error e)

theorem Concurs.same {x : Except EvalError α} (hP : ∀ a, P a a)
    (he : ∀ e, x = .error e → e.Expected direct) : Concurs direct P x x := by
  cases x with
  | ok a => exact .ok (hP a)
  | error e => exact .error (he e rfl)

namespace Likeness

/-- What comes of a step in both runs: it is alike, or in one of them memory runs out. Memory of the first has at least
the size `n` then. -/
inductive Outcomes (L : Likeness env m direct) (Q : α → Memory → β → Prop) (n : Nat) :
    EStateM.Result EvalError Memory α → EStateM.Result EvalError Memory β → Prop where
  | ok {a : α} {b : β} {M N : Memory} (hsize : n ≤ M.size) (hM : L.memory M N) (h : Q a M b) :
      Outcomes L Q n (.ok a M) (.ok b N)
  | error {e : EvalError} (he : e.Expected direct) (M N : Memory) : Outcomes L Q n (.error e M) (.error e N)
  | left (h : L.uneven) (M : Memory) (r : EStateM.Result EvalError Memory β) : Outcomes L Q n (.error .outOfMemory M) r
  | right (h : L.uneven) (r : EStateM.Result EvalError Memory α) (N : Memory) : Outcomes L Q n r (.error .outOfMemory N)

/-- Steps of both runs that come out alike. -/
def Both (L : Likeness env m direct) (Q : α → Memory → β → Prop) (x : Effect α) (M : Memory) (y : Effect β)
    (N : Memory) : Prop :=
  Outcomes L Q M.size (x M) (y N)

namespace Both

variable {P : α → β → Prop} {Q : α → Memory → β → Prop} {Q' : γ → Memory → δ → Prop} {f : α → Effect γ}
  {g : β → Effect δ} {a : α} {b : β}

theorem pure (hM : L.memory M N) (h : Q a M b) : L.Both Q (Pure.pure a) M (Pure.pure b) N := .ok le_rfl hM h

theorem throw (he : e.Expected direct) : L.Both Q (MonadExcept.throw e) M (MonadExcept.throw e) N :=
  .error he M N

theorem bind (h : L.Both Q x M y N)
    (hf : ∀ a b M' N', M.size ≤ M'.size → L.memory M' N' → Q a M' b → L.Both Q' (f a) M' (g b) N') :
    L.Both Q' (x >>= f) M (y >>= g) N := by
  show Outcomes L Q' M.size (EStateM.bind x f M) (EStateM.bind y g N)
  unfold Both at h
  unfold EStateM.bind
  generalize x M = r at h ⊢
  generalize y N = r' at h ⊢
  cases h with
  | ok hsize hM hab =>
    have hnext := hf _ _ _ _ hsize hM hab
    unfold Both at hnext
    dsimp only
    generalize f _ _ = r at hnext ⊢
    generalize g _ _ = r' at hnext ⊢
    cases hnext with
    | ok hsize' hM' h => exact .ok (hsize.trans hsize') hM' h
    | error he => exact .error he _ _
    | left h => exact .left h _ _
    | right h => exact .right h _ _
  | error he => exact .error he _ _
  | left h => exact .left h _ _
  | right h => exact .right h _ _

theorem ask_bind (h : Concurs direct P x y)
    (hf : ∀ a b, x = .ok a → P a b → L.Both Q' (f a) M (g b) N) :
    L.Both Q' ((liftM x : Effect α) >>= f) M ((liftM y : Effect β) >>= g) N := by
  cases h with
  | ok h => exact hf _ _ rfl h
  | error he => exact throw he

theorem ok_bind {x : Except EvalError α} {y : Except EvalError β} (hx : x = .ok a) (hy : y = .ok b)
    (hf : L.Both Q' (f a) M (g b) N) : L.Both Q' ((liftM x : Effect α) >>= f) M ((liftM y : Effect β) >>= g) N := by
  subst hx hy
  exact hf

theorem get_bind {f g} (hf : L.Both Q' (f M) M (g N) N) : L.Both Q' (get >>= f) M (get >>= g) N := hf

end Both

/-! ### What keeps runs alike -/

/-- What is computed from numbers that are alike is alike. -/
structure Computes (L : Likeness env m direct) : Prop where
  binary : ∀ {operator mode ty x x' y y'}, (mode = .float → operator ∉ [.and, .or, .xor] ∧ ty.isInt = false) →
    ty.IsNumeric → L.number ty x x' → L.number ty y y' →
      Concurs direct (L.number ty) (evalBinary operator mode ty x y) (evalBinary operator mode ty x' y')
  compare : ∀ {predicate ty x x' y y'}, ty.IsNumeric ∧ (predicate.isFloat = true → ty.isInt = false) →
    L.number ty x x' → L.number ty y y' →
      L.number .bool (.ofBool (evalCompare predicate ty x y)) (.ofBool (evalCompare predicate ty x' y'))
  convert : ∀ {conversion source target x x'}, source.IsNumeric ∧ target.pointer = 0 ∧
    conversion.suits source target = true → (conversion = .zext → env.widens source) → L.number source x x' →
      L.number target (evalConvert conversion source target x) (evalConvert conversion source target x')
  truth : ∀ {s t}, L.number .bool s t → (t.word &&& 1 = 1 ↔ s.word &&& 1 = 1)

theorem Computes.of_eq (h : ∀ {ty s t}, L.number ty s t → t = s) : L.Computes where
  binary hoperator _ hx hy := by
    cases h hx
    cases h hy
    exact .same (L.number_refl _) fun _ => evalBinary_expected hoperator
  compare _ hx hy := by
    cases h hx
    cases h hy
    exact L.number_refl _ _
  convert _ _ hx := by
    cases h hx
    exact L.number_refl _ _
  truth hs := by
    cases h hs
    rfl

/-- Operations keep two runs alike. -/
structure Kept (L : Likeness env m direct) : Prop extends L.Computes where
  allocate : ∀ {M N}, L.memory M N → ∀ count, L.Both (fun a M' b => M'.Has a.toNat count ∧ L.address a b)
    (Effect.allocate count) M (Effect.allocate count) N
  write : ∀ {M N a b bytes}, L.memory M N → L.address a b → (direct → M.Has a.toNat bytes.length) →
    L.Both (fun _ _ _ => True) (Effect.write a bytes) M (Effect.write b bytes) N
  copy : ∀ {M N a b a' b' count}, L.memory M N → L.address a b → (direct → M.Has a.toNat count) → L.address a' b' →
    (direct → M.Has a'.toNat count) → L.Both (fun _ _ _ => True) (Effect.copy a' a count) M (Effect.copy b' b count) N
  load : ∀ {M N a b ty}, L.memory M N → L.address a b → Room m direct M ty a → ty.IsScalar → (direct → ty.pointer = 0) →
    Concurs direct (L.scalar ty) (loadScalar m M ty a) (loadScalar m N ty b)
  store : ∀ {M N a b ty s t}, L.memory M N → L.address a b → Room m direct M ty a → ty.IsScalar →
    (direct → ty.pointer = 0) → L.scalar ty s t →
      L.Both (fun _ _ _ => True) (storeScalar m ty a s) M (storeScalar m ty b t) N
  field : ∀ {M N a b name d field} {index : Nat} {zero j : Int64}, L.memory M N → L.address a b →
    Room m direct M ⟨.struct name, 0⟩ a → m.structure? name = some d → d.fields[index]? = some field → zero.toInt = 0 →
      j.toInt = index → Concurs direct L.address (elementAddress m a ⟨.struct name, 0⟩ [.ok zero, .ok j])
        (elementAddress m b ⟨.struct name, 0⟩ [.ok zero, .ok j])

end Likeness

/-! ### Values -/

/-- A module whose procedures can be run, and whose callees are what callers take them for. -/
structure IR.Module.Sound (env : Setting) (direct : Prop) (m : Module) :
    Prop extends m.Declares env.toSurroundings where
  short : ∀ s ∈ m.structures, s.fields.length ≤ 2 ^ 31
  bodies : ∀ p ∈ m.procedures, p.external = false → p.Sound env
  scalars : ∀ f ∈ env.prototypes, ∀ ty ∈ f.parameters, ty.IsScalar
  callees : ∀ f ∈ env.prototypes, env.calls f.name → f.name ≠ IR.memcpy ∧ ∀ p, m.procedure? f.name = some p →
    p.parameters.map Argument.ty = f.parameters ∧ p.returnType = f.returnType
  /-- Where code is direct, no address lies in memory. -/
  fields : direct → ∀ s ∈ m.structures, ∀ ty ∈ s.fields, ty.pointer = 0
  allots : direct → ∀ ty, env.allots ty → ty.pointer = 0

/-- What a value comes down to in both runs: scalars of its type, or a call with arguments of the right types. -/
inductive Evaluation.Abreast (L : Likeness env m direct) (value : Value) : Evaluation → Memory → Evaluation → Prop where
  | done {s t : Scalar} {M : Memory} (h : value.Gives L M s t) : Evaluation.Abreast L value (.done s) M (.done t)
  | call {ty : Ty} {callee : String} {as : List Argument} {xs : List (Scalar × Scalar)} {M : Memory}
      (hvalue : value = .call ty callee as) (hvoid : ty.isVoid = false) (hcalls : env.calls callee)
      (hproto : ⟨callee, as.map Argument.ty, ty⟩ ∈ env.prototypes)
      (hargs : Forall₂ (fun ty x => L.Relates M ty x.1 x.2) (as.map Argument.ty) xs) :
      Evaluation.Abreast L value (.call callee (xs.map Prod.fst)) M (.call callee (xs.map Prod.snd))

section Values

variable {ty : Ty} {p : Procedure} {passed : List Block} {b : Block} {before : Code} {frame : Frame} {value : Value}
  {S : Registers}

/-- **What typed values come down to.** -/
theorem evaluate_typed (hm : m.Sound env direct) (hL : L.Kept) (hM : L.memory M N)
    (hR : frame.registers.Abreast L M p passed before S) (htyped : value.Typed env (p.held passed before))
    (hfeasible : value.Feasible env)
    (hwidened : ∀ source target, value = .convert .zext source target → env.widens source.ty) :
    L.Both (Evaluation.Abreast L value) (evaluate m frame value) M
      (evaluate m { frame with registers := S } value) N := by
  cases value with
  | alloc ty =>
    obtain ⟨hsized, hallots⟩ := hfeasible
    refine .ask_bind (.same (P := Eq) (fun _ => rfl) fun e he => (sizeOf_traps hm.toDeclares hsized).expected he) ?_
    rintro size _ hsize rfl
    refine .bind (hL.allocate hM size) fun a b M' N' _ hM' h => .pure hM' (.done (.of_relates (by simp) (by simp) ?_))
    exact .of_address (fun hdir => hm.allots hdir ty hallots) (fun _ => ⟨size, hsize, h.1⟩) h.2
  | load ty address =>
    obtain ⟨haddr, hpointee⟩ := htyped
    obtain ⟨s, t, hs, ht, hrel⟩ := hR.operand haddr (IR.Ty.ne_bytes_of_pointee? hpointee)
    refine .ok_bind hs ht (.get_bind (.ask_bind (hL.load hM (hrel.address hpointee) (hrel.room hpointee) hfeasible
      (hrel.plain hpointee)) fun v w _ h => .pure hM (.done (.of_relates (by simp) (by simp) ⟨?_, h⟩))))
    exact .of_plain (hrel.plain hpointee) v
  | elementPointer pointee base indices result =>
    obtain ⟨hbase, hpointee, name, index, field, rfl, rfl, ⟨d, hd, rfl, hfield⟩, rfl⟩ := htyped
    obtain ⟨s, t, hs, ht, hrel⟩ := hR.operand hbase (IR.Ty.ne_bytes_of_pointee? hpointee)
    rw [hm.structures] at hd
    have hfound := Module.structure?_of_mem hm.names hd
    have hindex : index < 2 ^ 31 :=
      Nat.lt_of_lt_of_le (List.getElem?_eq_some_iff.1 hfield).1 (hm.short d hd)
    obtain ⟨zero, hzero, hzero'⟩ := frame.registers.index_i32 (n := 0) (by decide)
    obtain ⟨j, hj, hj'⟩ := frame.registers.index_i32 hindex
    -- Indices are constants, and so do not depend on registers.
    have hindices (R : Registers) : [IR.Argument.i32 0, .i32 index].map R.index = [.ok zero, .ok j] := by
      rw [← hzero, ← hj]
      rfl
    have hroom := hrel.room hpointee
    refine .ok_bind hs ht ?_
    rw [hindices, hindices]
    refine .ask_bind (hL.field hM (hrel.address hpointee) hroom hfound hfield hzero' hj') fun a b ha h =>
      .pure hM (.done (.of_relates (by simp) (by simp) (.of_address ?_ (fun hdir => ?_) h)))
    · exact fun hdir => hm.fields hdir d hd field (mem_of_getElem? hfield)
    obtain ⟨size, hsize, hhas⟩ := hroom hdir
    obtain ⟨fieldSize, hfieldSize, hstart, hstop⟩ := elementAddress_within hfound hfield hzero' hj' hsize ha
    exact ⟨fieldSize, hfieldSize, hhas.guarded.trans hstart, hstop.trans hhas.allocated⟩
  | binary operator mode ty lhs rhs =>
    obtain ⟨hnum, hoperator⟩ := hfeasible
    obtain ⟨x, x', hx, hx', hxs⟩ := hR.numeric htyped.1 hnum
    obtain ⟨y, y', hy, hy', hys⟩ := hR.numeric htyped.2 hnum
    refine .ok_bind hx hx' (.ok_bind hy hy' (.ask_bind (hL.binary hoperator hnum hxs hys) fun v w _ h => ?_))
    exact .pure hM (.done (.of_relates (by simp) (by simp) (.of_number hnum.1 h)))
  | compare predicate ty lhs rhs =>
    obtain ⟨x, x', hx, hx', hxs⟩ := hR.numeric htyped.1 hfeasible.1
    obtain ⟨y, y', hy, hy', hys⟩ := hR.numeric htyped.2 hfeasible.1
    refine .ok_bind hx hx' (.ok_bind hy hy' (.pure hM (.done (.of_relates (by simp) (by simp) ?_))))
    exact .of_number rfl (hL.compare hfeasible hxs hys)
  | bitcast source target =>
    obtain ⟨⟨length, hty⟩, rfl⟩ := hfeasible
    obtain ⟨s, t, hs, ht, hrel⟩ := hR.operand htyped (by rw [hty]; intro _ h; cases h)
    have hpointee : source.ty.pointee? = some ⟨.array (length + 1) (.int 8), 0⟩ := by rw [hty]; rfl
    refine .ok_bind hs ht (.pure hM (.done ⟨fun _ => ?_, ?_, ?_⟩))
    · -- The first byte of a string, which has at least one.
      refine .of_address (fun _ => (rfl : (IR.Ty.int 8).pointer = 0)) (fun hdir => ?_) (hrel.address hpointee)
      obtain ⟨size, hsize, hhas⟩ := hrel.room hpointee hdir
      refine ⟨1, rfl, hhas.guarded, (Nat.add_le_add_left ?_ _).trans hhas.allocated⟩
      have hsize : Memory.fit ((length + 1) * 1) = .ok size := hsize
      obtain ⟨rfl, -⟩ := Memory.fit_eq_ok hsize
      omega
    · simp_all
    · rintro _ ⟨⟩
  | convert conversion source target =>
    obtain ⟨x, x', hx, hx', hxs⟩ := hR.numeric htyped hfeasible.1
    refine .ok_bind hx hx' (.pure hM (.done (.of_relates (by simp) (by simp) ?_)))
    exact .of_number hfeasible.2.1 (hL.convert hfeasible (fun h => hwidened source target (h ▸ rfl)) hxs)
  | sizeOf ty =>
    refine .ask_bind (.same (P := Eq) (fun _ => rfl) fun e he => (sizeOf_traps hm.toDeclares hfeasible).expected he) ?_
    rintro size _ hsize rfl
    refine .pure hM (.done ⟨fun _ => .of_number rfl (L.number_refl _ _), ?_, ?_⟩)
    · rintro _ _ ⟨⟩
    · simp [*]
  | call returnType callee arguments =>
    obtain ⟨hfits, hproto⟩ := htyped
    obtain ⟨xs, hss, hts, hargs⟩ := hR.arguments hfits fun a ha =>
      (hm.scalars _ hproto _ (mem_map_of_mem ha)).ne_bytes
    exact .ok_bind hss hts (.pure hM (.call rfl hfeasible.1 hfeasible.2 hproto hargs))
  | phi => exact htyped.elim

/-- **What a value comes down to** where it stands. -/
theorem evaluate_abreast (hm : m.Sound env direct) (hL : L.Kept) (hM : L.memory M N) {r : Local}
    (hat : frame.At env passed b (before ++ [.set r value]))
    (hR : frame.registers.Abreast L M frame.procedure passed before S) :
    L.Both (Evaluation.Abreast L value) (evaluate m frame value) M
      (evaluate m { frame with registers := S } value) N := by
  have hcode : b.instructions = before ++ .set r value :: frame.rest := by rw [hat.code, append_assoc]; rfl
  cases hphi : Instruction.isPhi (.set r value) with
  | false =>
    have hplaced := hat.sound.runnable.placed passed b hat.reaches before _ _ hcode hphi
    rcases hplaced with h | h | ⟨hvalue, hty⟩
    · refine evaluate_typed hm hL hM hR h.1 h.2 fun source target hvalue => ?_
      exact hat.sound.widened b hat.reaches.mem r source target (by rw [hcode, ← hvalue]; simp)
    · exact h.elim
    obtain ⟨s, t, hs, ht, hrel⟩ := hR.operand hvalue (by rw [hty]; intro _ h; cases h)
    refine .ok_bind hs ht (.pure hM (.done ⟨fun hraw => ?_, ?_, ?_⟩))
    · simp [IR.Value.isRaw, hty, IR.Base.isStruct] at hraw
    · simp_all
    · rintro _ ⟨⟩
  | true =>
    cases value with
    | phi ty sources =>
      have hmem : .set r (.phi ty sources) ∈ b.instructions := by rw [hcode]; simp
      obtain ⟨passed', q, o, rfl, hfind, ho⟩ := hat.sound.wellFormed.source hat.sound.runnable hat.reaches hmem
      have hscalar := (hat.sound.runnable.phis b hat.reaches.mem r ty sources hmem).1.1
      obtain ⟨s, t, hs, ht, hrel⟩ := hR.operand (ho.mono Procedure.held_mono) hscalar.ne_bytes
      have hprev : frame.previous = some q.label := by simp [hat.previous]
      unfold evaluate
      simp only [hprev, hfind]
      exact .ok_bind hs ht (.pure hM (.done (.of_relates (by simp) (by simp) hrel)))
    | _ => cases hphi

end Values

/-! ### Calls -/

section Steps

variable {ty outer : Ty} {passed : List Block} {b : Block} {before rest : Code} {frame : Frame} {S : Registers}
  {callers callers' : List Caller} {i : Instruction} {callee : String} {xs : List (Scalar × Scalar)}

/-- **Beginning a call**, with arguments of the types of the parameters. -/
theorem beginCall_abreast (hm : m.Sound env direct) (hM : L.memory M N) (hname : callee ≠ IR.memcpy)
    (hargs : ∀ p, m.procedure? callee = some p →
      Forall₂ (fun ty x => L.Relates M ty x.1 x.2) (p.parameters.map Argument.ty) xs) (depth : Nat) :
    L.Both (fun x M' y => ∃ frame S, m.procedure? callee = some frame.procedure ∧ x = some frame ∧
        y = some { frame with registers := S } ∧ frame.Abreast L M' S)
      (beginCall m depth callee (xs.map Prod.fst)) M (beginCall m depth callee (xs.map Prod.snd)) N := by
  unfold beginCall
  rw [if_neg hname, if_neg hname]
  rcases hp : m.procedure? callee with _ | p
  · exact .throw ⟨rfl, fun _ => rfl⟩
  have hlen := (hargs p hp).length_eq
  rw [length_map] at hlen
  dsimp only
  rw [length_map, length_map, if_neg (not_not_intro hlen), if_neg (not_not_intro hlen)]
  by_cases hext : p.external = true
  · rw [if_pos hext, if_pos hext]
    exact .throw ⟨rfl, fun _ => rfl⟩
  rw [if_neg hext, if_neg hext]
  by_cases hdepth : callDepthLimit ≤ depth
  · rw [if_pos hdepth, if_pos hdepth]
    exact .throw ⟨rfl, fun _ => rfl⟩
  rw [if_neg hdepth, if_neg hdepth]
  have hext : p.external = false := by simpa using hext
  obtain hfails | ⟨frame, S, hframe, hframe', rfl, habreast⟩ :=
    Frame.enter_abreast (hm.bodies p (mem_of_find?_eq_some hp) hext) (hargs p hp)
  · rw [hfails, hfails]
    exact .throw ⟨rfl, fun _ => rfl⟩
  · rw [hframe, hframe']
    exact .pure hM ⟨frame, S, rfl, rfl, rfl, habreast⟩

section

variable (hM : L.memory M N) (hwaiting : Waiting L M outer frame.procedure.returnType callers callers')
include hM hwaiting

theorem call_abreast (hm : m.Sound env direct) {as : List Argument}
    (hcaller : Caller.Waits L M ty ⟨frame, destination⟩ S) (hcalls : env.calls callee)
    (hproto : ⟨callee, as.map Argument.ty, ty⟩ ∈ env.prototypes)
    (hargs : Forall₂ (fun ty x => L.Relates M ty x.1 x.2) (as.map Argument.ty) xs) :
    L.Both (Progress.Abreast L outer) (call m frame callers destination callee (xs.map Prod.fst)) M
      (call m { frame with registers := S } callers' destination callee (xs.map Prod.snd)) N := by
  obtain ⟨hname, hagrees⟩ := hm.callees _ hproto hcalls
  unfold call
  rw [hwaiting.length_eq]
  refine .bind (beginCall_abreast hm hM hname (fun p hp => ?_) _) fun x y M' N' hsize hM' h => ?_
  · simp [*]
  obtain ⟨inner, S', hp, rfl, rfl, hinner⟩ := h
  refine .pure hM' (.running hinner ?_)
  rw [(hagrees _ hp).2]
  exact (Waiting.cons hcaller hwaiting).mono hsize

/-- **The byte copy of a structure**: what was made ready for it is still in its registers. -/
theorem copy_abreast (hL : L.Kept) {source destination : Argument}
    (hat : frame.At env passed b (before ++ [IR.copyCall size start target]))
    (hR : frame.registers.Abreast L M frame.procedure passed before S) (hsrc : source.ty = ⟨.struct name, 1⟩)
    (hdest : destination.ty = ⟨.struct name, 1⟩)
    (hbefore : before = earlier ++ IR.copyStart name size start target source destination) :
    L.Both (Progress.Abreast L outer) (step m frame callers (IR.copyCall size start target)) M
      (step m { frame with registers := S } callers' (IR.copyCall size start target)) N := by
  have hmem : ∀ j ∈ IR.copyStart name size start target source destination, j ∈ before := fun j hj => by
    simp [*]
  obtain ⟨_, _, hsize, hsize', hsizeGives⟩ :=
    hR.recent size (.sizeOf ⟨.struct name, 0⟩) (hmem _ (by simp [IR.copyStart]))
  obtain ⟨x, x', hx, hx', hxs⟩ := hR.recent start (.bitcast source .bytePointer) (hmem _ (by simp [IR.copyStart]))
  obtain ⟨y, y', hy, hy', hys⟩ := hR.recent target (.bitcast destination .bytePointer) (hmem _ (by simp [IR.copyStart]))
  obtain ⟨count, hcount, rfl, rfl⟩ := hsizeGives.size _ rfl
  have hxs := hxs.cast _ _ rfl
  have hys := hys.cast _ _ rfl
  have hsource : source.ty.pointee? = some ⟨.struct name, 0⟩ := by rw [hsrc]; rfl
  have hdestination : destination.ty.pointee? = some ⟨.struct name, 0⟩ := by rw [hdest]; rfl
  have hlt := (sizeOf_struct hcount).choose_spec.2.2
  rw [IR.copyCall, step_copy hy hx hsize hlt, step_copy hy' hx' hsize' hlt]
  refine .bind (hL.copy hM (hxs.address hsource) ((hxs.room hsource).has hcount) (hys.address hdestination)
    ((hys.room hdestination).has hcount)) fun _ _ M' N' hle hM' _ => .pure hM' (.running ?_ (hwaiting.mono hle))
  exact Frame.Abreast.skip hat rfl (by simp [IR.copyCall]) (hR.mono hle)

/-! ### Steps -/

theorem step_set (hm : m.Sound env direct) (hL : L.Kept) {r : Local} {value : Value}
    (hat : frame.At env passed b (before ++ [.set r value]))
    (hR : frame.registers.Abreast L M frame.procedure passed before S) :
    L.Both (Progress.Abreast L outer) (step m frame callers (.set r value)) M
      (step m { frame with registers := S } callers' (.set r value)) N := by
  refine .bind (evaluate_abreast hm hL hM hat hR) fun x y M' N' hle hM' h => ?_
  cases h with
  | done hgives =>
    exact .ok_bind rfl rfl (.pure hM' (.running (Frame.Abreast.set hat (hR.mono hle) hgives) (hwaiting.mono hle)))
  | @call ty callee as _ _ hvalue hvoid hcalls hproto hargs =>
    subst hvalue
    have hcaller : Caller.Waits L M' ty ⟨frame, some r⟩ S :=
      ⟨passed, b, before, _, hat, hR.mono hle, callee, as, rfl, hvoid⟩
    exact call_abreast hM' (hwaiting.mono hle) hm hcaller hcalls hproto hargs

theorem step_store (hL : L.Kept) {address value : Argument}
    (hat : frame.At env passed b (before ++ [.store address value]))
    (hR : frame.registers.Abreast L M frame.procedure passed before S)
    (htyped : IR.StoreTyped (frame.procedure.held passed before) address value) (hstorable : value.IsStorable) :
    L.Both (Progress.Abreast L outer) (step m frame callers (.store address value)) M
      (step m { frame with registers := S } callers' (.store address value)) N := by
  obtain ⟨haddr, hvalue, hpointee⟩ := htyped
  obtain ⟨s, t, hs, ht, hrel⟩ := hR.operand haddr (IR.Ty.ne_bytes_of_pointee? hpointee)
  have hroom := hrel.room hpointee
  have haddr := hrel.address hpointee
  have hnext {M' N' : Memory} (hle : M.size ≤ M'.size) (hM' : L.memory M' N') : L.Both (Progress.Abreast L outer)
      (Pure.pure (.running frame callers)) M' (Pure.pure (.running { frame with registers := S } callers')) N' :=
    .pure hM' (.running (Frame.Abreast.skip hat rfl (by simp) (hR.mono hle)) (hwaiting.mono hle))
  obtain ⟨ty, o⟩ := value
  have hscalar (hty : ty.IsScalar) : L.Both (Progress.Abreast L outer)
      (do
        storeScalar m ty s.word (← frame.registers.operand ty o)
        return .running frame callers) M
      (do
        storeScalar m ty t.word (← S.operand ty o)
        return .running { frame with registers := S } callers') N := by
    obtain ⟨v, w, hv, hw, hvs⟩ := hR.operand hvalue hty.ne_bytes
    exact .ok_bind hv hw (.bind (hL.store hM haddr hroom hty (hrel.plain hpointee) hvs.alike) fun _ _ _ _ hle hM' _ =>
      hnext hle hM')
  unfold step
  refine .ok_bind hs ht ?_
  cases o with
  | bytes data =>
    have hty : ty = ⟨.array data.length (.int 8), 0⟩ := hvalue
    refine .bind (hL.write hM haddr fun hdir => ?_) fun _ _ _ _ hle hM' _ => hnext hle hM'
    obtain ⟨size, hsize, hhas⟩ := hroom hdir
    have hsize : Memory.fit (data.length * 1) = .ok size := by rw [← hsize, hty]; rfl
    obtain ⟨rfl, -⟩ := Memory.fit_eq_ok hsize
    rwa [Nat.mul_one] at hhas
  | _ =>
    refine hscalar (hstorable.resolve_right ?_)
    simp

theorem step_terminator (hL : L.Kept) (hat : frame.At env passed b (before ++ [i]))
    (hR : frame.registers.Abreast L M frame.procedure passed before S)
    (htyped : IR.TerminatorTyped (frame.procedure.held passed before) frame.procedure.returnType i) :
    L.Both (Progress.Abreast L outer) (step m frame callers i) M
      (step m { frame with registers := S } callers' i) N := by
  have hterm := htyped.isTerminator
  have hrest : frame.rest = [] := by
    have hcode := hat.code
    rw [append_assoc, singleton_append] at hcode
    exact ((hat.sound.wellFormed.closed b hat.reaches.mem).isTerminator_iff hcode).1 hterm
  have hskip : frame.registers.Abreast L M frame.procedure passed (before ++ [i]) S :=
    hR.skip fun r value hi => by
      rw [hi] at hterm
      cases hterm
  have hgoTo {l : Local} (hl : l ∈ i.successors) : L.Both (Progress.Abreast L outer)
      (do
        let frame ← frame.goTo l
        return .running frame callers) M
      (do
        let frame ← Frame.goTo { frame with registers := S } l
        return .running frame callers') N := by
    obtain ⟨next, hnext, hnext', hproc, habreast⟩ := Frame.goTo_abreast hat hrest hl hskip
    exact .ok_bind hnext hnext' (.pure hM (.running habreast (by rwa [hproc])))
  have hleave {result result' : Option Scalar} (hvoid : result = none → frame.procedure.returnType = .void)
      (hres : Option.Rel (L.Relates M frame.procedure.returnType) result result') :
      L.Both (Progress.Abreast L outer) (leave result callers : Effect Progress) M (leave result' callers') N := by
    obtain ⟨progress, progress', hleave, hleave', habreast⟩ := leave_abreast hwaiting hvoid hres
    rw [hleave, hleave']
    exact .pure hM habreast
  cases i with
  | branch condition positive negative =>
    obtain ⟨s, t, hs, ht, hrel⟩ := hR.operand htyped.1 (by rw [htyped.2]; intro _ h; cases h)
    have htruth := hL.truth (htyped.2 ▸ hrel.number (by rw [htyped.2]; rfl))
    refine .ok_bind hs ht ?_
    simp only [htruth]
    refine hgoTo ?_
    split
    · exact .head _
    · exact .tail _ (.head _)
  | jump => exact hgoTo (mem_singleton_self _)
  | ret value =>
    rcases value with _ | value
    · exact hleave (fun _ => htyped) .none
    obtain ⟨hvalue, hty⟩ := htyped
    obtain ⟨s, t, hs, ht, hrel⟩ := hR.operand hvalue (by rw [hty]; exact hat.sound.result)
    rw [hty] at hrel
    exact .ok_bind hs ht (hleave (fun h => by cases h) (.some hrel))
  | label | set | store | call => exact htyped.elim

/-- **A step leads on in both runs**, or fails as typed code may. -/
theorem step_abreast (hm : m.Sound env direct) (hL : L.Kept) (hat : frame.At env passed b (before ++ [i]))
    (hR : frame.registers.Abreast L M frame.procedure passed before S) :
    L.Both (Progress.Abreast L outer) (step m frame callers i) M
      (step m { frame with registers := S } callers' i) N := by
  have hcode : b.instructions = before ++ i :: frame.rest := by rw [hat.code, append_assoc]; rfl
  cases hphi : i.isPhi with
  | true =>
    cases i with
    | set => exact step_set hM hwaiting hm hL hat hR
    | _ => cases hphi
  | false =>
    have hplaced := hat.sound.runnable.placed passed b hat.reaches before i frame.rest hcode hphi
    cases hplaced with
    | simple h =>
      cases i with
      | set => exact step_set hM hwaiting hm hL hat hR
      | store => exact step_store hM hwaiting hL hat hR h.1 h.2
      | call type callee arguments =>
        obtain ⟨⟨hfits, hproto⟩, hcalls⟩ := h
        obtain ⟨xs, hss, hts, hargs⟩ := hR.arguments hfits fun a ha =>
          (hm.scalars _ hproto _ (mem_map_of_mem ha)).ne_bytes
        have hcaller : Caller.Waits L M type ⟨frame, none⟩ S := ⟨passed, b, before, _, hat, hR, callee, arguments, rfl⟩
        exact .ok_bind hss hts (call_abreast hM hwaiting hm hcaller hcalls hproto hargs)
      | label | branch | jump | ret => exact h.elim
    | terminator h => exact step_terminator hM hwaiting hL hat hR h
    | raw => exact step_set hM hwaiting hm hL hat hR
    | copy hcopy hbefore => exact copy_abreast hM hwaiting hL hat hR hcopy.sourceType hcopy.destinationType hbefore

end

/-! ### Runs -/

/-- A run that came to the end of its budget or its memory. -/
def Exhausted (result : Except EvalError (Option Scalar)) : Prop :=
  result = .error .stepLimit ∨ result = .error .outOfMemory

/-- How two runs end: with results that are alike, with the same failure, or one of them is exhausted. -/
inductive Likeness.Ends (L : Likeness env m direct) (P : Option Scalar → Option Scalar → Prop) :
    Except EvalError (Option Scalar) → Except EvalError (Option Scalar) → Prop where
  | ok {result result' : Option Scalar} (h : P result result') : Likeness.Ends L P (.ok result) (.ok result')
  | error {e : EvalError} (he : e.Expected direct) : Likeness.Ends L P (.error e) (.error e)
  | left {x y : Except EvalError (Option Scalar)} (h : L.uneven) (hx : Exhausted x) : Likeness.Ends L P x y
  | right {x y : Except EvalError (Option Scalar)} (h : L.uneven) (hy : Exhausted y) : Likeness.Ends L P x y

theorem Machine.run_zero (h : frame.rest ≠ []) : (run m 0 frame callers M).1 = .error .stepLimit := by
  rw [run, if_neg (by simpa using h)]

/-- **Typed code does not get stuck**, however long it runs, and two runs of it end alike. Budgets may differ where runs
may be uneven. -/
theorem Machine.run_abreast (hm : m.Sound env direct) (hL : L.Kept) (hM : L.memory M N) (hframe : frame.Abreast L M S)
    (hwaiting : Waiting L M outer frame.procedure.returnType callers callers') {budget budget' : Nat}
    (hbudget : L.uneven ∨ budget' = budget) :
    L.Ends (Option.Rel (L.scalar outer)) (run m budget frame callers M).1
      (run m budget' { frame with registers := S } callers' N).1 := by
  induction budget generalizing frame S callers callers' M N budget' with
  | zero =>
    obtain huneven | rfl := hbudget
    · exact .left huneven (.inl (run_zero hframe.1))
    · rw [run_zero hframe.1, run_zero (by exact hframe.1)]
      exact .error ⟨rfl, fun _ => rfl⟩
  | succ budget ih =>
    rcases budget' with _ | budget'
    · obtain huneven | heq := hbudget
      · exact .right huneven (.inl (run_zero hframe.1))
      · cases heq
    rcases hrest : frame.rest with _ | ⟨i, rest⟩
    · exact absurd hrest hframe.1
    obtain ⟨-, passed, b, before, hat, hR⟩ := hframe
    have hstep : L.Both (Progress.Abreast L outer) (step m { frame with rest } callers i) M
        (step m { frame with rest, registers := S } callers' i) N := by
      refine step_abreast hM ?_ hm hL (hat.advance hrest frame.registers) hR
      exact hwaiting
    rw [run, run, hrest]
    dsimp only
    unfold Likeness.Both at hstep
    generalize step m _ callers i M = x at hstep ⊢
    generalize step m _ callers' i N = y at hstep ⊢
    cases hstep with
    | error he => exact .error he
    | left h => exact .left h (.inr rfl)
    | right h => exact .right h (.inr rfl)
    | ok _ hM' hprog =>
      cases hprog with
      | finished h => exact .ok h
      | running hframe' hwaiting' => exact ih hM' hframe' hwaiting' (hbudget.imp_right Nat.succ.inj)

/-- **A procedure that is called from outside** on arguments of the types of its parameters. -/
theorem Machine.call_abreast (hm : m.Sound env direct) (hL : L.Kept) (hname : callee ≠ IR.memcpy)
    {machine machine' : Machine}
    (hM : L.memory machine.memory machine'.memory) (hbudget : L.uneven ∨ machine'.budget = machine.budget)
    (hargs : ∀ p, m.procedure? callee = some p →
      Forall₂ (fun ty x => L.Relates machine.memory ty x.1 x.2) (p.parameters.map Argument.ty) xs) :
    L.Ends (fun x y => ∃ p, m.procedure? callee = some p ∧ Option.Rel (L.scalar p.returnType) x y)
      (machine.call m callee (xs.map Prod.fst)).1 (machine'.call m callee (xs.map Prod.snd)).1 := by
  have hbegin := beginCall_abreast hm hM hname hargs 0
  unfold Machine.call
  unfold Likeness.Both at hbegin
  generalize beginCall m 0 callee (xs.map Prod.fst) machine.memory = x at hbegin ⊢
  generalize beginCall m 0 callee (xs.map Prod.snd) machine'.memory = y at hbegin ⊢
  cases hbegin with
  | error he => exact .error he
  | left h => exact .left h (.inr rfl)
  | right h => exact .right h (.inr rfl)
  | ok _ hM' hstarted =>
    obtain ⟨frame, S, hp, rfl, rfl, hframe⟩ := hstarted
    have hrun := run_abreast hm hL hM' hframe .nil hbudget
    dsimp only
    generalize (run m machine.budget frame [] _).1 = x at hrun ⊢
    generalize (run m machine'.budget _ [] _).1 = y at hrun ⊢
    cases hrun with
    | ok h => exact .ok ⟨_, hp, h⟩
    | error he => exact .error he
    | left h hx => exact .left h hx
    | right h hy => exact .right h hy

theorem Machine.call_abreast_self (hm : m.Sound env direct) (hL : L.Kept) (hname : callee ≠ IR.memcpy)
    {machine machine' : Machine} (hM : L.memory machine.memory machine'.memory)
    (hbudget : L.uneven ∨ machine'.budget = machine.budget) {ss : List Scalar}
    (hargs : ∀ p, m.procedure? callee = some p →
      Forall₂ (fun a s => L.Relates machine.memory a.ty s s) p.parameters ss) :
    L.Ends (fun x y => ∃ p, m.procedure? callee = some p ∧ Option.Rel (L.scalar p.returnType) x y)
      (machine.call m callee ss).1 (machine'.call m callee ss).1 := by
  have hpairs (p : Procedure) (hp : m.procedure? callee = some p) : Forall₂
      (fun ty x => L.Relates machine.memory ty x.1 x.2) (p.parameters.map Argument.ty) (ss.map fun s => (s, s)) := by
    simp_all
  simpa only [map_map, Function.comp_def, map_id'] using call_abreast hm hL hname hM hbudget hpairs

end Steps

/-! ### Runs with the same memory -/

/-- Runs that go through the same memory, while numbers may differ. -/
def Likeness.shared (env : Setting) (m : Module) (direct : Prop) (number : Ty → Scalar → Scalar → Prop)
    (hrefl : ∀ ty s, number ty s s) : Likeness env m direct where
  memory M N := N = M ∧ Memory.guard ≤ M.size
  address a b := b = a
  number := number
  uneven := False
  number_refl := hrefl

/-- A run is like itself. -/
def Likeness.same (env : Setting) (m : Module) (direct : Prop) : Likeness env m direct :=
  .shared env m direct (fun _ s t => t = s) fun _ _ => rfl

section Shared

variable {ty : Ty} {s t : Scalar} {number : Ty → Scalar → Scalar → Prop} {hrefl : ∀ ty s, number ty s s}

theorem Likeness.Both.shared {Q : α → Memory → α → Prop} (hguard : Memory.guard ≤ M.size)
    (h : Ensures x M (fun _ M' => M.size ≤ M'.size) fun e _ => e.Expected direct)
    (hQ : ∀ a M', x M = .ok a M' → Q a M' a) : (Likeness.shared env m direct number hrefl).Both Q x M x M := by
  unfold Likeness.Both
  cases hx : x M with
  | ok a M' =>
    have hle := h.of_ok hx
    exact .ok hle ⟨rfl, hguard.trans hle⟩ (hQ a M' hx)
  | error e M' => exact .error (h.of_error hx) M' M'

theorem Likeness.shared_scalar_refl (ty : Ty) (s : Scalar) : (shared env m direct number hrefl).scalar ty s s := by
  unfold Likeness.scalar
  split
  · exact hrefl ty s
  · rfl

/-- Runs stay alike if what is computed and stored does not depend on how numbers differ. -/
theorem Likeness.shared_kept (hm : m.Declares env.toSurroundings) (hL : (shared env m direct number hrefl).Computes)
    (hstored : ∀ {ty s t} address, ty.pointer = 0 → number ty s t →
      storeScalar m ty address t = storeScalar m ty address s) :
    (shared env m direct number hrefl).Kept where
  toComputes := hL
  allocate hM count := by
    obtain ⟨rfl, hguard⟩ := hM
    have hsound := @Effect.allocate_sound direct _ hguard count
    exact .shared hguard (hsound.mono (fun _ _ _ h => h.1) fun _ _ _ h => h) fun a M' h => ⟨(hsound.of_ok h).2, rfl⟩
  write hM ha hhas := by
    obtain ⟨rfl, hguard⟩ := hM
    cases ha
    exact .shared hguard (Effect.write_sound hhas) fun _ _ _ => trivial
  copy hM ha hhas ha' hhas' := by
    obtain ⟨rfl, hguard⟩ := hM
    cases ha
    cases ha'
    exact .shared hguard (Effect.copy_sound hhas hhas') fun _ _ _ => trivial
  load hM ha hroom hty _ := by
    obtain ⟨rfl, -⟩ := hM
    cases ha
    exact .same (shared_scalar_refl _) fun _ => loadScalar_expected hty hroom
  store {M N a b ty s t} hM ha hroom hty _ hs := by
    obtain ⟨rfl, hguard⟩ := hM
    cases ha
    have hsame : storeScalar m ty a t = storeScalar m ty a s := by
      unfold Likeness.scalar at hs
      split at hs
      · next hptr => exact hstored a hptr hs
      · next hptr =>
        obtain ⟨base, _ | pointer⟩ := ty
        · exact absurd rfl hptr
        · unfold storeScalar storedWord
          rw [show t.word = s.word from hs]
    rw [hsame]
    exact .shared hguard (storeScalar_sound hty hroom _) fun _ _ _ => trivial
  field hM ha _ hd hfield hzero hj := by
    cases ha
    exact .same (fun _ => rfl) fun e he => (elementAddress_traps hd hfield hm hzero hj _).expected he

theorem Likeness.same_kept (hm : m.Declares env.toSurroundings) : (Likeness.same env m direct).Kept :=
  shared_kept hm (.of_eq id) fun _ _ hs => by cases hs; rfl

/-- **A procedure that is called from outside does not get stuck** on arguments of the types of its parameters. -/
theorem runFresh_expected (hm : m.Sound env direct) {callee : String} (hname : callee ≠ IR.memcpy)
    {arguments : List Scalar} (hargs : ∀ p, m.procedure? callee =
      some p → Forall₂ (fun a s => s.Suits m direct Memory.empty a.ty) p.parameters arguments)
    (he : runFresh m callee arguments = .error e) : e.Expected direct := by
  have hguard : Memory.guard ≤ Memory.empty.size := by
    rfl
  have hM : (Likeness.same env m direct).memory Machine.fresh.memory Machine.fresh.memory := ⟨rfl, hguard⟩
  have hends := Machine.call_abreast_self hm (Likeness.same_kept hm.toDeclares) hname hM (.inr rfl) fun p hp =>
    (hargs p hp).imp fun a s h => ⟨h, Likeness.shared_scalar_refl _ s⟩
  unfold runFresh at he
  rw [he] at hends
  cases hends with
  | error he => exact he
  | left h => exact h.elim
  | right h => exact h.elim

end Shared

end Lowering
