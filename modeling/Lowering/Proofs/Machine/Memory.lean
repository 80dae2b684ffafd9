import Lowering.Machine.Run
import Lowering.Proofs.Except
import Lowering.Proofs.Machine.Word
/-!
# Registers and memory, by what can be seen of them

A register that is set keeps its value while others are set (`Registers.Le`). Memory is seen byte by byte; a range of it
can be used when it is allocated and not near zero (`Memory.Has`), and what reading, writing, copying and allocating do
is said of such ranges. A scalar that its type has lies in memory as a few bytes of a word, and comes back when it is
loaded (`Scalar.HasType.liesAs`).
-/

namespace Lowering

namespace Registers

variable {R R' R'' : Registers} {id : IR.Local} {v : Scalar} {a b a' b' : Nat}

/-- Every register that is set is set to the same value. -/
def Le (R R' : Registers) : Prop := ∀ id v, R.get? id = some v → R'.get? id = some v

theorem Le.refl (R : Registers) : R.Le R := fun _ _ h => h

theorem Le.trans (h : R.Le R') (h' : R'.Le R'') : R.Le R'' := fun id v hv => h' id v (h id v hv)

theorem Le.set (h : R.get? id = none) (v : Scalar) : R.Le (R.set id v) := fun other w hw => by
  rw [get?_set, if_neg (by rintro rfl; rw [h] at hw; cases hw), hw]

theorem operand_congr (h : ∀ id, o.register? = some id → R'.get? id = R.get? id) (ty : IR.Ty) :
    R'.operand ty o = R.operand ty o := by
  cases o with
  | register id => simp [Registers.operand, h id rfl]
  | _ => rfl

theorem get?_of_operand (h : R.operand ty o = .ok s) (hid : o.register? = some id) : R.get? id = some s := by
  cases o with
  | register =>
    cases hid
    simp only [Registers.operand] at h
    grind
  | _ => cases hid

theorem Le.operand (h : R.Le R') (hs : R.operand ty o = .ok s) : R'.operand ty o = .ok s := by
  rw [operand_congr fun id hid => ?_, hs]
  rw [get?_of_operand hs hid, h id s (get?_of_operand hs hid)]

theorem Le.argument (h : R.Le R') {a s} (hs : R.argument a = .ok s) : R'.argument a = .ok s :=
  h.operand hs

/-- No register of a range of numbers is set. -/
def Blank (first last : Nat) (R : Registers) : Prop := ∀ id, first ≤ id → id < last → R.get? id = none

/-- Only registers of a range of numbers are changed. -/
def Changes (first last : Nat) (R R' : Registers) : Prop :=
  ∀ id, ¬ (first ≤ id ∧ id < last) → R'.get? id = R.get? id

theorem Changes.refl (first last : Nat) (R : Registers) : Changes first last R R := fun _ _ => rfl

theorem Changes.trans (h : Changes a b R R') (h' : Changes a b R' R'') : Changes a b R R'' :=
  fun id hid => (h' id hid).trans (h id hid)

theorem Changes.mono (h : Changes a b R R') (ha : a' ≤ a) (hb : b ≤ b') : Changes a' b' R R' :=
  fun id hid => h id fun hid' => hid ⟨ha.trans hid'.1, hid'.2.trans_le hb⟩

theorem Changes.set {id} (ha : a ≤ id) (hb : id < b) (R : Registers) (v : Scalar) :
    Changes a b R (R.set id v) := fun other hother => by
  rw [get?_set, if_neg (by rintro rfl; exact hother ⟨ha, hb⟩)]

theorem Changes.le (h : Changes a b R R') (hblank : R.Blank a b) : R.Le R' := fun id v hv => by
  rw [h id (fun hid => by rw [hblank id hid.1 hid.2] at hv; cases hv), hv]

theorem Blank.mono (h : R.Blank a b) (ha : a ≤ a') (hb : b' ≤ b) : R.Blank a' b' :=
  fun id hfirst hlast => h id (ha.trans hfirst) (hlast.trans_le hb)

theorem Blank.changes (h : R.Blank a b) (hchanges : Changes a' b' R R') (hapart : b ≤ a' ∨ b' ≤ a) :
    R'.Blank a b := fun id hfirst hlast => by
  rw [hchanges id (by omega)]
  exact h id hfirst hlast

theorem get?_set_self (R : Registers) (id : IR.Local) (v : Scalar) : (R.set id v).get? id = some v := by
  rw [get?_set, if_pos rfl]

theorem argument_register (h : R.get? id = some v) : R.argument (.register ty id) = .ok v := by
  simp [argument, IR.Argument.register, operand, h]

theorem argument_set_self (R : Registers) (id : IR.Local) (v : Scalar) (ty : IR.Ty) :
    (R.set id v).argument (.register ty id) = .ok v :=
  argument_register (get?_set_self ..)

theorem arguments_eq_ok {as ss} : R.arguments as = .ok ss ↔ List.Forall₂ (fun a s => R.argument a = .ok s) as ss :=
  mapM_eq_ok_iff

end Registers

namespace Memory

variable {M M' : Memory} {start count : Nat}

/-- A range of bytes that can be used. -/
structure Has (M : Memory) (start count : Nat) : Prop where
  guarded : guard ≤ start
  allocated : start + count ≤ M.size

theorem Has.mono (h : M.Has start count) (hsize : M.size ≤ M'.size) : M'.Has start count :=
  ⟨h.guarded, h.allocated.trans hsize⟩

/-- Memory as a machine has it: it begins with the bytes that are out of bounds, and every address in it is a word. -/
structure Proper (M : Memory) : Prop where
  guarded : guard ≤ M.size
  limited : M.size ≤ limit + 1

theorem Has.stop_lt (h : M.Has start count) (hM : M.Proper) : start + count < 2 ^ 64 :=
  (h.allocated.trans hM.limited).trans_lt (by decide)

theorem Has.count_lt (h : M.Has start count) (hM : M.Proper) : count < 2 ^ 64 :=
  (Nat.le_add_left ..).trans_lt (h.stop_lt hM)

theorem proper_empty : Memory.empty.Proper := by
  have hsize : Memory.empty.size = guard := by
    rfl
  exact ⟨by rw [hsize], by rw [hsize]; decide⟩

theorem slice_congr (h : ∀ a, start ≤ a → a < start + count → M'.byteAt a = M.byteAt a) :
    M'.slice start count = M.slice start count := by
  induction count generalizing start with
  | zero => rfl
  | succ count ih =>
    grind [slice]

theorem slice_append (M : Memory) (start first second : Nat) :
    M.slice start (first + second) = M.slice start first ++ M.slice (start + first) second := by
  induction first generalizing start with
  | zero => simp [slice]
  | succ first ih =>
    rw [Nat.succ_add, slice, slice, ih, List.cons_append, Nat.succ_add_eq_add_succ]

theorem slice_eq_iff {bytes} :
    M.slice start bytes.length = bytes ↔ ∀ i < bytes.length, M.byteAt (start + i) = bytes.getD i 0 := by
  induction bytes generalizing start with
  | nil => simp [slice]
  | cons b rest ih =>
    rw [List.length_cons, slice, List.cons.injEq, Nat.forall_lt_succ_left]
    grind

theorem slice_patch (M : Memory) (start : Nat) (bytes : List UInt8) (h : start + bytes.length ≤ M.size) :
    (M.patch start bytes).slice start bytes.length = bytes := by
  refine slice_eq_iff.2 fun i hi => ?_
  rw [byteAt_patch M start bytes h, if_pos (by omega), Nat.add_sub_cancel_left]

theorem check_eq_ok (hM : M.Proper) (h : M.Has address.toNat count) : M.check address count = .ok () := by
  have hsize : M.size < 2 ^ 64 := hM.limited.trans_lt (by decide)
  have hstop : address.toNat + count < 0x10000000000000000 := h.allocated.trans_lt hsize
  unfold check fit
  rw [if_neg (Nat.not_lt.2 h.guarded), if_pos hstop]
  simp only [bind, Except.bind, pure, Except.pure]
  rw [if_neg (Nat.not_lt.2 h.allocated)]

theorem read_eq_ok (hM : M.Proper) (h : M.Has address.toNat count) :
    M.read address count = .ok (M.slice address.toNat count) := by
  rw [read, check_eq_ok hM h]
  rfl

theorem byteAt_of_size_le (h : M.size ≤ b) : M.byteAt b = 0 :=
  dif_neg (Nat.not_lt.2 h)

theorem Proper.grow (hM : M.Proper) (hsize : M.size + count ≤ limit) : (M.grow (max count 1)).Proper := by
  have := hM.guarded
  constructor <;> rw [size_grow] <;> omega

theorem Proper.has_new (hM : M.Proper) (count : Nat) : (M.grow (max count 1)).Has M.size count :=
  ⟨hM.guarded, by rw [size_grow]; omega⟩

theorem Proper.patch (hM : M.Proper) (a : Nat) (bytes : List UInt8) : (M.patch a bytes).Proper := by
  constructor <;> rw [size_patch]
  exacts [hM.guarded, hM.limited]

end Memory

namespace Effect

variable {α β : Type}

theorem lift_bind {x : Except EvalError α} (h : x = .ok b) (f : α → Effect β) (M : Memory) :
    ((liftM x : Effect α) >>= f) M = f b M := by
  subst h
  rfl

theorem lift_bind_error {x : Except EvalError α} (h : x = .error e) (f : α → Effect β) (M : Memory) :
    ((liftM x : Effect α) >>= f) M = .error e M := by
  subst h
  rfl

theorem allocate_eq (size : Nat) (M : Memory) : Effect.allocate size M =
    if 0x10000000000000000 ≤ M.size + size then .error .trap M
    else if Memory.limit < M.size + size then .error .outOfMemory M
    else .ok (UInt64.ofNat M.size) (M.grow (max size 1)) := by
  show ((liftM (Memory.fit (M.size + size)) : Effect Nat) >>= fun stop => _) M = _
  by_cases hfit : M.size + size < 0x10000000000000000
  · have hstop : Memory.fit (M.size + size) = .ok (M.size + size) := by rw [Memory.fit, if_pos hfit]
    rw [lift_bind hstop, if_neg (Nat.not_le.2 hfit)]
    show (ite (Memory.limit < M.size + size) _ _ : Effect UInt64) M = _
    split <;> rfl
  · have hstop : Memory.fit (M.size + size) = .error .trap := by rw [Memory.fit, if_neg hfit]
    rw [lift_bind_error hstop, if_pos (Nat.le_of_not_lt hfit)]

section Bytes

variable {M : Memory} (hM : M.Proper) {destination : UInt64}
include hM

theorem write_eq (h : M.Has destination.toNat bytes.length) :
    Effect.write destination bytes M = .ok () (M.patch destination.toNat bytes) :=
  lift_bind (Memory.check_eq_ok hM h) _ M

/-- Bytes are read before any is written, so that the ranges may overlap. -/
theorem copy_eq {source : UInt64} (hsrc : M.Has source.toNat count) (hdest : M.Has destination.toNat count) :
    Effect.copy destination source count M = .ok () (M.patch destination.toNat (M.slice source.toNat count)) :=
  (lift_bind (Memory.read_eq_ok hM hsrc) _ M).trans (write_eq hM (by rwa [Memory.length_slice]))

end Bytes

end Effect

/-- The call that copies bytes: its operands are in registers. -/
theorem step_copy
    (hy : frame.registers.get? target = some y) (hx : frame.registers.get? start = some x)
    (hsize : frame.registers.get? size = some (.int (UInt64.ofNat count))) (hcount : count < 2 ^ 64) :
    step m frame callers (.call .void IR.memcpy [.register .bytePointer target, .register .bytePointer start,
      .register (.int 64) size, ⟨.bool, .bool false⟩]) = do
        Effect.copy y.word x.word count
        return .running frame callers := by
  have hargs : frame.registers.arguments [.register .bytePointer target, .register .bytePointer start,
      .register (.int 64) size, ⟨.bool, .bool false⟩] = .ok [y, x, .int (UInt64.ofNat count), .ofBool false] :=
    Registers.arguments_eq_ok.2 (.cons (Registers.argument_register hy) (.cons (Registers.argument_register hx)
      (.cons (Registers.argument_register hsize) (.cons rfl .nil))))
  have hword : (Scalar.int (UInt64.ofNat count)).word.toNat = count := UInt64.toNat_ofNat_of_lt' hcount
  funext M
  refine (Effect.lift_bind hargs _ M).trans ?_
  rw [call, beginCall]
  rw [hword]
  show EStateM.bind (EStateM.bind _ _) _ M = EStateM.bind _ _ M
  unfold EStateM.bind
  cases Effect.copy y.word x.word count M <;> rfl

/-! ### Scalars in memory -/

/-- A scalar in the range of a type of code. -/
inductive Scalar.HasType : IR.Ty → Scalar → Prop where
  | int {bits : Nat} {w : UInt64} (hbits : bits ≤ 64) (hw : w.toNat < 2 ^ bits) : HasType ⟨.int bits, 0⟩ (.int w)
  | single {x : Binary64} (hx : x.narrow = x) : HasType ⟨.float 32, 0⟩ (.float x)
  | double (x : Binary64) : HasType ⟨.float 64, 0⟩ (.float x)
  | pointer (base : IR.Base) (depth : Nat) (w : UInt64) : HasType ⟨base, depth + 1⟩ (.int w)

/-- How a scalar lies in memory: as so many bytes of a word. -/
structure Scalar.LiesAs (m : IR.Module) (ty : IR.Ty) (x : Scalar) (size : Nat) (word : UInt64) : Prop where
  sized : sizeOf m ty = .ok size
  small : size ≤ 8
  stored : storedWord ty x = .ok word
  /-- The bytes of the word are loaded as the scalar. -/
  back : ∀ (M : Memory) (address : UInt64), M.read address size = .ok (Word.toBytes size word) →
    loadScalar m M ty address = .ok x

namespace Scalar

variable {m : IR.Module} {ty : IR.Ty} {x : Scalar} {size : Nat} {word : UInt64} {M M' : Memory} {a : UInt64}

/-- **A scalar that its type has comes back from memory.** -/
theorem HasType.liesAs (h : x.HasType ty) (m : IR.Module) : ∃ size word, x.LiesAs m ty size word := by
  have hback {size : Nat} {word : UInt64} (hsize : size ≤ 8) (hword : word.toNat < 2 ^ (8 * size)) :
      Word.ofBytes (Word.toBytes size word) = word := by
    refine UInt64.toNat_inj.1 ?_
    rw [Word.toNat_ofBytes_toBytes hsize, Nat.mod_eq_of_lt hword]
  cases h with
  | @int bits w hbits hw =>
    have hsize : (bits + 7) / 8 ≤ 8 := by omega
    have hword : w.toNat < 2 ^ (8 * ((bits + 7) / 8)) :=
      hw.trans_le (Nat.pow_le_pow_right (by decide) (by omega))
    refine ⟨(bits + 7) / 8, w, rfl, hsize, rfl, fun M address hread => ?_⟩
    rw [loadScalar, show sizeOf m ⟨.int bits, 0⟩ = .ok ((bits + 7) / 8) from rfl]
    simp only [ok_bind, if_neg (Nat.not_lt.2 hsize), hread, hback hsize hword]
    rfl
  | @single x hx =>
    have hword : x.toSingle.toUInt64.toNat < 2 ^ (8 * 4) := x.toSingle.toNat_lt
    refine ⟨4, x.toSingle.toUInt64, rfl, by decide, rfl, fun M address hread => ?_⟩
    rw [loadScalar, show sizeOf m ⟨.float 32, 0⟩ = .ok 4 from rfl]
    simp only [ok_bind, if_neg (show ¬ 8 < 4 by decide), hread, hback (show 4 ≤ 8 by decide) hword]
    show Except.ok (Scalar.float (.ofSingle x.toSingle.toUInt64.toUInt32)) = _
    rw [UInt32.toUInt32_toUInt64]
    exact congrArg (Except.ok ∘ Scalar.float) hx
  | double x =>
    refine ⟨8, x.bits, rfl, le_rfl, rfl, fun M address hread => ?_⟩
    rw [loadScalar, show sizeOf m ⟨.float 64, 0⟩ = .ok 8 from rfl]
    simp only [ok_bind, if_neg (Nat.lt_irrefl 8), hread, hback (Nat.le_refl 8) x.bits.toNat_lt]
    rfl
  | pointer base depth w =>
    refine ⟨8, w, rfl, le_rfl, rfl, fun M address hread => ?_⟩
    rw [loadScalar, show sizeOf m ⟨base, depth + 1⟩ = .ok 8 from rfl]
    simp only [ok_bind, if_neg (Nat.lt_irrefl 8), hread, hback (Nat.le_refl 8) w.toNat_lt]
    rfl

namespace LiesAs

variable (h : x.LiesAs m ty size word)
include h

theorem store (hM : M.Proper) (hhas : M.Has a.toNat size) :
    storeScalar m ty a x M = .ok () (M.patch a.toNat (Word.toBytes size word)) := by
  refine (Effect.lift_bind h.sized _ M).trans ((Effect.lift_bind h.stored _ M).trans ?_)
  refine (Effect.lift_bind (Memory.check_eq_ok hM hhas) _ M).trans ?_
  rw [if_neg (Nat.not_lt.2 h.small)]
  exact Effect.write_eq hM (by rwa [Word.length_toBytes])

theorem load (hM : M.Proper) (hhas : M.Has a.toNat size) (hbytes : M.slice a.toNat size = Word.toBytes size word) :
    loadScalar m M ty a = .ok x :=
  h.back M a (by rw [Memory.read_eq_ok hM hhas, hbytes])

theorem load_patch (hM : M.Proper) (hhas : M.Has a.toNat size) :
    loadScalar m (M.patch a.toNat (Word.toBytes size word)) ty a = .ok x := by
  refine h.load (hM.patch _ _) (hhas.mono (Nat.le_of_eq (Memory.size_patch ..).symm)) ?_
  have hslice := Memory.slice_patch M a.toNat (Word.toBytes size word)
  rw [Word.length_toBytes] at hslice
  exact hslice hhas.allocated

end LiesAs

theorem LiesAs.load_zero (h : x.LiesAs m ty size 0) (hM : M.Proper) (hhas : M.Has a.toNat size)
    (hzero : ∀ b, a.toNat ≤ b → b < a.toNat + size → M.byteAt b = 0) : loadScalar m M ty a = .ok x := by
  have hslice : M.slice a.toNat (Word.toBytes size 0).length = Word.toBytes size 0 := by
    refine Memory.slice_eq_iff.2 fun i hi => ?_
    simp_all [Word.toBytes_zero size _ (List.getElem_mem hi)]
  rw [Word.length_toBytes] at hslice
  exact h.load hM hhas hslice

end Scalar

/-- What is loaded depends on the bytes that are there, and on no others. -/
theorem loadScalar_congr (hsize : sizeOf m ty = .ok size) (hM : M.Proper)
    (hM' : M'.Proper) (hhas : M.Has a.toNat size) (hhas' : M'.Has a.toNat size)
    (h : ∀ b, a.toNat ≤ b → b < a.toNat + size → M'.byteAt b = M.byteAt b) :
    loadScalar m M' ty a = loadScalar m M ty a := by
  have hread : M'.read a size = M.read a size := by
    rw [Memory.read_eq_ok hM hhas, Memory.read_eq_ok hM' hhas', Memory.slice_congr h]
  unfold loadScalar
  rw [hsize]
  simp [ok_bind, hread]

end Lowering
