import Lowering.Proofs.IR.Ways
import Lowering.Proofs.Machine.Memory
import Lowering.Proofs.Machine.Size
/-!
# Frames of two runs that can go on

Two runs of the same code go side by side. What they have in memory and in registers is alike in some way (`Likeness`),
which is the same for all steps. A run may also go beside itself; what is said here then tells that it can go on.

A frame stands somewhere on a way through its procedure (`Frame.At`), and its registers hold what the code behind it set
(`Registers.Abreast`). A caller stands behind a call whose result it has not got yet (`Caller.Waits`).

Of a register only the type is known, and that it is set. Where code is `direct`, which is to say that all addresses in
it come from allocations, more is known of an address of the first run: there is memory for a value of the type that it
leads to (`Scalar.Suits`).
-/

namespace Lowering

open List
open IR (Argument Block Code Instruction Local Module Procedure Setting Ty Value)

/-- In which way two runs of the code of a module are alike. -/
structure Likeness (env : Setting) (m : Module) (direct : Prop) where
  memory : Memory → Memory → Prop
  /-- Addresses of the same thing. -/
  address : UInt64 → UInt64 → Prop
  /-- Scalars of a type that is no address. -/
  number : Ty → Scalar → Scalar → Prop
  /-- One of the runs may come to the end of its memory or its budget before the other. -/
  uneven : Prop
  number_refl : ∀ ty s, number ty s s

variable {env : Setting} {m : Module} {direct : Prop} {L : Likeness env m direct} {M M' : Memory} {ty : Ty}
  {s t : Scalar} {value : Value}

/-! ### Scalars of a type -/

/-- Memory for a value of a type, where code is direct. -/
def Room (m : Module) (direct : Prop) (M : Memory) (ty : Ty) (address : UInt64) : Prop :=
  direct → ∃ size, sizeOf m ty = .ok size ∧ M.Has address.toNat size

/-- A scalar of a type: where code is direct an address leads to a value of the type it points to. -/
def Scalar.Suits (m : Module) (direct : Prop) (M : Memory) (ty : Ty) (s : Scalar) : Prop :=
  direct → ty.pointer ≤ 1 ∧ ∀ pointee, ty.pointee? = some pointee →
    ∃ size, sizeOf m pointee = .ok size ∧ M.Has s.word.toNat size

theorem IR.Ty.pointer_of_pointee? (h : ty.pointee? = some pointee) : ty.pointer = pointee.pointer + 1 := by
  grind [Ty.pointee?]

theorem IR.Ty.IsScalar.ne_bytes (h : ty.IsScalar) (length : Nat) : ty ≠ ⟨.array length (.int 8), 0⟩ := by
  rintro rfl
  obtain h | ⟨bits, -, h | h⟩ := h
  · exact h rfl
  · cases h
  · cases h

theorem IR.Ty.ne_bytes_of_pointee? (h : ty.pointee? = some pointee) (length : Nat) :
    ty ≠ ⟨.array length (.int 8), 0⟩ := by
  rintro rfl
  cases h

theorem Scalar.Suits.of_plain (hty : direct → ty.pointer = 0) (s : Scalar) : s.Suits m direct M ty := fun hdir => by
  refine ⟨by simp_all, fun pointee hpointee => ?_⟩
  rw [IR.Ty.pointer_of_pointee? hpointee] at hty
  cases hty hdir

namespace Likeness

/-- Scalars that are alike, as the type tells. -/
def scalar (L : Likeness env m direct) (ty : Ty) (s t : Scalar) : Prop :=
  if ty.pointer = 0 then L.number ty s t else L.address s.word t.word

/-- Scalars of a type in both runs. -/
structure Relates (L : Likeness env m direct) (M : Memory) (ty : Ty) (s t : Scalar) : Prop where
  suits : s.Suits m direct M ty
  alike : L.scalar ty s t

namespace Relates

theorem mono (h : L.Relates M ty s t) (hsize : M.size ≤ M'.size) : L.Relates M' ty s t where
  suits hdir := ⟨(h.suits hdir).1, fun pointee hpointee =>
    let ⟨size, hsizeOf, hhas⟩ := (h.suits hdir).2 pointee hpointee
    ⟨size, hsizeOf, hhas.mono hsize⟩⟩
  alike := h.alike

theorem of_number (hty : ty.pointer = 0) (h : L.number ty s t) : L.Relates M ty s t :=
  ⟨.of_plain (fun _ => hty) s, (if_pos hty).mpr h⟩

theorem of_address (hplain : direct → pointee.pointer = 0) (hroom : Room m direct M pointee s.word)
    (h : L.address s.word t.word) : L.Relates M pointee.pointerTo s t where
  suits hdir := by
    refine ⟨Nat.succ_le_succ (Nat.le_of_eq (hplain hdir)), fun pointee' hpointee => ?_⟩
    cases hpointee
    exact hroom hdir
  alike := (if_neg (Nat.succ_ne_zero _)).mpr h

theorem number (h : L.Relates M ty s t) (hty : ty.pointer = 0) : L.number ty s t := (if_pos hty).mp h.alike

section Address

variable (h : L.Relates M ty s t) {pointee : Ty} (hpointee : ty.pointee? = some pointee)
include h hpointee

theorem address : L.address s.word t.word :=
  (if_neg (by rw [IR.Ty.pointer_of_pointee? hpointee]; exact Nat.succ_ne_zero _)).mp h.alike

theorem room : Room m direct M pointee s.word := fun hdir => (h.suits hdir).2 pointee hpointee

theorem plain (hdir : direct) : pointee.pointer = 0 := by
  have hptr := (h.suits hdir).1
  rw [IR.Ty.pointer_of_pointee? hpointee] at hptr
  omega

end Address

end Relates

end Likeness

/-- What is known of the scalars that a value comes down to. -/
structure IR.Value.Gives (L : Likeness env m direct) (M : Memory) (value : Value) (s t : Scalar) : Prop where
  relates : value.isRaw = false → L.Relates M value.resultType s t
  cast : ∀ source target, value = .bitcast source target → L.Relates M source.ty s t
  size : ∀ ty, value = .sizeOf ty → ∃ size, Lowering.sizeOf m ty = .ok size ∧ s = .int (UInt64.ofNat size) ∧ t = s

theorem IR.Value.Gives.mono (h : value.Gives L M s t) (hsize : M.size ≤ M'.size) : value.Gives L M' s t :=
  ⟨fun hraw => (h.relates hraw).mono hsize,
    fun source target hvalue => (h.cast source target hvalue).mono hsize, h.size⟩

theorem IR.Value.Gives.of_relates (hcast : ∀ source target, value ≠ .bitcast source target)
    (hsize : ∀ ty, value ≠ .sizeOf ty) (h : L.Relates M value.resultType s t) : value.Gives L M s t :=
  ⟨fun _ => h, fun source target hvalue => absurd hvalue (hcast source target),
    fun ty hvalue => absurd hvalue (hsize ty)⟩

/-! ### Registers -/

/-- Registers of both runs hold what was set on a way. In the block that control is in, also what was set for a byte
copy. -/
structure Registers.Abreast (L : Likeness env m direct) (M : Memory) (p : Procedure) (passed : List Block)
    (before : Code) (R S : Registers) : Prop where
  held : ∀ x ∈ p.held passed before, ∃ s t, R.get? x.1 = some s ∧ S.get? x.1 = some t ∧ L.Relates M x.2 s t
  recent : ∀ r value, .set r value ∈ before → ∃ s t, R.get? r = some s ∧ S.get? r = some t ∧ value.Gives L M s t

namespace Registers.Abreast

variable {p : Procedure} {passed : List Block} {b : Block} {before after : Code} {R S : Registers}

theorem mono (h : R.Abreast L M p passed before S) (hsize : M.size ≤ M'.size) : R.Abreast L M' p passed before S where
  held x hx :=
    let ⟨s, t, hs, ht, hrel⟩ := h.held x hx
    ⟨s, t, hs, ht, hrel.mono hsize⟩
  recent r value hvalue :=
    let ⟨s, t, hs, ht, hgives⟩ := h.recent r value hvalue
    ⟨s, t, hs, ht, hgives.mono hsize⟩

theorem skip (h : R.Abreast L M p passed before S) (hi : ∀ r value, i ≠ .set r value) :
    R.Abreast L M p passed (before ++ [i]) S where
  held x hx := by
    have hnone : IR.kept [i] = [] := by
      cases i with
      | set r value => exact absurd rfl (hi r value)
      | _ => rfl
    simp only [Procedure.held, IR.Typing.mem_past, IR.kept_append, hnone, append_nil] at hx
    refine h.held x ?_
    simpa only [Procedure.held, IR.Typing.mem_past, IR.kept_append] using hx
  recent r value hvalue := by
    obtain hvalue | hvalue := mem_append.1 hvalue
    · exact h.recent r value hvalue
    · exact absurd (mem_singleton.1 hvalue).symm (hi r value)

/-- An instruction that sets a register. On the way to it that register was not set. -/
theorem set (h : R.Abreast L M p passed before S) (hp : p.WellFormed env) (hreach : p.Reaches passed b)
    (hcode : b.instructions = before ++ .set r value :: after) (hgives : value.Gives L M s t) :
    (R.set r s).Abreast L M p passed (before ++ [.set r value]) (S.set r t) := by
  have hfresh := hp.fresh hreach hcode
  refine ⟨fun x hx => ?_, fun r' value' hmem => ?_⟩
  · have hx : x ∈ p.held passed before ∨ x ∈ IR.kept [.set r value] := by
      grind [Procedure.held, IR.Typing.mem_past, IR.kept_append]
    obtain hx | hx := hx
    · have hne := hfresh x (p.held_subset_known passed before hx)
      rw [Registers.get?_set, Registers.get?_set, if_neg hne, if_neg hne]
      exact h.held x hx
    obtain ⟨i, hi, hx⟩ := mem_filterMap.1 hx
    cases mem_singleton.1 hi
    dsimp only at hx
    split at hx
    · cases hx
    rename_i hraw
    cases hx
    exact ⟨s, t, Registers.get?_set_self .., Registers.get?_set_self .., hgives.relates (by simpa using hraw)⟩
  obtain hmem | hmem := mem_append.1 hmem
  · have hne : r' ≠ r := hfresh (r', value'.resultType)
      (p.results_subset_known passed before (mem_filterMap.2 ⟨_, hmem, rfl⟩))
    rw [Registers.get?_set, Registers.get?_set, if_neg hne, if_neg hne]
    exact h.recent r' value' hmem
  · cases mem_singleton.1 hmem
    exact ⟨s, t, Registers.get?_set_self .., Registers.get?_set_self .., hgives⟩

/-- At the end of a block control goes on to another. -/
theorem turn (h : R.Abreast L M p passed b.instructions S) : R.Abreast L M p (passed ++ [b]) [] S where
  held := by
    rw [Procedure.held_append]
    exact h.held
  recent _ _ hvalue := by cases hvalue

/-- An operand of a type has a value in both runs. Bytes are an operand of stores only. -/
theorem operand (h : R.Abreast L M p passed before S) (ho : o.Fits (p.held passed before) ty)
    (hbytes : ∀ length, ty ≠ ⟨.array length (.int 8), 0⟩) :
    ∃ s t, R.operand ty o = .ok s ∧ S.operand ty o = .ok t ∧ L.Relates M ty s t := by
  cases o with
  | register id =>
    obtain ⟨s, t, hs, ht, hrel⟩ := h.held _ ho
    exact ⟨s, t, by simp [Registers.operand, hs], by simp [Registers.operand, ht], hrel⟩
  | int | float =>
    obtain ⟨bits, rfl⟩ := ho
    exact ⟨_, _, rfl, rfl, .of_number rfl (L.number_refl _ _)⟩
  | bool b =>
    cases ho
    exact ⟨_, _, rfl, rfl, .of_number rfl (L.number_refl _ _)⟩
  | bytes => exact absurd ho (hbytes _)

theorem numeric (h : R.Abreast L M p passed before S) (ho : o.Fits (p.held passed before) ty)
    (hty : ty.IsNumeric) : ∃ s t, R.operand ty o = .ok s ∧ S.operand ty o = .ok t ∧ L.number ty s t := by
  obtain ⟨s, t, hs, ht, hrel⟩ := h.operand ho hty.2.ne_bytes
  exact ⟨s, t, hs, ht, hrel.number hty.1⟩

theorem arguments (h : R.Abreast L M p passed before S) {as} (has : ∀ a ∈ as, a.Fits (p.held passed before))
    (hbytes : ∀ a ∈ as, ∀ length, a.ty ≠ ⟨.array length (.int 8), 0⟩) :
    ∃ xs : List (Scalar × Scalar), R.arguments as = .ok (xs.map Prod.fst) ∧ S.arguments as = .ok (xs.map Prod.snd) ∧
      Forall₂ (fun ty x => L.Relates M ty x.1 x.2) (as.map Argument.ty) xs := by
  induction as with
  | nil => exact ⟨[], rfl, rfl, .nil⟩
  | cons a as ih =>
    obtain ⟨s, t, hs, ht, hrel⟩ := h.operand (has a (.head _)) (hbytes a (.head _))
    obtain ⟨xs, hss, hts, hall⟩ := ih (fun a ha => has a (.tail _ ha)) fun a ha => hbytes a (.tail _ ha)
    refine ⟨(s, t) :: xs, ?_, ?_, .cons hrel hall⟩
    · rw [Registers.arguments_eq_ok] at hss ⊢
      exact .cons hs hss
    · rw [Registers.arguments_eq_ok] at hts ⊢
      exact .cons ht hts

end Registers.Abreast

/-! ### Arguments that arrive -/

section Bind

variable {R S : Registers} {id : Local}

theorem Registers.get?_bind_of_not_mem (values : List Scalar)
    (h : id ∉ parameters.filterMap fun a => a.value.register?) : (R.bind parameters values).get? id = R.get? id := by
  induction parameters generalizing R values with
  | nil => rfl
  | cons a parameters ih =>
    rcases values with _ | ⟨v, values⟩
    · rfl
    obtain ⟨ty, o⟩ := a
    cases o with
    | register r =>
      have hid : id ≠ r ∧ id ∉ parameters.filterMap fun a => a.value.register? := by
        simpa [IR.Operand.register?, not_or] using h
      rw [Registers.bind]
      rw [ih values hid.2, Registers.get?_set, if_neg hid.1]
    | _ => exact ih values h

theorem Registers.get?_bind {P : Ty → Scalar → Scalar → Prop}
    (hxs : Forall₂ (fun ty x => P ty x.1 x.2) (parameters.map Argument.ty) xs)
    (hnodup : (parameters.filterMap fun a => a.value.register?).Nodup) :
    ∀ x ∈ IR.registersOf parameters, ∃ s t, (R.bind parameters (xs.map Prod.fst)).get? x.1 = some s ∧
      (S.bind parameters (xs.map Prod.snd)).get? x.1 = some t ∧ P x.2 s t := by
  rw [forall₂_map_left_iff] at hxs
  induction hxs generalizing R S with
  | nil => simp [IR.registersOf]
  | @cons a v parameters values hv _ ih =>
    obtain ⟨ty, o⟩ := a
    cases o with
    | register r =>
      have hnodup : r ∉ parameters.filterMap (fun a => a.value.register?) ∧
          (parameters.filterMap fun a => a.value.register?).Nodup := by
        simpa only [IR.Operand.register?, filterMap_cons, nodup_cons] using hnodup
      intro x hx
      rw [map_cons, map_cons, Registers.bind, Registers.bind]
      have hx : x = (r, ty) ∨ x ∈ IR.registersOf parameters := by
        simpa [IR.registersOf, IR.Operand.register?] using hx
      obtain rfl | hx := hx
      · refine ⟨v.1, v.2, ?_, ?_, hv⟩
        · rw [get?_bind_of_not_mem _ hnodup.1, Registers.get?_set_self]
        · rw [get?_bind_of_not_mem _ hnodup.1, Registers.get?_set_self]
      · exact ih hnodup.2 x hx
    | _ => exact ih hnodup

end Bind

/-! ### Frames -/

/-- A procedure that frames can run. -/
structure IR.Procedure.Sound (env : Setting) (p : Procedure) : Prop where
  wellFormed : p.WellFormed env
  runnable : p.Runnable env
  result : ∀ length, p.returnType ≠ ⟨.array length (.int 8), 0⟩
  widened : ∀ b ∈ p.blocks, ∀ r value target, .set r (.convert .zext value target) ∈ b.instructions →
    env.widens value.ty

/-- Where a frame is: control has passed through blocks, and then through some of another block. -/
structure Frame.At (env : Setting) (frame : Frame) (passed : List Block) (b : Block) (before : Code) : Prop where
  sound : frame.procedure.Sound env
  reaches : frame.procedure.Reaches passed b
  label : frame.label = b.label
  code : b.instructions = before ++ frame.rest
  previous : frame.previous = passed.getLast?.map Block.label

/-- A frame that can go on. That of the second run differs in its registers only. -/
def Frame.Abreast (L : Likeness env m direct) (M : Memory) (frame : Frame) (S : Registers) : Prop :=
  frame.rest ≠ [] ∧
    ∃ passed b before, frame.At env passed b before ∧ frame.registers.Abreast L M frame.procedure passed before S

/-- A caller that can go on when it gets a result of a type. -/
def Caller.Waits (L : Likeness env m direct) (M : Memory) (ty : Ty) (caller : Caller) (S : Registers) : Prop :=
  ∃ passed b before i, caller.frame.At env passed b (before ++ [i]) ∧
    caller.frame.registers.Abreast L M caller.frame.procedure passed before S ∧
      match caller.destination with
      | none => ∃ callee arguments, i = .call ty callee arguments
      | some r => ∃ callee arguments, i = .set r (.call ty callee arguments) ∧ ty.isVoid = false

/-- The frames that wait for a result of a type, each for the result of the one before. The first that was called gives
a result of the type `outer`. -/
inductive Waiting (L : Likeness env m direct) (M : Memory) (outer : Ty) : Ty → List Caller → List Caller → Prop where
  | nil : Waiting L M outer outer [] []
  | cons {ty : Ty} {frame : Frame} {S : Registers} {destination : Option Local} {callers callers' : List Caller}
      (hwaits : Caller.Waits L M ty ⟨frame, destination⟩ S)
      (h : Waiting L M outer frame.procedure.returnType callers callers') :
      Waiting L M outer ty (⟨frame, destination⟩ :: callers) (⟨{ frame with registers := S }, destination⟩ :: callers')

/-- Where steps of both runs may lead. -/
inductive Progress.Abreast (L : Likeness env m direct) (outer : Ty) : Progress → Memory → Progress → Prop where
  | running {frame : Frame} {S : Registers} {callers callers' : List Caller} {M : Memory} (hframe : frame.Abreast L M S)
      (hwaiting : Waiting L M outer frame.procedure.returnType callers callers') :
      Progress.Abreast L outer (.running frame callers) M (.running { frame with registers := S } callers')
  | finished {result result' : Option Scalar} {M : Memory} (h : Option.Rel (L.scalar outer) result result') :
      Progress.Abreast L outer (.finished result) M (.finished result')

section Frames

variable {outer : Ty} {frame : Frame} {S : Registers} {callers callers' : List Caller} {passed : List Block} {b : Block}
  {before rest : Code} {i : Instruction}

theorem Waiting.mono (h : Waiting L M outer ty callers callers') (hsize : M.size ≤ M'.size) :
    Waiting L M' outer ty callers callers' := by
  induction h with
  | nil => exact .nil
  | cons hwaits _ ih =>
    obtain ⟨passed, b, before, i, hat, hR, hi⟩ := hwaits
    exact .cons ⟨passed, b, before, i, hat, hR.mono hsize, hi⟩ ih

theorem Waiting.length_eq (h : Waiting L M outer ty callers callers') : callers'.length = callers.length := by
  induction h with
  | nil => rfl
  | cons _ _ ih => simp_all

theorem Frame.At.rest_ne_nil (h : frame.At env passed b (before ++ [i])) (hi : i.isTerminator = false) :
    frame.rest ≠ [] := by
  have hcode := h.code
  rw [append_assoc] at hcode
  exact (h.sound.wellFormed.closed b h.reaches.mem).rest_ne_nil hcode hi

theorem Frame.At.advance (h : frame.At env passed b before) (hrest : frame.rest = i :: rest) (registers : Registers) :
    Frame.At env { frame with rest, registers } passed b (before ++ [i]) where
  sound := h.sound
  reaches := h.reaches
  label := h.label
  code := by rw [h.code, hrest, append_assoc]; rfl
  previous := h.previous

theorem Frame.Abreast.skip (hat : frame.At env passed b (before ++ [i])) (hplain : i.isTerminator = false)
    (hi : ∀ r value, i ≠ .set r value) (hR : frame.registers.Abreast L M frame.procedure passed before S) :
    frame.Abreast L M S :=
  ⟨hat.rest_ne_nil hplain, passed, b, _, hat, hR.skip hi⟩

theorem Frame.Abreast.set (hat : frame.At env passed b (before ++ [.set r value]))
    (hR : frame.registers.Abreast L M frame.procedure passed before S) (hgives : value.Gives L M s t) :
    Frame.Abreast L M { frame with registers := frame.registers.set r s } (S.set r t) := by
  have hcode : b.instructions = before ++ .set r value :: frame.rest := by
    rw [hat.code, append_assoc]
    rfl
  refine ⟨hat.rest_ne_nil rfl, passed, b, _, ?_, hR.set hat.sound.wellFormed hat.reaches hcode hgives⟩
  exact ⟨hat.sound, hat.reaches, hat.label, hat.code, hat.previous⟩

/-- **Leaving a procedure**: the caller takes the result and goes on. -/
theorem leave_abreast (hwaiting : Waiting L M outer ty callers callers')
    (hvoid : result = none → ty = .void) (hres : Option.Rel (L.Relates M ty) result result') :
    ∃ progress progress', leave result callers = .ok progress ∧ leave result' callers' = .ok progress' ∧
      progress.Abreast L outer M progress' := by
  cases hwaiting with
  | nil =>
    refine ⟨_, _, rfl, rfl, .finished ?_⟩
    cases hres with
    | none => exact .none
    | some hrel => exact .some hrel.alike
  | @cons _ frame S destination callers callers' hwaits hwaiting =>
    obtain ⟨passed, b, before, i, hat, hR, hi⟩ := hwaits
    rcases destination with _ | r
    · obtain ⟨callee, arguments, rfl⟩ := hi
      exact ⟨_, _, rfl, rfl, .running (Frame.Abreast.skip hat rfl (by simp) hR) hwaiting⟩
    obtain ⟨callee, arguments, rfl, hvalue⟩ := hi
    cases hres with
    | none =>
      rw [hvoid rfl] at hvalue
      cases hvalue
    | some hrel =>
      exact ⟨_, _, rfl, rfl, .running (Frame.Abreast.set hat hR (.of_relates (by simp) (by simp) hrel)) hwaiting⟩

/-- **Going on at a label** at the end of a block. -/
theorem Frame.goTo_abreast (hat : frame.At env passed b (before ++ [i])) (hrest : frame.rest = [])
    (hl : l ∈ i.successors) (hR : frame.registers.Abreast L M frame.procedure passed (before ++ [i]) S) :
    ∃ next, frame.goTo l = .ok next ∧ Frame.goTo { frame with registers := S } l = .ok { next with registers := S } ∧
      next.procedure = frame.procedure ∧ next.Abreast L M S := by
  have hcode : b.instructions = before ++ [i] := by rw [hat.code, hrest, append_nil]
  obtain ⟨next, hnext, hreach⟩ := hat.sound.wellFormed.next hat.reaches hcode hl
  have hgoTo (R : Registers) : Frame.goTo { frame with registers := R } l = .ok { frame with
      label := next.label, rest := next.instructions, previous := some frame.label, registers := R } := by
    rw [Frame.goTo, hnext]
  refine ⟨_, hgoTo frame.registers, hgoTo S, rfl, (hat.sound.wellFormed.closed next hreach.mem).ne_nil,
    passed ++ [b], next, [], ?_, ?_⟩
  · refine ⟨hat.sound, hreach, rfl, rfl, ?_⟩
    rw [List.getLast?_concat, Option.map_some, hat.label]
  · rw [← hcode] at hR
    exact hR.turn

/-- **Beginning a procedure** with arguments of the types of its parameters. -/
theorem Frame.enter_abreast {p : Procedure} (hp : p.Sound env)
    (hxs : Forall₂ (fun ty x => L.Relates M ty x.1 x.2) (p.parameters.map Argument.ty) xs) :
    (∀ ss, Frame.enter p ss = .error (.external p.name)) ∨
      ∃ frame S, Frame.enter p (xs.map Prod.fst) = .ok frame ∧
        Frame.enter p (xs.map Prod.snd) = .ok { frame with registers := S } ∧ frame.procedure = p ∧
        frame.Abreast L M S := by
  unfold Frame.enter
  rcases hblocks : p.blocks with _ | ⟨b, rest⟩
  · exact .inl fun _ => rfl
  have hentry : p.Reaches [] b := .entry hblocks
  refine .inr ⟨_, _, rfl, rfl, rfl, (hp.wellFormed.closed b hentry.mem).ne_nil, [], b, [], ⟨hp, hentry, rfl, rfl, rfl⟩,
    fun x hx => ?_, ?_⟩
  · have hparams : (p.parameters.filterMap fun a => a.value.register?).Nodup :=
      (nodup_append.1 hp.wellFormed.locals_nodup).1
    exact Registers.get?_bind hxs hparams x hx
  · simp

end Frames

end Lowering
