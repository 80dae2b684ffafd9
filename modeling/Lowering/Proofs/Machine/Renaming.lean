import Lowering.Proofs.Machine.Progress
import Lowering.Proofs.Machine.Run
/-!
# An instruction does the same whatever the locals are called

A procedure and one with other locals are run side by side. Frames of the two go together (`Frame.Renames`) when they
are at the same instruction and registers that are set have the same values. Only a failure tells the name of a local
(`EvalError.Renames`).

What an instruction comes to does not depend on the frames that wait (`step_eq`): it goes on in its frame, makes a call
or leaves its frame.
-/

namespace Lowering

open List
open IR (Argument Block Code Instruction Local Operand Procedure)

/-! ### Steps without callers -/

/-- What an instruction comes to. -/
inductive Outcome where
  | goes (frame : Frame)
  | calls (inner frame : Frame) (destination : Option Local)
  | leaves (result : Option Scalar)

/-- Where an instruction leads while callers wait. -/
def Outcome.complete (callers : List Caller) : Outcome → Except EvalError Progress
  | goes frame => .ok (.running frame callers)
  | calls inner frame destination => .ok (.running inner (⟨frame, destination⟩ :: callers))
  | leaves result => leave result callers

section Outcomes

variable (m : IR.Module) (depth : Nat)

/-- What a call comes to, when `depth` calls are in progress. -/
def dispatch (frame : Frame) (destination : Option Local) (callee : String) (arguments : List Scalar) :
    Effect Outcome := do
  match ← beginCall m depth callee arguments with
  | some inner => return .calls inner frame destination
  | none => return .goes (← frame.deliver destination none)

/-- What an instruction comes to, when `depth` calls are in progress. -/
def outcome (frame : Frame) : Instruction → Effect Outcome
  | .label _ => return .goes frame
  | .set destination value => do
    match ← evaluate m frame value with
    | .done result => return .goes (← frame.deliver destination result)
    | .call callee arguments => dispatch m depth frame destination callee arguments
  | .store address value => do
    let address ← frame.registers.argument address
    match value.value with
    | .bytes data => Effect.write address.word data
    | operand => storeScalar m value.ty address.word (← frame.registers.operand value.ty operand)
    return .goes frame
  | .call _ callee arguments => do
    let arguments ← frame.registers.arguments arguments
    dispatch m depth frame none callee arguments
  | .branch condition positive negative => do
    let condition ← frame.registers.argument condition
    let frame ← frame.goTo (if condition.word &&& 1 = 1 then positive else negative)
    return .goes frame
  | .jump target => do
    let frame ← frame.goTo target
    return .goes frame
  | .ret none => return .leaves none
  | .ret (some value) => do
    let value ← frame.registers.argument value
    return .leaves (some value)

end Outcomes

theorem call_eq (m : IR.Module) (frame : Frame) (callers : List Caller) (destination : Option Local) (callee : String)
    (arguments : List Scalar) : call m frame callers destination callee arguments =
      dispatch m (callers.length + 1) frame destination callee arguments >>= fun o => liftM (o.complete callers) := by
  unfold call dispatch
  rw [bind_assoc]
  refine bind_congr fun inner => ?_
  cases inner with
  | none =>
    simp only [bind_assoc, pure_bind]
    rfl
  | some => rfl

/-- **A step is what the instruction comes to**, with the callers that wait. -/
theorem step_eq (m : IR.Module) (frame : Frame) (callers : List Caller) (i : Instruction) :
    step m frame callers i = outcome m (callers.length + 1) frame i >>= fun o => liftM (o.complete callers) := by
  cases i with
  | label => rfl
  | set destination value =>
    unfold step outcome
    rw [bind_assoc]
    refine bind_congr fun evaluation => ?_
    cases evaluation with
    | done result =>
      rfl
    | call => exact call_eq ..
  | store address value =>
    obtain ⟨ty, operand⟩ := value
    unfold step outcome
    rw [bind_assoc]
    refine bind_congr fun address => ?_
    cases operand <;> (simp only [bind_assoc, pure_bind]; rfl)
  | call ty callee arguments =>
    unfold step outcome
    rw [bind_assoc]
    exact bind_congr fun arguments => call_eq ..
  | branch | jump =>
    unfold step outcome
    simp only [bind_assoc, pure_bind]
    rfl
  | ret value =>
    rcases value with _ | value
    · rfl
    unfold step outcome
    simp only [bind_assoc, pure_bind]
    rfl

/-! ### Steps that come out alike -/

variable {e : EvalError} {destination : Option Local}

namespace EvalError

/-- A failure that tells of a local by another name. -/
def rename (ρ : Local → Local) : EvalError → EvalError
  | .undefinedRegister id => .undefinedRegister (ρ id)
  | .unknownLabel label => .unknownLabel (ρ label)
  | .unterminatedBlock label => .unterminatedBlock (ρ label)
  | e => e

/-- The same failure, or one that tells of the same local by its other name. -/
def Renames (ρ : Local → Local) (e0 e : EvalError) : Prop := e = e0 ∨ e = e0.rename ρ

variable {ρ : Local → Local}

theorem rename_id (e : EvalError) : e.rename id = e := by
  cases e <;> rfl

theorem Renames.refl (e : EvalError) : e.Renames ρ e := .inl rfl

theorem Renames.eq (h : e0.Renames ρ e) (he : e0.isStuck = false) : e = e0 := by
  obtain rfl | rfl := h
  · rfl
  cases e0 with
  | undefinedRegister | unknownLabel | unterminatedBlock => cases he
  | _ => rfl

end EvalError

/-- A question is answered alike: with the same value, or with failures that go together. -/
inductive Echoes {α : Type} (ρ : Local → Local) : Except EvalError α → Except EvalError α → Prop where
  | ok (a : α) : Echoes ρ (.ok a) (.ok a)
  | error {e0 e : EvalError} (h : e0.Renames ρ e) : Echoes ρ (.error e0) (.error e)

namespace Echoes

variable {α β : Type} {ρ : Local → Local} {x0 x : Except EvalError α} {f0 f : α → Except EvalError β}

theorem refl (x : Except EvalError α) : Echoes ρ x x := by
  cases x with
  | ok a => exact .ok a
  | error e => exact .error (.refl e)

theorem bind (h : Echoes ρ x0 x) (hf : ∀ a, Echoes ρ (f0 a) (f a)) : Echoes ρ (x0 >>= f0) (x >>= f) := by
  cases h with
  | ok a => exact hf a
  | error he => exact .error he

theorem map (g : α → β) (h : Echoes ρ x0 x) : Echoes ρ (g <$> x0) (g <$> x) := by
  cases h with
  | ok a => exact .ok (g a)
  | error he => exact .error he

theorem mapM {γ : Type} {g0 g : γ → Except EvalError α} {cs : List γ} (h : ∀ c ∈ cs, Echoes ρ (g0 c) (g c)) :
    Echoes ρ (cs.mapM g0) (cs.mapM g) := by
  induction cs with
  | nil => exact .refl _
  | cons c cs ih =>
    rw [mapM_cons, mapM_cons]
    refine (h c (.head _)).bind fun a => ?_
    exact (ih fun c hc => h c (.tail _ hc)).bind fun as => .refl _

end Echoes

/-- A step comes out where another one does, with results that go together, or with failures that do. -/
def Effect.Echoes {α β : Type} (ρ : Local → Local) (x0 : Effect α) (x : Effect β) (M : Memory) (Q : α → β → Prop) :
    Prop :=
  match x0 M with
  | .ok a M' => ∃ b, x M = .ok b M' ∧ Q a b
  | .error e0 M' => ∃ e, x M = .error e M' ∧ e0.Renames ρ e

namespace Effect.Echoes

variable {α β γ δ : Type} {ρ : Local → Local} {x0 : Effect α} {x : Effect β} {f0 : α → Effect γ} {f : β → Effect δ}
  {M : Memory} {Q : α → β → Prop} {Q' : γ → δ → Prop}

theorem pure (h : Q a b) : Effect.Echoes ρ (Pure.pure a) (Pure.pure b) M Q := ⟨b, rfl, h⟩

theorem refl {Q} (x : Effect α) (M : Memory) (h : ∀ a, Q a a) : Effect.Echoes ρ x x M Q := by
  unfold Effect.Echoes
  split
  · simp [*]
  · next e _ hx => exact ⟨e, hx, .refl e⟩

theorem error (h : e0.Renames ρ e) : Effect.Echoes (α := α) (β := β) ρ (throw e0) (throw e) M Q :=
  ⟨e, rfl, h⟩

theorem bind (h : x0.Echoes ρ x M Q) (hf : ∀ a b M', Q a b → (f0 a).Echoes ρ (f b) M' Q') :
    (x0 >>= f0).Echoes ρ (x >>= f) M Q' := by
  unfold Effect.Echoes at h ⊢
  show match EStateM.bind x0 f0 M with
    | .ok a M' => ∃ b, EStateM.bind x f M = .ok b M' ∧ Q' a b
    | .error e0 M' => ∃ e, EStateM.bind x f M = .error e M' ∧ e0.Renames ρ e
  unfold EStateM.bind
  cases hx : x0 M with
  | ok a M' =>
    rw [hx] at h
    obtain ⟨b, hb, hQ⟩ := h
    rw [hb]
    exact hf a b M' hQ
  | error e0 M' =>
    grind

theorem lift_bind (h : Lowering.Echoes ρ y0 y) (hg : ∀ a, (g0 a).Echoes ρ (g a) M Q') :
    Effect.Echoes ρ ((liftM y0 : Effect α) >>= g0) ((liftM y : Effect α) >>= g) M Q' := by
  cases h with
  | ok a => exact hg a
  | error he => exact ⟨_, rfl, he⟩

theorem same (x : Effect α) : Effect.Echoes ρ x x M Eq := refl x M fun _ => rfl

theorem same_bind (x : Effect α) (hg : ∀ a M', (g0 a).Echoes ρ (g a) M' Q') :
    Effect.Echoes ρ (x >>= g0) (x >>= g) M Q' :=
  (same x).bind fun a _ M' hab => hab ▸ hg a M'

end Effect.Echoes

/-! ### Registers -/

section Registers

variable {ρ : Local → Local} {D : Local → Prop}

/-- Registers have the values of the renamed ones, and those that are set are among certain locals. -/
structure Registers.Renames (ρ : Local → Local) (D : Local → Prop) (R0 R : Registers) : Prop where
  same : ∀ id, R.get? (ρ id) = R0.get? id
  locals : ∀ id v, R0.get? id = some v → D id

namespace Registers.Renames

variable {R0 R : Registers}

theorem nil : Registers.Renames ρ D [] [] := ⟨fun _ => rfl, fun _ _ h => by cases h⟩

theorem operand (h : R0.Renames ρ D R) (ty : IR.Ty) (o : Operand) :
    Echoes ρ (R0.operand ty o) (R.operand ty (o.rename ρ)) := by
  cases o with
  | register id =>
    simp only [Registers.operand, Operand.rename, h.same]
    cases R0.get? id with
    | none => exact .error (.inr rfl)
    | some v => exact .ok v
  | _ => exact .refl _

theorem argument (h : R0.Renames ρ D R) (a : Argument) : Echoes ρ (R0.argument a) (R.argument (a.rename ρ)) :=
  h.operand a.ty a.value

theorem arguments (h : R0.Renames ρ D R) (as : List Argument) :
    Echoes ρ (R0.arguments as) (R.arguments (as.map (·.rename ρ))) := by
  rw [Registers.arguments, Registers.arguments, mapM_map]
  exact .mapM fun a _ => h.argument a

theorem set (hρ : ∀ a b, D a → ρ a = ρ b → a = b) (h : R0.Renames ρ D R) {id} (hid : D id) (v : Scalar) :
    (R0.set id v).Renames ρ D (R.set (ρ id) v) := by
  constructor
  · intro other
    rw [Registers.get?_set, Registers.get?_set]
    grind [h.same]
  intro other u hu
  rw [Registers.get?_set] at hu
  by_cases hother : other = id
  · exact hother ▸ hid
  · rw [if_neg hother] at hu
    exact h.locals other u hu

theorem bind (hρ : ∀ a b, D a → ρ a = ρ b → a = b) (h : R0.Renames ρ D R)
    (hparams : ∀ id ∈ parameters.filterMap fun a => a.value.register?, D id) (values : List Scalar) :
    (R0.bind parameters values).Renames ρ D (R.bind (parameters.map (·.rename ρ)) values) := by
  induction parameters generalizing R0 R values with
  | nil => exact h
  | cons p parameters ih =>
    rcases values with _ | ⟨v, values⟩
    · exact h
    obtain ⟨ty, o⟩ := p
    cases o with
    | register id =>
      exact ih (h.set hρ (hparams id (.head _)) v) (fun id hid => hparams id (.tail _ hid)) values
    | _ => exact ih h hparams values

end Registers.Renames

end Registers

/-! ### Instructions -/

theorem descend_echoes (m : IR.Module) (h : Forall₂ (Echoes ρ) indices0 indices)
    (address : UInt64) (ty : IR.Ty) : Echoes ρ (descend m address ty indices0) (descend m address ty indices) := by
  induction h generalizing address ty with
  | nil => exact .refl _
  | cons hindex _ ih =>
    refine hindex.bind fun i => ?_
    refine (Echoes.refl _).bind fun element => ?_
    exact (Echoes.refl _).bind fun target => ih _ _

theorem elementAddress_echoes (m : IR.Module) (h : Forall₂ (Echoes ρ) indices0 indices)
    (address : UInt64) (ty : IR.Ty) :
    Echoes ρ (elementAddress m address ty indices0) (elementAddress m address ty indices) := by
  rcases h with _ | ⟨hindex, hrest⟩
  · exact .refl _
  refine hindex.bind fun i => ?_
  refine (Echoes.refl _).bind fun size => ?_
  dsimp only
  split
  · exact .refl _
  · exact descend_echoes m hrest ..

/-- A procedure with other locals: the same blocks, renamed, and every local of them is among certain ones. -/
structure IR.Procedure.Renames (ρ : Local → Local) (D : Local → Prop) (p0 p : Procedure) : Prop where
  blocks : Forall₂ (fun b0 b : Block => b.label = ρ b0.label ∧ b.instructions = b0.instructions.rename ρ)
    p0.blocks p.blocks
  locals : ∀ b ∈ p0.blocks, D b.label ∧ ∀ id ∈ IR.definitions b.instructions, D id

/-- Frames at the same instruction, with other locals. -/
structure Frame.Renames (ρ : Local → Local) (D : Local → Prop) (F0 F : Frame) : Prop where
  procedure : F0.procedure.Renames ρ D F.procedure
  label : F.label = ρ F0.label ∧ D F0.label
  rest : F.rest = F0.rest.rename ρ ∧ ∀ id ∈ IR.definitions F0.rest, D id
  previous : F.previous = F0.previous.map ρ ∧ ∀ l, F0.previous = some l → D l
  registers : F0.registers.Renames ρ D F.registers

variable {m : IR.Module} {ρ : Local → Local} {D : Local → Prop} {F0 F : Frame} {M : Memory}

section Instructions

variable (hρ : ∀ a b, D a → ρ a = ρ b → a = b) (h : F0.Renames ρ D F)
include hρ h

theorem evaluate_renames (m : IR.Module) (value : IR.Value) (M : Memory) :
    (evaluate m F0 value).Echoes ρ (evaluate m F (value.rename ρ)) M Eq := by
  have harg := h.registers.argument
  have hoperand := h.registers.operand
  cases value with
  | alloc | sizeOf => exact .same _
  | load ty address =>
    exact .lift_bind (harg address) fun _ => .same _
  | elementPointer pointee base indices result =>
    refine .lift_bind (harg base) fun a => .lift_bind ?_ fun _ => .same _
    refine elementAddress_echoes m ?_ ..
    rw [map_map]
    exact forall₂_map_left_iff.2 (forall₂_map_right_iff.2 (forall₂_same.2 fun index _ => (harg index).map _))
  | binary operator mode ty lhs rhs | compare predicate ty lhs rhs =>
    exact .lift_bind (hoperand ty lhs) fun a => .lift_bind (hoperand ty rhs) fun _ => .same _
  | bitcast value | convert conversion value =>
    exact .lift_bind (harg value) fun _ => .same _
  | call ty callee arguments =>
    exact .lift_bind (h.registers.arguments arguments) fun _ => .same _
  | phi ty sources =>
    unfold evaluate
    simp only [IR.Value.rename, List.find?_map]
    -- The sources of the block that control came from are in the same place.
    have hsame : ((fun source : Local × Operand => some source.1 == F.previous) ∘
        fun s : Local × Operand => (ρ s.1, s.2.rename ρ)) =
        fun source => some source.1 == F0.previous := by
      funext other
      rw [Function.comp_apply, h.previous.1]
      rcases hprev : F0.previous with _ | l
      · rfl
      by_cases hother : other.1 = l
      · simp_all
      · have hne : ρ other.1 ≠ ρ l := fun hsame => hother (hρ l other.1 (h.previous.2 l hprev) hsame.symm).symm
        simp_all
    rw [hsame]
    cases sources.find? fun source => some source.1 == F0.previous with
    | none => exact .error (.refl _)
    | some source => exact .lift_bind (hoperand ty source.2) fun _ => .same _

/-- Going on at a label. The blocks of the label are found in the same place. -/
theorem Frame.Renames.goTo (label : Local) (M : Memory) :
    (liftM (F0.goTo label) : Effect Frame).Echoes ρ (liftM (F.goTo (ρ label))) M (Frame.Renames ρ D) := by
  have hfind : Option.Rel (fun b0 b : Block => b0 ∈ F0.procedure.blocks ∧ b.label = ρ b0.label ∧
      b.instructions = b0.instructions.rename ρ) (F0.procedure.block? label) (F.procedure.block? (ρ label)) := by
    refine find?_rel (forall₂_imp_of_mem h.procedure.blocks fun b0 hb0 b _ hb => ⟨⟨hb0, hb⟩, ?_⟩)
    by_cases hsame : b0.label = label
    · simp_all
    · have hne : ρ b0.label ≠ ρ label := fun hsame' => hsame (hρ _ label (h.procedure.locals b0 hb0).1 hsame')
      simp_all
  unfold Frame.goTo
  generalize F0.procedure.block? label = found0 at hfind
  generalize F.procedure.block? (ρ label) = found at hfind
  cases hfind with
  | none => exact .error (.inr rfl)
  | some hb =>
    obtain ⟨hmem, hlabel, hinstrs⟩ := hb
    refine ⟨_, rfl, h.procedure, ⟨hlabel, (h.procedure.locals _ hmem).1⟩,
      ⟨hinstrs, (h.procedure.locals _ hmem).2⟩, ⟨?_, ?_⟩, h.registers⟩
    · rw [h.label.1]
      rfl
    · rintro l ⟨⟩
      exact h.label.2

theorem Frame.Renames.deliver (hdest : ∀ r, destination = some r → D r) (result : Option Scalar) (M : Memory) :
    (liftM (F0.deliver destination result) : Effect Frame).Echoes ρ
      (liftM (F.deliver (destination.map ρ) result)) M (Frame.Renames ρ D) := by
  rcases destination with _ | r
  · exact ⟨F, rfl, h⟩
  cases result with
  | none => exact .error (.refl _)
  | some v =>
    exact ⟨_, rfl, h.procedure, h.label, h.rest, h.previous, h.registers.set hρ (hdest r rfl) v⟩

end Instructions

theorem Outcome.complete_leaves (result : Option Scalar) (caller : Caller) (callers : List Caller) :
    (Outcome.leaves result).complete (caller :: callers) =
      caller.frame.deliver caller.destination result >>= fun frame => .ok (.running frame callers) := rfl

theorem Effect.lift_bind_eq {α β : Type} (x : Except EvalError α) (f : α → Except EvalError β) :
    (liftM (x >>= f) : Effect β) = liftM x >>= fun a => liftM (f a) := by
  cases x <;> rfl

theorem Frame.Renames.advance (h : F0.Renames ρ D F) {rest : Code} (hrest : F0.rest = i :: rest) :
    F.rest = i.rename ρ :: rest.rename ρ ∧ Frame.Renames ρ D { F0 with rest } { F with rest := rest.rename ρ } ∧
      ∀ id ∈ IR.definitions [i], D id := by
  have hlocs := h.rest.2
  rw [hrest, ← singleton_append, IR.definitions_append] at hlocs
  exact ⟨by rw [h.rest.1, hrest]; rfl, ⟨h.procedure, h.label, ⟨rfl, fun id hid => hlocs id (mem_append_right _ hid)⟩,
    h.previous, h.registers⟩, fun id hid => hlocs id (mem_append_left _ hid)⟩

theorem Frame.renames_id (F : Frame) : F.Renames id (fun _ => True) F where
  procedure := ⟨forall₂_same.2 fun b _ => ⟨rfl, (Code.rename_id b.instructions).symm⟩,
    fun _ _ => ⟨trivial, fun _ _ => trivial⟩⟩
  label := ⟨rfl, trivial⟩
  rest := ⟨(Code.rename_id F.rest).symm, fun _ _ => trivial⟩
  previous := ⟨(Option.map_id_apply).symm, fun _ _ => trivial⟩
  registers := ⟨fun _ => rfl, fun _ _ _ => trivial⟩

end Lowering
