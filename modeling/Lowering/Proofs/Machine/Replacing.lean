import Lowering.Proofs.IR.Accepting
import Lowering.Proofs.Machine.Renaming
/-!
# A procedure of a module can be replaced by one with other locals

In runs of the two modules every frame has a counterpart (`Frame.Replaces`): the same frame, or one of the procedure
that was replaced, at the same instruction. The same goes for the frames that wait, since procedures call each other and
themselves. So runs go in lockstep: they end with the same result, or with failures that at most tell of a local by its
other name, and leave the same memory and the same budget (`Machine.run_replaces`).

Flattening is such a replacement: of the procedure whose code was only cut at its labels (`IR.provisional`), by the one
whose locals have their final numbers.
-/

namespace Lowering

open List
open IR (Argument Code Instruction Local Module Numbering Procedure)

/-! ### What depends on structures only -/

section Structures

variable {m0 m : Module} (h : m.structures = m0.structures)
include h

theorem structSize_congr (nesting : Nat) : structSize m nesting = structSize m0 nesting := by
  induction nesting with
  | zero => rfl
  | succ nesting ih =>
    simp [structSize, ih, Module.structure?, h]

theorem sizeOf_congr : sizeOf m = sizeOf m0 := by
  funext ty
  rw [sizeOf, sizeOf, structSize_congr h, h]

theorem elementAt_congr : elementAt m = elementAt m0 := by
  funext ty index
  unfold elementAt
  rw [sizeOf_congr h]
  simp [Module.structure?, h]

theorem elementAddress_congr : elementAddress m = elementAddress m0 := by
  have hdescend : ∀ indices address ty, descend m address ty indices = descend m0 address ty indices := by
    intro indices
    induction indices with
    | nil => exact fun _ _ => rfl
    | cons index rest ih =>
      simp [descend, elementAt_congr h, ih]
  funext address pointee indices
  simp [elementAddress, sizeOf_congr h, hdescend]

theorem evaluate_congr : evaluate m = evaluate m0 := by
  funext frame value
  simp [sizeOf_congr h, elementAddress_congr h, evaluate, loadScalar]

theorem storeScalar_congr : storeScalar m = storeScalar m0 := by
  funext ty address value
  rw [storeScalar, storeScalar, sizeOf_congr h]

end Structures

/-! ### Counterparts -/

/-- The locals of a frame have other names, or the same. -/
inductive Names (ρ : Local → Local) (D : Local → Prop) : (Local → Local) → (Local → Prop) → Prop where
  | other : Names ρ D ρ D
  | same : Names ρ D id fun _ => True

variable {ρ σ : Local → Local} {D E : Local → Prop} {F0 F : Frame} {callers0 callers : List Caller}

theorem Names.inj (h : Names ρ D σ E) (hρ : ∀ a b, D a → ρ a = ρ b → a = b) : ∀ a b, E a → σ a = σ b → a = b := by
  cases h with
  | other => exact hρ
  | same => simp

theorem Names.echoes {α β : Type} {x0 : Effect α} {x M} {Q : α → β → Prop} (h : Names ρ D σ E)
    (hx : x0.Echoes σ x M Q) : x0.Echoes ρ x M Q := by
  rcases h with _ | _
  · exact hx
  unfold Effect.Echoes at hx ⊢
  split at hx
  · exact hx
  obtain ⟨e, he, rfl | rfl⟩ := hx
  · exact ⟨_, he, .refl _⟩
  · exact ⟨_, he, .inl (EvalError.rename_id _)⟩

/-- A procedure that does the same with other locals. -/
structure IR.Procedure.Replaces (ρ : Local → Local) (D : Local → Prop) (p0 p : Procedure) : Prop
    extends p0.Renames ρ D p where
  name : p.name = p0.name
  external : p.external = p0.external
  parameters : p.parameters = p0.parameters.map (·.rename ρ)
  registers : ∀ id ∈ p0.parameters.filterMap fun a => a.value.register?, D id

/-- A module with the same structures, in which procedures may be replaced. -/
structure IR.Module.Replaces (ρ : Local → Local) (D : Local → Prop) (m0 m : Module) : Prop where
  structures : m.structures = m0.structures
  procedures : Forall₂ (fun p0 p : Procedure => p = p0 ∨ p0.Replaces ρ D p) m0.procedures m.procedures

/-- Frames at the same instruction, of the procedure that was replaced or of any other. -/
inductive Frame.Replaces (ρ : Local → Local) (D : Local → Prop) (F0 F : Frame) : Prop where
  | intro {σ : Local → Local} {E : Local → Prop} (hnames : Names ρ D σ E) (h : F0.Renames σ E F)

/-- Frames that wait, with the registers that take the results. -/
inductive Caller.Replaces (ρ : Local → Local) (D : Local → Prop) : Caller → Caller → Prop where
  | intro {σ : Local → Local} {E : Local → Prop} {F0 F : Frame} {destination : Option Local} (hnames : Names ρ D σ E)
      (h : F0.Renames σ E F) (hdest : ∀ r, destination = some r → E r) :
      Replaces ρ D ⟨F0, destination⟩ ⟨F, destination.map σ⟩

/-- What an instruction comes to, and its counterpart. -/
inductive Outcome.Replaces (ρ : Local → Local) (D : Local → Prop) : Outcome → Outcome → Prop where
  | goes {F0 F : Frame} (h : F0.Replaces ρ D F) : Replaces ρ D (.goes F0) (.goes F)
  | calls {inner0 inner F0 F : Frame} {destination0 destination : Option Local} (hinner : inner0.Replaces ρ D inner)
      (hcaller : Caller.Replaces ρ D ⟨F0, destination0⟩ ⟨F, destination⟩) :
      Replaces ρ D (.calls inner0 F0 destination0) (.calls inner F destination)
  | leaves (result : Option Scalar) : Replaces ρ D (.leaves result) (.leaves result)

/-- Where a step leads, and its counterpart, while certain callers wait below. -/
inductive Progress.Replaces (ρ : Local → Local) (D : Local → Prop) (base : List Caller) :
    Progress → Progress → Prop where
  | running {F0 F : Frame} {callers0 callers : List Caller} (h : F0.Replaces ρ D F)
      (hcallers : Forall₂ (Caller.Replaces ρ D) callers0 callers) :
      Replaces ρ D base (.running F0 (callers0 ++ base)) (.running F (callers ++ base))
  | outside (p : Progress) : Replaces ρ D base p p

/-- Runs that end alike: with the same value or failures that go together, the same memory and the same budget. -/
structure Machine.EndsAlike (ρ : Local → Local) (x0 x : Except EvalError (Option Scalar) × Machine) : Prop where
  result : Echoes ρ x0.1 x.1
  machine : x.2 = x0.2

theorem Frame.Replaces.refl (F : Frame) : F.Replaces ρ D F := ⟨.same, F.renames_id⟩

theorem Caller.Replaces.refl (c : Caller) : c.Replaces ρ D c := by
  have h : Caller.Replaces ρ D ⟨c.frame, c.destination⟩ ⟨c.frame, c.destination.map id⟩ :=
    .intro .same c.frame.renames_id fun _ _ => trivial
  rwa [Option.map_id_apply] at h

theorem IR.Module.Replaces.refl (m : Module) : m.Replaces ρ D m := ⟨rfl, forall₂_same.2 fun _ _ => .inl rfl⟩

theorem Progress.Replaces.running_right (h : Progress.Replaces ρ D base p0 p) (hp0 : p0 = .running F0 callers0) :
    ∃ F callers, p = .running F callers := by
  cases h with
  | running => exact ⟨_, _, rfl⟩
  | outside => exact ⟨_, _, hp0⟩

/-! ### Calls -/

theorem IR.Module.Replaces.procedure? {m0 m : Module} (h : m0.Replaces ρ D m) (name : String) :
    Option.Rel (fun p0 p : Procedure => p = p0 ∨ p0.Replaces ρ D p) (m0.procedure? name) (m.procedure? name) := by
  refine find?_rel (h.procedures.imp fun p0 p hp => ⟨hp, ?_⟩)
  obtain rfl | hp := hp
  · rfl
  · rw [hp.name]

theorem IR.Procedure.Replaces.enter {p0 p : Procedure} (hρ : ∀ a b, D a → ρ a = ρ b → a = b) (h : p0.Replaces ρ D p)
    (arguments : List Scalar) (M : Memory) : (liftM (Frame.enter p0 arguments) : Effect Frame).Echoes σ
      (liftM (Frame.enter p arguments)) M (Frame.Replaces ρ D) := by
  have hblocks := h.blocks
  unfold Frame.enter
  rcases hp0 : p0.blocks with _ | ⟨b0, bs0⟩
  · rw [hp0, forall₂_nil_left_iff] at hblocks
    rw [hblocks, h.name]
    exact .error (.refl _)
  rw [hp0] at hblocks
  obtain ⟨b, bs, ⟨hlabel, hinstrs⟩, -, hp⟩ := forall₂_cons_left_iff.1 hblocks
  obtain ⟨hD, hdefs⟩ := h.locals b0 (hp0 ▸ mem_cons_self ..)
  rw [hp, h.parameters]
  refine ⟨_, rfl, .other, h.toRenames, ⟨hlabel, hD⟩, ⟨hinstrs, hdefs⟩, ⟨rfl, fun _ hl => by cases hl⟩, ?_⟩
  exact Registers.Renames.bind hρ .nil h.registers arguments

section Steps

variable {m0 m : Module} (hρ : ∀ a b, D a → ρ a = ρ b → a = b) (hm : m0.Replaces ρ D m)
include hρ hm

/-- Beginning a call. Whatever goes wrong tells of no local. -/
theorem beginCall_replaces (depth : Nat) (callee : String) (arguments : List Scalar) (M : Memory) :
    (beginCall m0 depth callee arguments).Echoes σ (beginCall m depth callee arguments) M
      (Option.Rel (Frame.Replaces ρ D)) := by
  have hrefl : ∀ found : Option Frame, Option.Rel (Frame.Replaces ρ D) found found := fun found => by
    cases found with
    | none => exact .none
    | some F => exact .some (.refl F)
  unfold beginCall
  split
  · exact .refl _ M hrefl
  have hfound := hm.procedure? callee
  generalize m0.procedure? callee = found0 at hfound
  generalize m.procedure? callee = found at hfound
  cases hfound with
  | none => exact .error (.refl _)
  | @some p0 p hp =>
    obtain rfl | hp := hp
    · exact .refl _ M hrefl
    dsimp only
    rw [hp.external, hp.parameters, length_map]
    split
    · exact .error (.refl _)
    split
    · exact .error (.refl _)
    split
    · exact .error (.refl _)
    exact (hp.enter hρ arguments M).bind fun _ _ _ hinner => .pure (.some hinner)

/-! ### Steps -/

theorem dispatch_replaces (hnames : Names ρ D σ E) (h : F0.Renames σ E F) (depth : Nat)
    (hdest : ∀ r, destination = some r → E r) (callee : String) (arguments : List Scalar) (M : Memory) :
    (dispatch m0 depth F0 destination callee arguments).Echoes σ
      (dispatch m depth F (destination.map σ) callee arguments) M (Outcome.Replaces ρ D) := by
  refine (beginCall_replaces hρ hm depth callee arguments M).bind fun inner0 inner M' hinner => ?_
  cases hinner with
  | none => exact (h.deliver (hnames.inj hρ) hdest none M').bind fun _ _ _ h' => .pure (.goes ⟨hnames, h'⟩)
  | some hinner => exact .pure (.calls hinner (.intro hnames h hdest))

/-- **What an instruction comes to**, and its counterpart. -/
theorem outcome_replaces (hnames : Names ρ D σ E) (h : F0.Renames σ E F) (depth : Nat) (i : Instruction)
    (hi : ∀ id ∈ IR.definitions [i], E id) (M : Memory) :
    (outcome m0 depth F0 i).Echoes σ (outcome m depth F (i.rename σ)) M (Outcome.Replaces ρ D) := by
  have hσ := hnames.inj hρ
  have harg := h.registers.argument
  have hgoes {F0 F : Frame} (h : F0.Renames σ E F) : Outcome.Replaces ρ D (.goes F0) (.goes F) := .goes ⟨hnames, h⟩
  rcases i with _ | ⟨destination, value⟩ | ⟨address, value⟩ | ⟨ty, callee, arguments⟩ |
    ⟨condition, positive, negative⟩ | target | value
  · exact .pure (hgoes h)
  · have hdest : ∀ r, some destination = some r → E r := by
      simp_all
    unfold outcome
    rw [evaluate_congr hm.structures]
    refine (evaluate_renames hσ h m0 value M).bind fun evaluation _ M' hsame => hsame ▸ ?_
    cases evaluation with
    | done result => exact (h.deliver hσ hdest (some result) M').bind fun _ _ _ h' => .pure (hgoes h')
    | call callee arguments => exact dispatch_replaces hρ hm hnames h depth hdest callee arguments M'
  · obtain ⟨ty, operand⟩ := value
    unfold outcome
    rw [storeScalar_congr hm.structures]
    refine .lift_bind (harg address) fun a => ?_
    have hoperand := h.registers.operand ty operand
    cases operand with
    | bytes => exact .same_bind _ fun _ _ => .pure (hgoes h)
    | _ => exact .lift_bind hoperand fun x => .same_bind _ fun _ _ => .pure (hgoes h)
  · refine .lift_bind (h.registers.arguments arguments) fun as => ?_
    exact dispatch_replaces hρ hm hnames h depth (fun r hr => by cases hr) callee as M
  · refine .lift_bind (harg condition) fun a => ?_
    rw [← apply_ite σ]
    exact (h.goTo hσ _ M).bind fun _ _ _ h' => .pure (hgoes h')
  · exact (h.goTo hσ target M).bind fun _ _ _ h' => .pure (hgoes h')
  cases value with
  | none => exact .pure (.leaves none)
  | some value =>
    exact .lift_bind (harg value) fun a => .pure (.leaves (some a))

omit hm in
theorem Outcome.Replaces.complete {o0 o : Outcome} (h : o0.Replaces ρ D o)
    (hcallers : Forall₂ (Caller.Replaces ρ D) callers0 callers) (base : List Caller) (M : Memory) :
    (liftM (o0.complete (callers0 ++ base)) : Effect Progress).Echoes ρ (liftM (o.complete (callers ++ base))) M
      (Progress.Replaces ρ D base) := by
  rcases h with h | ⟨hinner, hcaller⟩ | result
  · exact ⟨_, rfl, .running h hcallers⟩
  · exact ⟨_, rfl, .running hinner (.cons hcaller hcallers)⟩
  rcases hcallers with _ | ⟨hcaller, hcallers⟩
  · exact .refl _ M .outside
  obtain ⟨hnames, h, hdest⟩ := hcaller
  rw [cons_append, cons_append, Outcome.complete_leaves, Outcome.complete_leaves, Effect.lift_bind_eq,
    Effect.lift_bind_eq]
  exact (hnames.echoes (h.deliver (hnames.inj hρ) hdest result M)).bind fun _ _ _ h' =>
    ⟨_, rfl, .running ⟨hnames, h'⟩ hcallers⟩

/-- **One instruction** and its counterpart. -/
theorem Frame.Replaces.step (h : F0.Replaces ρ D F) (hcallers : Forall₂ (Caller.Replaces ρ D) callers0 callers)
    (base : List Caller) {i : Instruction} {rest : Code} (hrest : F0.rest = i :: rest) :
    ∃ i' rest', F.rest = i' :: rest' ∧ ∀ M, (Lowering.step m0 { F0 with rest } (callers0 ++ base) i).Echoes ρ
      (Lowering.step m { F with rest := rest' } (callers ++ base) i') M (Progress.Replaces ρ D base) := by
  obtain ⟨hnames, h⟩ := h
  obtain ⟨hrest', h', hi⟩ := h.advance hrest
  have hdepth : (callers0 ++ base).length = (callers ++ base).length := by
    rw [length_append, length_append, hcallers.length_eq]
  refine ⟨_, _, hrest', fun M => ?_⟩
  rw [step_eq, step_eq, hdepth]
  refine (hnames.echoes (outcome_replaces hρ hm hnames h' _ i hi M)).bind fun _ _ M' ho => ?_
  exact ho.complete hρ hcallers base M'

end Steps

/-! ### Runs -/

theorem Frame.Replaces.rest_nil (h : F0.Replaces ρ D F) (hrest : F0.rest = []) :
    F.rest = [] ∧ (EvalError.unterminatedBlock F0.label).Renames ρ (.unterminatedBlock F.label) := by
  obtain ⟨hnames, h⟩ := h
  rw [h.rest.1, hrest, h.label.1]
  cases hnames with
  | other => exact ⟨rfl, .inr rfl⟩
  | same => exact ⟨rfl, .refl _⟩

section Runs

variable {m0 m : Module} (hρ : ∀ a b, D a → ρ a = ρ b → a = b) (hm : m0.Replaces ρ D m)
include hρ hm

/-- **A run** and its counterpart end alike. -/
theorem Machine.run_replaces (budget : Nat) (h : F0.Replaces ρ D F)
    (hcallers : Forall₂ (Caller.Replaces ρ D) callers0 callers) (M : Memory) :
    EndsAlike ρ (run m0 budget F0 callers0 M) (run m budget F callers M) := by
  induction budget generalizing F0 F callers0 callers M with
  | zero =>
    rcases hrest : F0.rest with _ | ⟨i, rest⟩
    · obtain ⟨hrest', hlabel⟩ := h.rest_nil hrest
      simp only [run, hrest, hrest']
      exact ⟨.error hlabel, rfl⟩
    obtain ⟨i', rest', hrest', -⟩ := h.step hρ hm hcallers [] hrest
    simp only [run, hrest, hrest']
    exact ⟨.error (.refl _), rfl⟩
  | succ budget ih =>
    rcases hrest : F0.rest with _ | ⟨i, rest⟩
    · obtain ⟨hrest', hlabel⟩ := h.rest_nil hrest
      simp only [run, hrest, hrest']
      exact ⟨.error hlabel, rfl⟩
    obtain ⟨i', rest', hrest', hstep⟩ := h.step hρ hm hcallers [] hrest
    have hnext := hstep M
    simp only [append_nil] at hnext
    simp only [run, hrest, hrest']
    unfold Effect.Echoes at hnext
    split at hnext
    · next p0 M' hstep0 =>
      obtain ⟨p, hstep, hp⟩ := hnext
      rw [hstep0, hstep]
      rcases hp with ⟨h', hcallers'⟩ | _
      · simp [*]
      cases p0 with
      | running F callers => exact ih (.refl F) (forall₂_same.2 fun c _ => .refl c) M'
      | finished result => exact ⟨.ok result, rfl⟩
    rename_i e0 M' hstep0
    obtain ⟨e, hstep, he⟩ := hnext
    rw [hstep0, hstep]
    exact ⟨.error he, rfl⟩

/-- **A call** and its counterpart end alike. -/
theorem Machine.call_replaces (machine : Machine) (name : String) (arguments : List Scalar) :
    EndsAlike ρ (machine.call m0 name arguments) (machine.call m name arguments) := by
  have hbegin := beginCall_replaces (σ := ρ) hρ hm 0 name arguments machine.memory
  unfold Effect.Echoes at hbegin
  unfold Machine.call
  split at hbegin
  · next found0 M hfound0 =>
    obtain ⟨found, hfound, hinner⟩ := hbegin
    rw [hfound0, hfound]
    cases hinner with
    | none => exact ⟨.ok none, rfl⟩
    | some h => exact run_replaces hρ hm machine.budget h .nil M
  rename_i e0 M hfailed0
  obtain ⟨e, hfailed, he⟩ := hbegin
  rw [hfailed0, hfailed]
  exact ⟨.error he, rfl⟩

end Runs

/-! ### A frame with other locals -/

namespace Moment

variable {m : Module} {s0 s0' s : Moment} {base : List Caller} {M : Memory} (hρ : ∀ a b, D a → ρ a = ρ b → a = b)
  (h : Progress.Replaces ρ D base (.running s0.frame s0.callers) (.running s.frame s.callers))
  (hmem : s.memory = s0.memory)
include hρ h

theorem replaces_step {i : Instruction} {rest : Code} (hrest : s0.frame.rest = i :: rest) (m : Module) :
    ∃ i' rest', s.frame.rest = i' :: rest' ∧ ∀ M, (Lowering.step m { s0.frame with rest } s0.callers i).Echoes ρ
      (Lowering.step m { s.frame with rest := rest' } s.callers i') M (Progress.Replaces ρ D base) := by
  generalize s0.frame = F0 at h hrest ⊢
  generalize s0.callers = callers0 at h ⊢
  generalize s.frame = F at h ⊢
  generalize s.callers = callers at h ⊢
  cases h with
  | running h hcallers => exact h.step hρ (.refl m) hcallers base hrest
  | outside => exact ⟨i, rest, hrest, fun M => .refl _ M .outside⟩

include hmem

/-- **Any number of instructions.** -/
theorem Steps.rename (hsteps : Steps m s0 s0') : ∃ s', Steps m s s' ∧ s'.memory = s0'.memory ∧
      Progress.Replaces ρ D base (.running s0'.frame s0'.callers) (.running s'.frame s'.callers) := by
  induction hsteps generalizing s with
  | refl => exact ⟨s, .refl s, hmem, h⟩
  | @head s0 s1 s0' hstep _ ih =>
    obtain ⟨i, rest, hrest, hstep⟩ := hstep
    obtain ⟨i', rest', hrest', hechoes⟩ := replaces_step hρ h hrest m
    have hnext := hechoes s0.memory
    unfold Effect.Echoes at hnext
    rw [hstep] at hnext
    obtain ⟨p, hp, hreplaces⟩ := hnext
    obtain ⟨F, callers, rfl⟩ := hreplaces.running_right rfl
    obtain ⟨s', hsteps, hmem', h'⟩ := @ih ⟨F, callers, s1.memory⟩ hreplaces rfl
    exact ⟨s', .head ⟨i', rest', hrest', hmem ▸ hp⟩ hsteps, hmem', h'⟩

/-- **A failure** that does not tell of broken code. -/
theorem Halts.rename (he : e.isStuck = false) (hhalts : Halts m s0 (.error e)) : Halts m s (.error e) := by
  obtain ⟨last, memory, hsteps, i, rest, hrest, hstep⟩ := hhalts
  obtain ⟨s', hsteps', hmem', h'⟩ := hsteps.rename hρ h hmem
  obtain ⟨i', rest', hrest', hechoes⟩ := replaces_step hρ h' hrest m
  have hnext := hechoes last.memory
  unfold Effect.Echoes at hnext
  rw [hstep] at hnext
  obtain ⟨e', hnext, hrenames⟩ := hnext
  rw [hrenames.eq he] at hnext
  exact ⟨s', memory, hsteps', i', rest', hrest', hmem' ▸ hnext⟩

/-- **Leaving a procedure.** -/
theorem Exits.rename (hexits : Exits m s0 base out M) : Exits m s base out M := by
  obtain ⟨F0, value, rest, hsteps, hrest, hvalue⟩ := hexits
  obtain ⟨⟨F, callers, M'⟩, hsteps', rfl, h'⟩ := hsteps.rename hρ h hmem
  generalize hp0 : Progress.running F0 base = p0 at h'
  generalize hp : Progress.running F callers = p at h'
  cases h' with
  | running h' hcallers =>
    obtain ⟨rfl, hbase⟩ := Progress.running.inj hp0
    obtain rfl := self_eq_append_left.1 hbase
    cases hcallers
    cases hp
    obtain @⟨σ, E, -, h'⟩ := h'
    refine ⟨F, value.map (·.rename σ), Code.rename σ rest, hsteps', by rw [h'.rest.1, hrest]; rfl, ?_⟩
    rcases value with _ | a
    · exact hvalue
    rw [Option.mapM_some] at hvalue
    rw [Option.map_some, Option.mapM_some]
    have hsame := h'.registers.argument a
    generalize F0.registers.argument a = x0 at hvalue hsame
    generalize F.registers.argument (a.rename σ) = x at hsame ⊢
    cases hsame with
    | ok => exact hvalue
    | error => cases hvalue
  | outside =>
    cases hp0
    cases hp
    exact ⟨_, value, rest, hsteps', hrest, hvalue⟩

end Moment

/-! ### Flattening -/

/-- The procedure of some code with the locals that the code has: it is only cut at its labels. -/
def IR.provisional (name : String) (returnType : IR.Ty) (parameters : List Argument) (external : Bool) (body : Code) :
    Procedure :=
  ⟨name, returnType, parameters, external, body.blocks⟩

/-- Flattening replaces the procedure of code that is only cut. -/
theorem IR.provisional_replaces
    (h : IR.flatten name returnType parameters external body = .ok p) :
    (IR.provisional name returnType parameters external body).Replaces (Numbering.collect parameters body).place
      (· ∈ Numbering.collect parameters body) p := by
  obtain ⟨_, rfl, hname, -, hext, hparams, hblocks⟩ := IR.flatten_inv h
  refine ⟨⟨hblocks, fun b hb => ?_⟩, hname, hext, hparams, fun id hid => mem_append_left _ hid⟩
  obtain ⟨hlabel, hinstrs⟩ := Code.mem_blocks hb
  refine ⟨mem_append_right _ (mem_filterMap.2 ⟨_, hlabel, rfl⟩), fun id hid => ?_⟩
  obtain ⟨i, hi, hdefined⟩ := mem_filterMap.1 hid
  exact mem_append_right _ (mem_filterMap.2 ⟨i, hinstrs hi, hdefined⟩)

/-- **Flattening keeps behaviour.** In any module, put the procedure `p` that `IR.flatten` makes in the place of the one
whose code is only cut at its labels (`IR.provisional`). Every `Machine.call` on every machine then ends alike
(`EndsAlike`), and so does every `Machine.run` in progress, whatever calls wait for it. -/
theorem flatten_endsAlike {name : String} {returnType : IR.Ty} {parameters : List Argument} {external : Bool}
    {body : Code} {p : Procedure} (h : IR.flatten name returnType parameters external body = .ok p)
    (structures : List IR.StructDeclaration) (before after : List Procedure) :
    (∀ (machine : Machine) (entry : String) (arguments : List Scalar),
      Machine.EndsAlike (Numbering.collect parameters body).place
        (machine.call ⟨structures, before ++ IR.provisional name returnType parameters external body :: after⟩
          entry arguments)
        (machine.call ⟨structures, before ++ p :: after⟩ entry arguments)) ∧
      ∀ (budget : Nat) (frame : Frame) (callers : List Caller) (memory : Memory),
        Machine.EndsAlike (Numbering.collect parameters body).place
          (Machine.run ⟨structures, before ++ IR.provisional name returnType parameters external body :: after⟩
            budget frame callers memory)
          (Machine.run ⟨structures, before ++ p :: after⟩ budget frame callers memory) := by
  have hρ : ∀ a b, a ∈ Numbering.collect parameters body → (Numbering.collect parameters body).place a =
      (Numbering.collect parameters body).place b → a = b := fun _ _ => Numbering.place_inj
  have hm : Module.Replaces (Numbering.collect parameters body).place (· ∈ Numbering.collect parameters body)
      ⟨structures, before ++ IR.provisional name returnType parameters external body :: after⟩
      ⟨structures, before ++ p :: after⟩ := by
    have hsame : ∀ ps : List Procedure, Forall₂ (fun p0 p : Procedure => p = p0 ∨
        p0.Replaces (Numbering.collect parameters body).place (· ∈ Numbering.collect parameters body) p) ps ps :=
      fun ps => forall₂_same.2 fun _ _ => .inl rfl
    exact ⟨rfl, rel_append (hsame before) (.cons (.inr (IR.provisional_replaces h)) (hsame after))⟩
  refine ⟨fun machine => machine.call_replaces hρ hm, fun budget frame callers memory => ?_⟩
  exact Machine.run_replaces hρ hm budget (.refl frame) (forall₂_same.2 fun c _ => .refl c) memory

/-- Code that counts down by calling itself. Its locals are numbered out of order. -/
def countdownBody : Code :=
  [.label 5, .set 9 (.compare .eq (.int 32) (.register 7) (.int 0)), .branch (.register .bool 9) 2 4,
    .label 4, .set 3 (.binary .sub .signed (.int 32) (.register 7) (.int 1)),
    .set 8 (.call (.int 32) "count" [.register (.int 32) 3]),
    .set 6 (.binary .add .signed (.int 32) (.register 8) (.int 1)), .jump 2,
    .label 2, .set 0 (.phi (.int 32) [(5, .register 7), (4, .register 6)]), .ret (some (.register (.int 32) 0))]

def countdown : Procedure where
  name := "count"
  returnType := .int 32
  parameters := [.register (.int 32) 0]
  blocks := [
    ⟨1, [.set 2 (.compare .eq (.int 32) (.register 0) (.int 0)), .branch (.register .bool 2) 7 3], []⟩,
    ⟨3, [.set 4 (.binary .sub .signed (.int 32) (.register 0) (.int 1)),
      .set 5 (.call (.int 32) "count" [.register (.int 32) 4]),
      .set 6 (.binary .add .signed (.int 32) (.register 5) (.int 1)), .jump 7], [1]⟩,
    ⟨7, [.set 8 (.phi (.int 32) [(1, .register 0), (3, .register 6)]), .ret (some (.register (.int 32) 8))], [1, 3]⟩]

theorem flatten_endsAlike_countdown :
    IR.flatten "count" (.int 32) [.register (.int 32) 7] false countdownBody = .ok countdown ∧
      Machine.EndsAlike (Numbering.collect [.register (.int 32) 7] countdownBody).place
        (Machine.fresh.call ⟨[], [IR.provisional "count" (.int 32) [.register (.int 32) 7] false countdownBody]⟩
          "count" [.int 3])
        (Machine.fresh.call ⟨[], [countdown]⟩ "count" [.int 3]) ∧
      (Machine.fresh.call ⟨[], [countdown]⟩ "count" [.int 3]).1 = .ok (some (.int 3)) := by
  have h : IR.flatten "count" (.int 32) [.register (.int 32) 7] false countdownBody = .ok countdown := by decide +kernel
  exact ⟨h, (flatten_endsAlike h [] [] []).1 Machine.fresh "count" [.int 3], by decide +kernel⟩

end Lowering
