import Lowering.Proofs.Machine.Renaming
/-!
# Jumps, by where code stands in a procedure

The blocks of a procedure one after another are its code. Where a label stands in it, what follows up to the next label
is the block of that label (`IR.Procedure.Orderly.block?`), so a jump goes on with what stands behind the label.
-/

namespace Lowering

open List
open IR (Block Code Instruction Local Procedure)

/-- Every label is that of one block, and stands nowhere else. -/
structure IR.Procedure.Orderly (p : Procedure) : Prop where
  labels : (p.blocks.map Block.label).Nodup
  plain : ∀ b ∈ p.blocks, ∀ i ∈ b.instructions, i.isLabel = false

/-- Some code is the rest of a procedure. -/
def IR.Procedure.Contains (p : Procedure) (code : Code) : Prop := code <:+ IR.unparse p.blocks

variable {code : Code}

theorem IR.Procedure.Contains.drop {p : Procedure} (h : p.Contains (code ++ more)) : p.Contains more :=
  (suffix_append code more).trans h

theorem IR.Code.untilLabel_append (h : ∀ i ∈ code, i.isLabel = false) (rest : Code) :
    IR.Code.untilLabel (code ++ rest) = code ++ rest.untilLabel := by
  induction code with
  | nil => rfl
  | cons i code ih =>
    rw [cons_append, IR.Code.untilLabel_cons (h i (.head _)), ih fun j hj => h j (.tail _ hj), cons_append]

theorem IR.Code.untilLabel_unparse (blocks : List Block) : IR.Code.untilLabel (IR.unparse blocks) = [] := by
  cases blocks <;> rfl

theorem IR.exists_block (hplain : ∀ b ∈ blocks, ∀ i ∈ b.instructions, i.isLabel = false)
    {before after : Code} (h : IR.unparse blocks = before ++ .label label :: after) :
    ∃ b ∈ blocks, b.label = label ∧ b.instructions = after.untilLabel := by
  induction blocks generalizing before with
  | nil => simp at h
  | cons b blocks ih =>
    obtain ⟨hb, hblocks⟩ := forall_mem_cons.1 hplain
    rw [IR.unparse_cons] at h
    rcases before with _ | ⟨i, before⟩
    · obtain ⟨hlabel, hafter⟩ := List.cons.inj h
      refine ⟨b, .head _, Instruction.label.inj hlabel, ?_⟩
      rw [← hafter]
      show b.instructions = IR.Code.untilLabel (b.instructions ++ IR.unparse blocks)
      rw [IR.Code.untilLabel_append hb, IR.Code.untilLabel_unparse, append_nil]
    -- The label stands behind the instructions of the first block, since none of these is a label.
    obtain ⟨-, h⟩ := List.cons.inj h
    obtain ⟨more, -, hrest⟩ | ⟨more, hinstrs, hrest⟩ := append_eq_append_iff.1 h
    · grind
    rcases more with _ | ⟨j, more⟩
    · grind
    obtain ⟨rfl, -⟩ := List.cons.inj hrest
    have hlabel := hb (.label label) (by rw [hinstrs]; simp)
    cases hlabel

theorem IR.Procedure.Orderly.block? {p : Procedure} (hp : p.Orderly) {after : Code}
    (h : p.Contains (.label label :: after)) :
    ∃ b, p.block? label = some b ∧ b.label = label ∧ b.instructions = after.untilLabel := by
  obtain ⟨before, h⟩ := h
  obtain ⟨b, hb, rfl, hinstrs⟩ := IR.exists_block hp.plain h.symm
  exact ⟨b, IR.Module.find?_key hp.labels hb, rfl, hinstrs⟩

theorem IR.exists_original (h : IR.unparse blocks = Code.rename ρ code) :
    ∃ original : List Block, IR.unparse original = code ∧
      Forall₂ (fun b0 b : Block => b.label = ρ b0.label ∧ b.instructions = b0.instructions.rename ρ) original
        blocks := by
  induction blocks generalizing code with
  | nil =>
    refine ⟨[], ?_, .nil⟩
    cases code with
    | nil => rfl
    | cons => cases h
  | cons b blocks ih =>
    rcases code with _ | ⟨i, code⟩
    · cases h
    obtain ⟨hi, hcode⟩ := List.cons.inj h
    obtain ⟨instructions, rest, rfl, hinstrs, hrest⟩ := append_eq_map_iff.1 hcode
    obtain ⟨original, rfl, hblocks⟩ := ih hrest.symm
    cases i with
    | label id =>
      refine ⟨⟨id, instructions, []⟩ :: original, rfl, .cons ⟨Instruction.label.inj hi, hinstrs.symm⟩ hblocks⟩
    | _ => cases hi

/-! ### Jumping -/

namespace Site

variable {site : Site} {R : Registers} {M : Memory} {rest after : Code} {label : Local}

/-- The frame in another block, to which it went from the one it was in. -/
def enter (site : Site) (label : Local) : Site :=
  { site with frame := { site.frame with label, previous := some site.frame.label } }

/-- Going to a label leads to what stands behind it. -/
theorem goTo_eq (hp : site.frame.procedure.Orderly) (h : site.frame.procedure.Contains (.label label :: after)) :
    (site.holding R rest).goTo label = .ok ((site.enter label).holding R after) := by
  obtain ⟨b, hb, hlabel, hinstrs⟩ := hp.block? h
  unfold Frame.goTo
  rw [show (site.holding R rest).procedure = site.frame.procedure from rfl, hb]
  show Except.ok _ = _
  rw [hlabel, hinstrs]
  rfl

/-- **A jump.** -/
theorem steps_jump (hp : site.frame.procedure.Orderly) (h : site.frame.procedure.Contains (.label label :: after)) :
    Moment.Steps site.program ⟨site.holding R (.jump label :: rest), site.callers, M⟩
      ⟨(site.enter label).holding R after, site.callers, M⟩ := by
  refine .single ⟨.jump label, rest.untilLabel, IR.Code.untilLabel_cons (i := .jump label) rfl rest, ?_⟩
  have hgoTo : (site.holding R rest).goTo label = _ := goTo_eq hp h
  show (liftM ((site.holding R rest).goTo label) >>= fun frame =>
    pure (.running frame site.callers) : Effect Progress) M = _
  rw [hgoTo]
  rfl

/-- **A branch** goes by its condition. -/
theorem steps_branch (hp : site.frame.procedure.Orderly)
    (hcond : R.argument condition = .ok (.ofBool b))
    (h : site.frame.procedure.Contains (.label (if b then positive else negative) :: after)) :
    Moment.Steps site.program ⟨site.holding R (.branch condition positive negative :: rest), site.callers, M⟩
      ⟨(site.enter (if b then positive else negative)).holding R after, site.callers, M⟩ := by
  refine .single ⟨.branch condition positive negative, rest.untilLabel,
    IR.Code.untilLabel_cons (i := .branch condition positive negative) rfl rest, ?_⟩
  have hgoTo : (site.holding R rest).goTo (if b then positive else negative) = _ := goTo_eq hp h
  have hbit : (if (Scalar.ofBool b).word &&& 1 = 1 then positive else negative) = if b then positive else negative := by
    cases b <;> rfl
  show (liftM (R.argument condition) >>= fun condition =>
    liftM ((site.holding R rest).goTo (if condition.word &&& 1 = 1 then positive else negative)) >>= fun frame =>
      pure (.running frame site.callers) : Effect Progress) M = _
  rw [hcond]
  show (liftM ((site.holding R rest).goTo (if (Scalar.ofBool b).word &&& 1 = 1 then positive else negative)) >>=
    fun frame => pure (.running frame site.callers) : Effect Progress) M = _
  rw [hbit, hgoTo]
  rfl

end Site

end Lowering
