import Lowering.Proofs.IR.Blocks
import Lowering.Proofs.Machine.Run
/-!
# What cutting makes of the code it accepts

Code can be cut at its labels whatever its locals are called (`Code.blocks`). Cutting comes to a result only in that way
(`cut_inv`), and connecting its blocks changes nothing in them but what leads to each (`connect_inv`).
-/

namespace Lowering.IR

open List

variable {ρ : Local → Local} {i : Instruction} {code : Code}

/-! ### Code cut at its labels -/

/-- The blocks of code: a label begins one, which goes on up to the next label. What stands before the first label is in
none. -/
def Code.blocks : Code → List Block
  | [] => []
  | .label id :: rest => ⟨id, Code.untilLabel rest, []⟩ :: Code.blocks rest
  | _ :: rest => Code.blocks rest

theorem Closed.isLabel (h : Closed code) : ∀ i ∈ code, i.isLabel = false := by
  obtain ⟨body, terminator, rfl, hterm, hbody⟩ := h
  refine forall_mem_append.2 ⟨fun i hi => ?_, forall_mem_singleton.2 ?_⟩
  · cases i with
    | label id => exact absurd rfl ((hbody _ hi).2 id)
    | _ => rfl
  cases terminator with
  | label => cases hterm
  | _ => rfl

theorem Code.blocks_cons (h : i.isLabel = false) (rest : Code) : Code.blocks (i :: rest) = rest.blocks := by
  cases i with
  | label => cases h
  | _ => rfl

theorem Code.mem_blocks (h : b ∈ code.blocks) : .label b.label ∈ code ∧ b.instructions ⊆ code := by
  induction code with
  | nil => cases h
  | cons i rest ih =>
    rcases hi : i.isLabel with _ | _
    · simp_all [Code.blocks_cons hi]
    cases i with
    | label id =>
      obtain rfl | h := mem_cons.1 h
      · exact ⟨.head _, fun j hj => mem_cons_of_mem _ (takeWhile_subset _ hj)⟩
      · exact ⟨.tail _ (ih h).1, fun j hj => mem_cons_of_mem _ ((ih h).2 hj)⟩
    | _ => cases hi

theorem Instruction.isLabel_rename (ρ : Local → Local) (i : Instruction) : (i.rename ρ).isLabel = i.isLabel := by
  cases i <;> rfl

theorem Code.untilLabel_rename (code : Code) : Code.untilLabel (code.rename ρ) = code.untilLabel.rename ρ := by
  unfold Code.untilLabel Code.rename
  rw [takeWhile_map]
  simp [Function.comp_def, Instruction.isLabel_rename]

theorem Code.blocks_rename (code : Code) :
    Code.blocks (code.rename ρ) = code.blocks.map fun b => ⟨ρ b.label, b.instructions.rename ρ, []⟩ := by
  induction code with
  | nil => rfl
  | cons i rest ih =>
    cases i with
    | label id =>
      show ⟨ρ id, Code.untilLabel (Code.rename ρ rest), []⟩ :: Code.blocks (Code.rename ρ rest) = _
      rw [Code.untilLabel_rename, ih]
      rfl
    | _ => exact ih

/-! ### Cutting -/

theorem Cut.push_inv {c c' : Cut} (h : c.push i = .ok c') :
    (∃ id, i = .label id ∧ c' = ⟨⟨id, [], []⟩ :: c.blocks, false⟩) ∨
      (i.isLabel = false ∧ ∃ b rest, c.blocks = b :: rest ∧
        c' = ⟨{ b with instructions := b.instructions ++ [i] } :: rest, i.isTerminator⟩) := by
  obtain ⟨blocks, ended⟩ := c
  cases hi : i.isLabel with
  | true =>
    cases i with
    | label id =>
      cases ended with
      | true => exact .inl ⟨id, rfl, (Except.ok.inj h).symm⟩
      | false => cases h
    | _ => cases hi
  | false =>
    refine .inr ⟨rfl, ?_⟩
    cases i with
    | label => cases hi
    | _ =>
      rcases blocks with _ | ⟨b, rest⟩
      · cases h
      cases ended with
      | true => cases h
      | false => exact ⟨b, rest, rfl, (Except.ok.inj h).symm⟩

theorem cut_cons (h : cut ⟨b :: done, ended⟩ code = .ok blocks) :
    blocks = done.reverse ++ { b with instructions := b.instructions ++ code.untilLabel } :: code.blocks := by
  induction code generalizing b done ended with
  | nil =>
    rw [cut] at h
    split at h
    · cases h
      simp [Code.untilLabel, Code.blocks]
    · cases h
  | cons i rest ih =>
    obtain ⟨c, hpush, h⟩ := bind_eq_ok h
    obtain ⟨id, rfl, rfl⟩ | ⟨hi, _, _, ⟨⟩, rfl⟩ := Cut.push_inv hpush
    · rw [ih h]
      simp [Code.untilLabel, Code.blocks, Instruction.isLabel]
    · rw [ih h, Code.untilLabel_cons hi, Code.blocks_cons hi]
      simp

/-- **Code that can be cut is cut at its labels.** -/
theorem cut_inv (h : cut ⟨[], ended⟩ code = .ok blocks) : blocks = code.blocks := by
  rcases code with _ | ⟨i, rest⟩
  · rw [cut] at h
    split at h
    · cases h
      rfl
    · cases h
  obtain ⟨c, hpush, h⟩ := bind_eq_ok h
  obtain ⟨id, rfl, rfl⟩ | ⟨-, _, _, ⟨⟩, -⟩ := Cut.push_inv hpush
  exact cut_cons h

/-- Code that can be cut with new numbers has new numbers throughout. -/
theorem Numbering.Renumbers.of_cutBlocks (h : cutBlocks numbering c code = .ok blocks) :
    numbering.Renumbers code := by
  induction code generalizing c with
  | nil => exact forall_mem_nil _
  | cons i rest ih =>
    obtain ⟨i', hi, h⟩ := bind_eq_ok h
    obtain ⟨c', -, h⟩ := bind_eq_ok h
    exact forall_mem_cons.2 ⟨(gives_instruction i).eq hi ▸ hi, ih h⟩

theorem connect_inv (h : connect blocks = .ok connected) :
    connected = blocks.map (Block.connected blocks) := by
  unfold connect at h
  split at h
  · cases h
  · exact (Except.ok.inj h).symm

end Lowering.IR
