import Mathlib.Data.Set.Operations
import Lowering.Proofs.IR.Cutting
import Lowering.Proofs.IR.Flatten
import Lowering.Proofs.IR.Ways
/-!
# Which code flattening accepts, and what it makes of it

Code can be flattened if no local is defined twice, every local that is mentioned is defined, the code is a row of
groups of a label, plain instructions and a terminator, and control only goes on at labels (`Flattenable`). These
conditions are checked in several passes, but none of them depends on the new numbers: numbering, cutting and connecting
each succeed on code with new numbers exactly when the code meets its condition with the old ones. So flattening comes
to one fixed result on code of this kind and to none on other code (`flatten_eq_ok_iff`).
-/

namespace Lowering.IR

open List

variable {id : Local} {i : Instruction} {code : Code} {ρ : Local → Local}

/-! ### Groups -/

/-- Code that is a row of groups, each of a label, plain instructions and a terminator. -/
inductive Code.Grouped : Code → Prop where
  | nil : Code.Grouped []
  | group (label : Local) {instructions rest : Code} (hclosed : Closed instructions) (hrest : Code.Grouped rest) :
    Code.Grouped (.label label :: instructions ++ rest)

namespace Code

variable {ρ : Local → Local} {code : Code}

theorem blocks_append (h : ∀ i ∈ code, i.isLabel = false) : blocks (code ++ more) = blocks more := by
  induction code with
  | nil => rfl
  | cons i rest ih =>
    obtain ⟨hi, hrest⟩ := forall_mem_cons.1 h
    rw [cons_append, blocks_cons hi, ih hrest]

theorem untilLabel_append_unparse (code : Code) : code.untilLabel ++ unparse code.blocks = code := by
  induction code with
  | nil => rfl
  | cons i rest ih =>
    cases i with
    | label id => exact congrArg (.label id :: ·) ih
    | _ => exact congrArg (_ :: ·) ih

theorem mem_labels : id ∈ code.blocks.map Block.label ↔ .label id ∈ code := by
  induction code with
  | nil => simp [blocks]
  | cons i rest ih =>
    cases i with
    | label | _ => simp [blocks, ih]

theorem Grouped.untilLabel_eq (h : code.Grouped) : code.untilLabel = [] := by
  cases h <;> rfl

theorem blocks_group (label : Local) (hclosed : Closed instructions) (hrest : rest.Grouped) :
    blocks (.label label :: instructions ++ rest) = ⟨label, instructions, []⟩ :: rest.blocks := by
  have huntil : untilLabel (instructions ++ rest) = instructions := by
    unfold untilLabel
    rw [takeWhile_append_of_pos fun i hi => by simp [hclosed.isLabel i hi]]
    exact (congrArg (instructions ++ ·) hrest.untilLabel_eq).trans (append_nil _)
  show ⟨label, untilLabel (instructions ++ rest), []⟩ :: blocks (instructions ++ rest) = _
  rw [huntil, blocks_append hclosed.isLabel]

/-- Code is a row of groups if it begins with a label and its blocks end where they should. -/
theorem grouped_iff : code.Grouped ↔ code.untilLabel = [] ∧ ∀ b ∈ code.blocks, Closed b.instructions := by
  constructor
  · intro h
    refine ⟨h.untilLabel_eq, ?_⟩
    induction h with
    | nil => simp [blocks]
    | group label hclosed hrest ih =>
      rw [blocks_group label hclosed hrest]
      exact forall_mem_cons.2 ⟨hclosed, ih⟩
  rintro ⟨huntil, hclosed⟩
  have hgrouped : ∀ blocks : List Block, (∀ b ∈ blocks, Closed b.instructions) → Grouped (unparse blocks) := by
    intro blocks h
    induction blocks with
    | nil => exact .nil
    | cons b rest ih =>
      obtain ⟨hb, hrest⟩ := forall_mem_cons.1 h
      exact .group b.label hb (ih hrest)
  rw [← untilLabel_append_unparse code, huntil]
  exact hgrouped _ hclosed

theorem Grouped.unparse_blocks (h : code.Grouped) : unparse code.blocks = code := by
  have hcode := untilLabel_append_unparse code
  rwa [h.untilLabel_eq] at hcode

end Code

theorem closed_rename_iff : Closed (code.rename ρ) ↔ Closed code := by
  have hplain : ∀ i : Instruction, (i.rename ρ).Plain ↔ i.Plain := by
    intro i
    cases i <;> simp [Instruction.Plain, Instruction.rename, Instruction.isTerminator]
  constructor
  · rintro ⟨body, terminator, hcode, hterm, hbody⟩
    obtain ⟨body, last, rfl, rfl, hlast⟩ := map_eq_append_iff.1 hcode
    obtain ⟨terminator, rfl, rfl⟩ := map_eq_singleton_iff.1 hlast
    rw [Instruction.isTerminator_rename] at hterm
    exact ⟨body, terminator, rfl, hterm, fun i hi => (hplain i).1 (hbody _ (mem_map_of_mem hi))⟩
  rintro ⟨body, terminator, rfl, hterm, hbody⟩
  refine ⟨Code.rename ρ body, terminator.rename ρ, Code.rename_append .., ?_, fun i hi => ?_⟩
  · simp_all
  · obtain ⟨j, hj, rfl⟩ := mem_map.1 hi
    exact (hplain j).2 (hbody j hj)

theorem Code.grouped_rename_iff : Code.Grouped (code.rename ρ) ↔ code.Grouped := by
  rw [grouped_iff, grouped_iff, untilLabel_rename, blocks_rename, forall_mem_map]
  exact and_congr map_eq_nil_iff (forall₂_congr fun b _ => closed_rename_iff)

theorem Cut.ended_of_push {c c' : Cut} (h : c.push i = .ok c') : c.ended = i.isLabel := by
  obtain ⟨blocks, ended⟩ := c
  cases i with
  | label id =>
    cases ended with
    | true => rfl
    | false => cases h
  | _ =>
    rcases blocks with _ | ⟨b, rest⟩
    · cases h
    cases ended with
    | true => cases h
    | false => rfl

/-- Code that can be cut is a row of groups, behind the rest of the group that is open. -/
theorem grouped_of_cut {c : Cut} (h : cut c code = .ok blocks) :
    (c.ended = true → code.Grouped) ∧
      (c.ended = false → ∃ instructions rest, code = instructions ++ rest ∧ Closed instructions ∧ rest.Grouped) := by
  induction code generalizing c with
  | nil =>
    rw [cut] at h
    split at h
    · next hended => exact ⟨fun _ => .nil, fun hopen => absurd (hended.symm.trans hopen) (by simp)⟩
    · cases h
  | cons i rest ih =>
    obtain ⟨c', hpush, h⟩ := bind_eq_ok h
    have hended := Cut.ended_of_push hpush
    obtain ⟨id, rfl, rfl⟩ | ⟨hi, b, done, -, rfl⟩ := Cut.push_inv hpush
    · refine ⟨fun _ => ?_, fun hopen => absurd (hended.symm.trans hopen) (by simp [Instruction.isLabel])⟩
      obtain ⟨instructions, more, rfl, hclosed, hmore⟩ := (ih h).2 rfl
      exact .group id hclosed hmore
    refine ⟨fun hclosed => absurd (hclosed.symm.trans (hended.trans hi)) (by simp), fun _ => ?_⟩
    cases hterm : i.isTerminator with
    | true => exact ⟨[i], rest, rfl, ⟨[], i, rfl, hterm, by simp⟩, (ih h).1 hterm⟩
    | false =>
      obtain ⟨instructions, more, rfl, ⟨body, terminator, rfl, hlast, hbody⟩, hmore⟩ := (ih h).2 hterm
      have hplain : i.Plain := ⟨hterm, fun id hid => by rw [hid] at hi; cases hi⟩
      exact ⟨i :: (body ++ [terminator]), more, rfl,
        ⟨i :: body, terminator, rfl, hlast, forall_mem_cons.2 ⟨hplain, hbody⟩⟩, hmore⟩

/-- **Code can be cut** into blocks if and only if it is a row of groups. -/
theorem cut_eq_ok_iff : cut {} code = .ok blocks ↔ code.Grouped ∧ blocks = code.blocks := by
  constructor
  · exact fun h => ⟨(grouped_of_cut h).1 rfl, cut_inv h⟩
  rintro ⟨hgrouped, rfl⟩
  have hcut := cut_unparse (Code.grouped_iff.1 hgrouped).2 []
  rw [hgrouped.unparse_blocks] at hcut
  exact hcut.trans (congrArg _ (cut_inv hcut))

/-! ### Targets -/

theorem Instruction.successors_eq_nil (h : i.isTerminator = false) : i.successors = [] := by
  cases i with
  | branch | jump => cases h
  | _ => rfl

theorem Instruction.successors_subset_mentions (i : Instruction) : i.successors ⊆ i.mentions := by
  cases i with
  | branch => exact subset_append_right ..
  | jump => exact List.Subset.refl _
  | _ => exact nil_subset _

theorem Closed.forall_successors_iff (h : Closed code) {P : Local → Prop} :
    (∀ l ∈ (⟨label, code, []⟩ : Block).successors, P l) ↔ ∀ i ∈ code, ∀ l ∈ i.successors, P l := by
  obtain ⟨body, terminator, rfl, -, hbody⟩ := h
  rw [Block.successors_eq rfl, forall_mem_append, forall_mem_singleton]
  refine (and_iff_right fun i hi l hl => ?_).symm
  rw [Instruction.successors_eq_nil (hbody i hi).1] at hl
  cases hl

theorem Code.Grouped.forall_successors_iff (h : code.Grouped) {P : Local → Prop} :
    (∀ b ∈ code.blocks, ∀ l ∈ b.successors, P l) ↔ ∀ i ∈ code, ∀ l ∈ i.successors, P l := by
  induction h with
  | nil => simp [blocks]
  | group label hclosed hrest ih =>
    rw [blocks_group label hclosed hrest, forall_mem_cons, hclosed.forall_successors_iff, ih, cons_append,
      forall_mem_cons, forall_mem_append]
    exact (and_iff_right fun l hl => absurd hl not_mem_nil).symm

theorem exists_connect_iff :
    (∃ connected, connect blocks = .ok connected) ↔ ∀ b ∈ blocks, ∀ l ∈ b.successors, l ∈ blocks.map Block.label := by
  refine ⟨fun h b hb l hl => ?_, fun h => ⟨_, connect_eq h⟩⟩
  obtain ⟨connected, h⟩ := h
  unfold connect at h
  grind

/-- Control only goes on at labels. -/
def Code.Targets (code : Code) : Prop := ∀ i ∈ code, ∀ id ∈ i.successors, .label id ∈ code

/-- **Blocks can be connected** if and only if control only goes on at labels. -/
theorem connect_blocks_eq_ok_iff (h : code.Grouped) {connected : List Block} :
    connect code.blocks = .ok connected ↔ code.Targets ∧ connected = code.blocks.map (Block.connected code.blocks) := by
  have htargets : (∀ b ∈ code.blocks, ∀ l ∈ b.successors, l ∈ code.blocks.map Block.label) ↔ code.Targets := by
    rw [h.forall_successors_iff]
    exact forall₂_congr fun i _ => forall₂_congr fun l _ => Code.mem_labels
  constructor
  · exact fun h => ⟨htargets.1 (exists_connect_iff.1 ⟨_, h⟩), connect_inv h⟩
  · rintro ⟨h, rfl⟩
    exact connect_eq (htargets.2 h)

theorem Instruction.successors_rename (ρ : Local → Local) (i : Instruction) :
    (i.rename ρ).successors = i.successors.map ρ := by
  cases i <;> rfl

theorem mem_collect_of_label (h : .label id ∈ body) : id ∈ Numbering.collect parameters body :=
  mem_append_right _ (mem_filterMap.2 ⟨_, h, rfl⟩)

/-- Where control goes on does not depend on how locals are called, if different locals stay different. -/
theorem Code.targets_rename_iff {numbering : Numbering} (hρ : Set.InjOn ρ {id | id ∈ numbering})
    (hlabels : ∀ id, .label id ∈ code → id ∈ numbering) (hmentions : ∀ i ∈ code, ∀ id ∈ i.mentions, id ∈ numbering) :
    Code.Targets (code.rename ρ) ↔ code.Targets := by
  have hlabel : ∀ id ∈ numbering, .label (ρ id) ∈ code.rename ρ ↔ .label id ∈ code := by
    intro id hid
    refine ⟨fun h => ?_, fun h => mem_map.2 ⟨_, h, rfl⟩⟩
    obtain ⟨i, hi, hrename⟩ := mem_map.1 h
    cases i with
    | label other =>
      cases hρ (hlabels other hi) hid (Instruction.label.inj hrename)
      exact hi
    | _ => cases hrename
  unfold Code.Targets Code.rename
  rw [forall_mem_map]
  refine forall₂_congr fun i hi => ?_
  rw [Instruction.successors_rename, forall_mem_map]
  exact forall₂_congr fun id hid => hlabel id (hmentions i hi id (i.successors_subset_mentions hid))

/-! ### Flattening -/

/-- What code has to be like to be the body of a procedure. -/
structure Flattenable (parameters : List Argument) (body : Code) : Prop where
  /-- No local is defined twice. -/
  once : (Numbering.collect parameters body).Nodup
  /-- Every local that is mentioned is defined. -/
  defined : ∀ i ∈ body, ∀ id ∈ i.mentions, id ∈ Numbering.collect parameters body
  grouped : body.Grouped
  targets : body.Targets

/-- The procedure of a body: every local is renamed to its place, and the code is cut at its labels. -/
def flattened (name : String) (returnType : Ty) (parameters : List Argument) (external : Bool) (body : Code) :
    Procedure :=
  let ρ := (Numbering.collect parameters body).place
  let blocks := Code.blocks (body.rename ρ)
  ⟨name, returnType, parameters.map (·.rename ρ), external, blocks.map (Block.connected blocks)⟩

theorem Numbering.place_injOn (numbering : Numbering) : Set.InjOn numbering.place {id | id ∈ numbering} :=
  fun _ ha _ _ h => Numbering.place_inj ha h

section

variable {name : String} {returnType : Ty} {parameters : List Argument} {external : Bool} {body : Code} {p : Procedure}

/-- **Flattening succeeds exactly on code that can be the body of a procedure**, and has one result there. -/
theorem flatten_eq_ok_iff : flatten name returnType parameters external body = .ok p ↔
    Flattenable parameters body ∧ p = flattened name returnType parameters external body := by
  set numbering := Numbering.collect parameters body with hnumbering
  have htargets : (∀ i ∈ body, ∀ id ∈ i.mentions, id ∈ numbering) →
      (Code.Targets (body.rename numbering.place) ↔ body.Targets) :=
    Code.targets_rename_iff numbering.place_injOn fun _ => mem_collect_of_label
  constructor
  · intro h
    unfold flatten at h
    dsimp only at h
    split at h
    · cases h
    rename_i hrepeated
    obtain ⟨renamed, hrenamed, h⟩ := bind_eq_ok h
    obtain ⟨blocks, hblocks, h⟩ := bind_eq_ok h
    obtain ⟨connected, hconnected, h⟩ := bind_eq_ok h
    obtain rfl := Except.ok.inj h
    have hdefined := Numbering.renumbers_collect_iff.1 (.of_cutBlocks hblocks)
    rw [cutBlocks_eq (.of_cutBlocks hblocks)] at hblocks
    obtain ⟨hgrouped, rfl⟩ := cut_eq_ok_iff.1 hblocks
    obtain ⟨hlabels, rfl⟩ := (connect_blocks_eq_ok_iff hgrouped).1 hconnected
    rw [Numbering.arguments_collect] at hrenamed
    obtain rfl := Except.ok.inj hrenamed
    exact ⟨⟨Numbering.repeated?_eq_none_iff.1 (Option.eq_none_iff_forall_ne_some.2 hrepeated), hdefined,
      Code.grouped_rename_iff.1 hgrouped,
      (htargets hdefined).1 hlabels⟩, rfl⟩
  rintro ⟨h, rfl⟩
  have hgrouped : Code.Grouped (body.rename numbering.place) := Code.grouped_rename_iff.2 h.grouped
  refine flatten_eq h.once ?_ ((connect_blocks_eq_ok_iff hgrouped).2 ⟨(htargets h.defined).2 h.targets, rfl⟩)
  rw [cutBlocks_eq (Numbering.renumbers_collect_iff.2 h.defined)]
  exact cut_eq_ok_iff.2 ⟨hgrouped, rfl⟩

/-- **Flattening renames and cuts.** Every local becomes its place in the order of definition, and the code is cut at
its labels; what leads to the blocks is noted besides. -/
theorem flatten_inv
    (h : flatten name returnType parameters external body = .ok p) :
    ∃ ρ, ρ = (Numbering.collect parameters body).place ∧ p.name = name ∧ p.returnType = returnType ∧
      p.external = external ∧ p.parameters = parameters.map (·.rename ρ) ∧
      Forall₂ (fun b0 b : Block => b.label = ρ b0.label ∧ b.instructions = b0.instructions.rename ρ) body.blocks
        p.blocks := by
  obtain ⟨-, rfl⟩ := flatten_eq_ok_iff.1 h
  refine ⟨_, rfl, rfl, rfl, rfl, rfl, ?_⟩
  rw [flattened, Code.blocks_rename]
  simp only [map_map, forall₂_map_right_iff, forall₂_same]
  exact fun b _ => ⟨rfl, rfl⟩

/-- The blocks of a flattened procedure, one after another, are its code with the new numbers. -/
theorem unparse_flattened (h : Flattenable parameters body) :
    unparse (flattened name returnType parameters external body).blocks =
      Code.rename (Numbering.collect parameters body).place body := by
  have hconnected : ∀ blocks b, (Block.connected blocks b).label = b.label ∧
      (Block.connected blocks b).instructions = b.instructions := fun _ _ => ⟨rfl, rfl⟩
  exact (unparse_map (hconnected _) _).trans (Code.grouped_rename_iff.2 h.grouped).unparse_blocks

theorem flattened_closed (h : Flattenable parameters body) :
    ∀ b ∈ (flattened name returnType parameters external body).blocks, Closed b.instructions := by
  intro b hb
  obtain ⟨cut, hcut, rfl⟩ := mem_map.1 hb
  exact (Code.grouped_iff.1 (Code.grouped_rename_iff.2 h.grouped)).2 cut hcut

theorem predecessors_sublist (hb : b ∈ (flattened name returnType parameters external body).blocks) :
    b.predecessors.Sublist ((flattened name returnType parameters external body).blocks.map Block.label) := by
  obtain ⟨b, -, rfl⟩ := mem_map.1 hb
  rw [flattened, map_map]
  exact filter_sublist.map _

theorem Procedure.parameters_eq_range (hparams : ∀ a ∈ p.parameters, ∃ id, a.value = .register id)
    (hlocs : p.locals = List.range p.localCount) :
    p.parameters.map Argument.value = (List.range p.parameters.length).map Operand.register := by
  have hvals : ∀ as : List Argument, (∀ a ∈ as, ∃ id, a.value = .register id) →
      as.map Argument.value = (as.filterMap fun a => a.value.register?).map Operand.register := by
    intro as has
    induction as with
    | nil => rfl
    | cons a rest ih =>
      obtain ⟨⟨id, hid⟩, hrest⟩ := forall_mem_cons.1 has
      rw [map_cons, filterMap_cons, hid, ih hrest]
      rfl
  have hregs : (p.parameters.filterMap fun a => a.value.register?) = List.range p.parameters.length := by
    have htake := congrArg (List.take p.parameters.length) hlocs
    rw [Procedure.locals, take_left' (length_registers hparams), take_range] at htake
    rw [htake, Nat.min_eq_left]
    exact Nat.le_trans (Nat.le_add_right ..) (Nat.le_add_right ..)
  rw [hvals _ hparams, hregs]

/-- **Flattening accepts exactly the code that can be the body of a procedure, and numbers it without gaps.** Of a
procedure that comes out, the parameters are numbered first, and then all labels and registers in the order of
definition; its blocks are the code that was put in, with the new numbers throughout; and with every block stand the
labels of the blocks whose terminator may lead to it, in ascending order. -/
theorem flatten_accepts_exactly (name : String) (returnType : Ty) {parameters : List Argument} (external : Bool)
    (body : Code) (hparameters : ∀ a ∈ parameters, ∃ id, a.value = .register id) :
    ((∃ p, flatten name returnType parameters external body = .ok p) ↔ Flattenable parameters body) ∧
    ∀ p, flatten name returnType parameters external body = .ok p →
      (p.name = name ∧ p.returnType = returnType ∧ p.external = external) ∧
      p.parameters.map Argument.value = (List.range parameters.length).map Operand.register ∧
      p.locals = List.range p.localCount ∧
      (∃ ρ, (Numbering.collect parameters body).map ρ = List.range p.localCount ∧
        p.parameters = parameters.map (·.rename ρ) ∧ unparse p.blocks = body.rename ρ) ∧
      ∀ b ∈ p.blocks, b.predecessors.Pairwise (· < ·) ∧
        ∀ l, l ∈ b.predecessors ↔ ∃ q ∈ p.blocks, q.label = l ∧ b.label ∈ q.successors := by
  have haccepts : (∃ p, flatten name returnType parameters external body = .ok p) ↔ Flattenable parameters body := by
    simp [flatten_eq_ok_iff]
  refine ⟨haccepts, fun p hp => ?_⟩
  obtain ⟨h, rfl⟩ := flatten_eq_ok_iff.1 hp
  set p := flattened name returnType parameters external body
  have hcode : unparse p.blocks = Code.rename (Numbering.collect parameters body).place body := unparse_flattened h
  have hlocals : p.locals = List.range p.localCount :=
    Procedure.locals_eq_range rfl hcode hparameters h.once (flattened_closed h)
  have hregisters : ∀ a ∈ p.parameters, ∃ id, a.value = .register id := by
    intro a ha
    obtain ⟨b, hb, rfl⟩ := mem_map.1 ha
    obtain ⟨id, hid⟩ := hparameters b hb
    exact ⟨_, by rw [Argument.rename, hid]; rfl⟩
  refine ⟨⟨rfl, rfl, rfl⟩, ?_, hlocals, ⟨_, ?_, rfl, hcode⟩,
    fun b hb => ⟨?_, fun l => Block.mem_predecessors_connected hb⟩⟩
  · rw [Procedure.parameters_eq_range hregisters hlocals]
    exact congrArg (fun n => (List.range n).map Operand.register) (length_map _)
  · rw [← Procedure.locals_eq_map rfl hcode, hlocals]
  · refine List.Pairwise.sublist ((predecessors_sublist hb).trans p.labels_sublist_locals) ?_
    rw [hlocals]
    exact pairwise_lt_range

end

/-- Code that counts down in a loop. Its locals are numbered out of order. -/
def loopBody : Code :=
  [.label 5, .jump 3,
    .label 3, .set 8 (.phi (.int 32) [(5, .register 7), (3, .register 4)]),
    .set 4 (.binary .sub .signed (.int 32) (.register 8) (.int 1)),
    .set 2 (.compare .eq (.int 32) (.register 4) (.int 0)), .branch (.register .bool 2) 6 3,
    .label 6, .ret (some (.register (.int 32) 4))]

/-- A loop can be flattened. -/
theorem flatten_accepts_loop :
    (∀ a ∈ [Argument.register (.int 32) 7], ∃ id, a.value = .register id) ∧
      ∃ p, flatten "loop" (.int 32) [.register (.int 32) 7] false loopBody = .ok p ∧
        Flattenable [.register (.int 32) 7] loopBody ∧ p.locals = List.range 7 ∧
        p.blocks.map Block.predecessors = [[], [1, 2], [2]] := by
  have hparameters : ∀ a ∈ [Argument.register (.int 32) 7], ∃ id, a.value = .register id :=
    forall_mem_singleton.2 ⟨7, rfl⟩
  obtain ⟨haccepts, hdense⟩ := flatten_accepts_exactly "loop" (.int 32) false loopBody hparameters
  have hflatten : flatten "loop" (.int 32) [.register (.int 32) 7] false loopBody =
      .ok (flattened "loop" (.int 32) [.register (.int 32) 7] false loopBody) := by decide +kernel
  have hlocals := (hdense _ hflatten).2.2.1
  exact ⟨hparameters, _, hflatten, haccepts.1 ⟨_, hflatten⟩, hlocals.trans (by decide +kernel), by decide +kernel⟩

end Lowering.IR
