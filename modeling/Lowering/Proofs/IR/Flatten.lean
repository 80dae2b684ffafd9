import Lowering.Proofs.IR.WellFormed
/-!
# Lowering.Proofs.IR.Flatten

**Structured code flattens to a well-formed procedure** (`flatten_wellFormed`), if each of its locals is defined once.
No step of the flattening fails: structured code mentions no undefined local, and its blocks end where they should.
-/

namespace Lowering.IR

open List

variable {env : Setting} {returnType : Ty} {code : Code} {parameters : List Argument} {p : Procedure}
  {stations : List Station} {blocks : List Block}

/-! ### Locals -/

theorem definitions_unparse (blocks : List Block) :
    definitions (unparse blocks) = blocks.flatMap fun b => b.label :: definitions b.instructions := by
  induction blocks with
  | nil => rfl
  | cons b rest ih => simp [ih]

theorem unparse_map (hf : ∀ b, (f b).label = b.label ∧ (f b).instructions = b.instructions) (blocks : List Block) :
    unparse (blocks.map f) = unparse blocks := by
  induction blocks with
  | nil => rfl
  | cons b rest ih => simp_all

/-- The value that an instruction sets a register to. -/
def Instruction.value? : Instruction → Option Value
  | .set _ value => some value
  | _ => none

theorem Procedure.values_eq (p : Procedure) : p.values = p.instructions.filterMap Instruction.value? :=
  filterMap_congr fun i _ => by cases i <;> rfl

theorem Instruction.isSome_defined? {i : Instruction} (h : ∀ id, i ≠ .label id) :
    i.defined?.isSome = i.value?.isSome := by
  cases i with
  | label id => exact absurd rfl (h id)
  | _ => rfl

theorem Closed.length_definitions (h : Closed code) :
    (definitions code).length = (code.filterMap Instruction.value?).length := by
  have hlabels : ∀ i ∈ code, ∀ id, i ≠ .label id := by
    obtain ⟨body, terminator, rfl, hterm, hbody⟩ := h
    refine forall_mem_append.2 ⟨fun i hi => (hbody i hi).2, ?_⟩
    simp only [mem_singleton, forall_eq]
    rintro id rfl
    cases hterm
  rw [definitions, length_filterMap_eq_countP, length_filterMap_eq_countP]
  exact countP_congr fun i hi => by rw [Instruction.isSome_defined? (hlabels i hi)]

theorem length_registers (h : ∀ a ∈ parameters, ∃ id, a.value = .register id) :
    (parameters.filterMap fun a => a.value.register?).length = parameters.length := by
  rw [length_filterMap_eq_countP, countP_eq_length]
  intro a ha
  obtain ⟨id, hid⟩ := h a ha
  rw [hid]
  rfl

theorem Procedure.length_locals (hparams : ∀ a ∈ p.parameters, ∃ id, a.value = .register id)
    (hclosed : ∀ b ∈ p.blocks, Closed b.instructions) : p.locals.length = p.localCount := by
  have hblocks : ∀ blocks : List Block, (∀ b ∈ blocks, Closed b.instructions) →
      (blocks.flatMap fun b => b.label :: definitions b.instructions).length =
        blocks.length + ((blocks.flatMap Block.instructions).filterMap Instruction.value?).length := by
    intro blocks h
    induction blocks with
    | nil => rfl
    | cons b rest ih =>
      obtain ⟨hb, hrest⟩ := forall_mem_cons.1 h
      grind [hb.length_definitions]
  rw [locals, length_append, length_registers hparams, hblocks p.blocks hclosed, localCount, values_eq,
    instructions, Nat.add_assoc]

/-! ### Blocks -/

/-- The blocks of structured code, its own label put first. -/
theorem Laid.graph (h : Laid env returnType ⟨entry, Γ⟩ code none stations)
    (hnodup : (entry :: definitions code).Nodup) :
    ∃ first blocks edges others, .label entry :: code = unparse (first :: blocks) ∧
      Graph env returnType ⟨entry, Γ, []⟩ stations first blocks edges others := by
  have hend : Continuation env returnType none [] [] [] [] [] := ⟨fun _ => ⟨rfl, rfl⟩, by simp, by simp, .nil⟩
  obtain ⟨rest, blocks, edges, others, hcode, hk, hedges⟩ := h.chain hend
  simp only [unparse_nil, append_nil] at hcode hedges hk
  have hlabels : (entry :: stations.map Station.label).Nodup := (h.labels_sublist.cons_cons entry).nodup hnodup
  refine ⟨⟨entry, rest, []⟩, blocks, edges, others, by rw [hcode]; rfl, ?_⟩
  exact ⟨⟨rfl, [], rest, rfl, by simp, hk.finished _ rfl⟩, rfl, hk.later, hk.blocks, hedges, hlabels,
    h.arrivals_nodup hlabels⟩

/-- Blocks of a graph that know what leads to them are the blocks of a well-formed procedure. -/
theorem Graph.wellFormed {start first edges others}
    (h : Graph env p.returnType start stations first blocks edges others)
    (hp : p.blocks = (first :: blocks).map (Block.connected (first :: blocks))) (hstart : start.entry ⊆ p.arriving)
    (hlocs : p.locals = List.range p.localCount) : p.WellFormed env := by
  have hconnected : ∀ b, (Block.connected (first :: blocks) b).label = b.label ∧
      (Block.connected (first :: blocks) b).instructions = b.instructions := fun _ => ⟨rfl, rfl⟩
  have hgraph := h.map hconnected
  have hpredecessors : ∀ b ∈ p.blocks, ∀ l,
      l ∈ b.predecessors ↔ ∃ q ∈ p.blocks, q.label = l ∧ b.label ∈ q.successors := by
    intro b hb l
    rw [hp] at hb ⊢
    exact Block.mem_predecessors_connected hb
  constructor
  case numbered => exact hlocs
  case closed =>
    intro b hb
    obtain ⟨s, -, out, hfits, -⟩ := hgraph.station (hp ▸ hb)
    exact hfits.closed
  case forward => exact fun earlier b later hblocks => hgraph.forward (hp.symm.trans hblocks)
  case reached => exact fun b hb => hgraph.reached hp hb
  case predecessors => exact hpredecessors
  case phisFirst =>
    intro b hb
    obtain ⟨s, -, out, hfits, -⟩ := hgraph.station (hp ▸ hb)
    obtain ⟨phis, rest, hcode, hphis, hrest⟩ := hfits.split
    refine ⟨phis, rest, hcode, fun i hi => (hphis i hi).isPhi, fun i hi => ?_⟩
    obtain ⟨before, after, hsplit⟩ := append_of_mem hi
    exact (hrest before i after hsplit).isPhi
  case phis =>
    intro b hb destination ty sources hphi
    obtain ⟨-, hnodup, hlabels, hvals⟩ := hgraph.phi hp hstart hb hphi
    refine ⟨hnodup, fun l => (hlabels l).trans (hpredecessors b hb l).symm, fun source hsrc passed q hreach hq => ?_⟩
    exact (hvals source hsrc passed q hreach hq).mono (p.held_subset_known _ _)
  case typed =>
    intro passed b hreach before i after hi hphi
    exact (hgraph.placed hp hstart hreach hi hphi).typed (p.held_subset_known _ _) (p.results_subset_known _ _)

theorem Graph.runnable {start first edges others} (h : Graph env p.returnType start stations first blocks edges others)
    (hp : p.blocks = (first :: blocks).map (Block.connected (first :: blocks))) (hstart : start.entry ⊆ p.arriving) :
    p.Runnable env := by
  have hgraph := h.map (f := Block.connected (first :: blocks)) fun _ => ⟨rfl, rfl⟩
  constructor
  case phis =>
    intro b hb destination ty sources hphi
    obtain ⟨hscalar, -, -, hvals⟩ := hgraph.phi hp hstart hb hphi
    exact ⟨hscalar, hvals⟩
  case placed => exact fun passed b hreach before i after hi hphi => hgraph.placed hp hstart hreach hi hphi

/-! ### Flattening -/

/-- The procedure of some code: the same code, with every local renamed to its place. -/
structure Flattens (name : String) (returnType : Ty) (parameters : List Argument) (body : Code) (p : Procedure) :
    Prop where
  name : p.name = name
  returnType : p.returnType = returnType
  internal : p.external = false
  arguments : p.parameters = parameters.map (·.rename (Numbering.collect parameters body).place)
  code : unparse p.blocks = Code.rename (Numbering.collect parameters body).place body

theorem mem_registersOf (h : x ∈ registersOf parameters) : x.1 ∈ parameters.filterMap fun a => a.value.register? := by
  obtain ⟨a, ha, hx⟩ := mem_filterMap.1 h
  obtain ⟨id, hid, rfl⟩ := Option.map_eq_some_iff.1 hx
  exact mem_filterMap.2 ⟨a, ha, hid⟩

theorem fits_registersOf (ha : a ∈ parameters) {id} (hid : a.value = .register id) :
    a.Fits (registersOf parameters) := by
  rw [Argument.Fits, hid]
  exact mem_filterMap.2 ⟨a, ha, by rw [hid]; rfl⟩

theorem registersOf_rename (parameters : List Argument) :
    registersOf (parameters.map (·.rename ρ)) = (registersOf parameters).rename ρ := by
  simp only [registersOf, Typing.rename, filterMap_map, map_filterMap]
  refine filterMap_congr fun a _ => ?_
  obtain ⟨ty, value⟩ := a
  cases value <;> rfl

theorem filterMap_register?_rename (parameters : List Argument) :
    ((parameters.map (·.rename ρ)).filterMap fun a => a.value.register?) =
      (parameters.filterMap fun a => a.value.register?).map ρ := by
  simp only [filterMap_map, map_filterMap]
  refine filterMap_congr fun a _ => ?_
  obtain ⟨ty, value⟩ := a
  cases value <;> rfl

section Locals

variable {parameters : List Argument} {body : Code} {p : Procedure}
  (hargs : p.parameters = parameters.map (·.rename (Numbering.collect parameters body).place))
  (hcode : unparse p.blocks = Code.rename (Numbering.collect parameters body).place body)
include hargs hcode

theorem Procedure.locals_eq_map :
    p.locals = (Numbering.collect parameters body).map (Numbering.collect parameters body).place := by
  rw [locals, hargs, filterMap_register?_rename, ← definitions_unparse, hcode, definitions_rename, ← map_append]
  rfl

theorem Procedure.locals_eq_range (hparams : ∀ a ∈ parameters, ∃ id, a.value = .register id)
    (hnodup : (Numbering.collect parameters body).Nodup) (hclosed : ∀ b ∈ p.blocks, Closed b.instructions) :
    p.locals = List.range p.localCount := by
  have hlocs := locals_eq_map hargs hcode
  rw [Numbering.map_place hnodup] at hlocs
  have hregs : ∀ a ∈ p.parameters, ∃ id, a.value = .register id := by
    rw [hargs]
    intro a ha
    obtain ⟨b, hb, rfl⟩ := mem_map.1 ha
    obtain ⟨id, hid⟩ := hparams b hb
    exact ⟨_, by rw [Argument.rename, hid]; rfl⟩
  rw [← Procedure.length_locals hregs hclosed, hlocs, length_range]

end Locals

theorem Flattens.numbered {name body} (h : Flattens name returnType parameters body p)
    (hparams : ∀ a ∈ parameters, ∃ id, a.value = .register id) (hnodup : (Numbering.collect parameters body).Nodup)
    (hclosed : ∀ b ∈ p.blocks, Closed b.instructions) : p.locals = List.range p.localCount :=
  Procedure.locals_eq_range h.arguments h.code hparams hnodup hclosed

theorem flatten_eq (hnodup : (Numbering.collect parameters body).Nodup)
    (hcut : cutBlocks (Numbering.collect parameters body) {} body = .ok blocks)
    (hconnect : connect blocks = .ok connected) : flatten name returnType parameters external body =
      .ok ⟨name, returnType, parameters.map (·.rename (Numbering.collect parameters body).place), external,
        connected⟩ := by
  unfold flatten
  dsimp only
  rw [Numbering.repeated?_eq_none_iff.2 hnodup, Numbering.arguments_collect, hcut]
  show (connect blocks >>= fun blocks => pure _) = _
  rw [hconnect]
  rfl

/-- **Structured code flattens** to a well-formed procedure that can be run, if its locals are defined once. -/
theorem flatten_wellFormed (name : String) {entry Γ} (hparams : ∀ a ∈ parameters, ∃ id, a.value = .register id)
    (hΓ : Γ ⊆ registersOf parameters) (hcode : Laid env returnType ⟨entry, Γ⟩ code none stations)
    (hnodup : (Numbering.collect parameters (.label entry :: code)).Nodup) :
    ∃ p, flatten name returnType parameters false (.label entry :: code) = .ok p ∧
      Flattens name returnType parameters (.label entry :: code) p ∧ p.WellFormed env ∧ p.Runnable env := by
  set numbering := Numbering.collect parameters (.label entry :: code)
  have hdefined : ∀ id ∈ entry :: definitions code, id ∈ numbering := fun id hid => mem_append_right _ hid
  have hholds : numbering.Holds ⟨entry, Γ⟩ :=
    ⟨hdefined entry (.head _), fun x hx => mem_append_left _ (mem_registersOf (hΓ hx))⟩
  have hrenumbers : numbering.Renumbers (.label entry :: code) := by
    refine Numbering.renumbers_collect_iff.2 (forall_mem_cons.2 ⟨forall_mem_nil _, ?_⟩)
    exact (hcode.mentions hholds fun id hid => hdefined id (.tail _ hid)).1
  -- The blocks are those of the renamed code, which is structured as well.
  have hlaid : Laid env returnType ⟨numbering.place entry, Γ.rename numbering.place⟩ (code.rename numbering.place) none
      (stations.map (·.rename numbering.place)) := hcode.rename
  have hplaces : (numbering.place entry :: definitions (code.rename numbering.place)).Nodup := by
    have hsub : ((entry :: definitions code).map numbering.place).Sublist (numbering.map numbering.place) :=
      (sublist_append_right _ _).map _
    rw [definitions_rename]
    exact hsub.nodup (Numbering.map_place hnodup ▸ nodup_range)
  obtain ⟨first, blocks, edges, others, hunparse, hgraph⟩ := hlaid.graph hplaces
  have herase : ∀ b : Block, ({ b with predecessors := [] } : Block).label = b.label ∧
      ({ b with predecessors := [] } : Block).instructions = b.instructions := fun _ => ⟨rfl, rfl⟩
  have hclosed : ∀ b ∈ first :: blocks, Closed b.instructions := fun b hb => by
    obtain ⟨s, -, out, hfits, -⟩ := hgraph.station hb
    exact hfits.closed
  have hcut : cutBlocks numbering {} (.label entry :: code) =
      .ok ((first :: blocks).map fun b => { b with predecessors := [] }) := by
    rw [cutBlocks_eq hrenumbers]
    exact (congrArg (cut ⟨[], true⟩) hunparse).trans (cut_unparse hclosed [])
  replace hgraph := hgraph.map herase
  rw [← unparse_map herase, map_cons] at hunparse
  rw [map_cons] at hcut
  generalize ({ first with predecessors := [] } : Block) = first at hcut hgraph hunparse
  generalize blocks.map (fun b => { b with predecessors := [] }) = blocks at hcut hgraph hunparse
  have hconnect : connect (first :: blocks) = .ok ((first :: blocks).map (Block.connected (first :: blocks))) := by
    refine connect_eq fun b hb l hl => ?_
    obtain ⟨earlier, later, hsplit⟩ := append_of_mem hb
    have := hgraph.forward hsplit l hl
    simp [*]
  have hconnected : ∀ b, (Block.connected (first :: blocks) b).label = b.label ∧
      (Block.connected (first :: blocks) b).instructions = b.instructions := fun _ => ⟨rfl, rfl⟩
  have hflattens : Flattens name returnType parameters (.label entry :: code)
      ⟨name, returnType, parameters.map (·.rename numbering.place), false,
        (first :: blocks).map (Block.connected (first :: blocks))⟩ :=
    ⟨rfl, rfl, rfl, rfl, (unparse_map hconnected _).trans hunparse.symm⟩
  have hstart : Γ.rename numbering.place ⊆ registersOf (parameters.map (·.rename numbering.place)) := by
    rw [registersOf_rename]
    exact Typing.rename_mono hΓ
  refine ⟨_, flatten_eq hnodup hcut hconnect, hflattens,
    hgraph.wellFormed rfl hstart (hflattens.numbered hparams hnodup ?_), hgraph.runnable rfl hstart⟩
  intro b hb
  obtain ⟨s, -, out, hfits, -⟩ := (hgraph.map hconnected).station hb
  exact hfits.closed

end Lowering.IR
