import Lowering.Proofs.IR.Blocks
import Mathlib.Data.List.Induction
import Mathlib.Data.List.Nodup
/-!
# Well-formed procedures

`Procedure.WellFormed` is what a reader of a procedure may rely on: its locals are numbered without gaps and defined
once; each block ends in its only terminator and leads to later blocks; and on every way that control can take to an
instruction, all registers that the instruction reads have been set, at the types it reads them at.

Ways are paths through the blocks (`Procedure.Reaches`), with no regard to what conditions come out as. The blocks of
structured code are a `Graph`, and by induction on a way, what a station of a graph relies on was set on it
(`Graph.entry_held`).
-/

namespace Lowering.IR

open List

/-! ### Procedures -/

/-- The registers of parameters, with their types. -/
def registersOf (parameters : List Argument) : Typing := parameters.filterMap fun a => a.value.register?.map (·, a.ty)

namespace Procedure

/-- The locals of a procedure in order: the parameters, and the labels and registers of each block. -/
def locals (p : Procedure) : List Local :=
  p.parameters.filterMap (fun a => a.value.register?) ++ p.blocks.flatMap fun b => b.label :: definitions b.instructions

def arriving (p : Procedure) : Typing := registersOf p.parameters

/-- Control can pass through the blocks `passed`, in this order, and then be at the start of a block. -/
inductive Reaches (p : Procedure) : (passed : List Block) → Block → Prop where
  | entry {b : Block} {rest : List Block} (h : p.blocks = b :: rest) : Reaches p [] b
  | step {passed : List Block} {b next : Block} (h : Reaches p passed b) (hnext : next ∈ p.blocks)
      (hedge : next.label ∈ b.successors) : Reaches p (passed ++ [b]) next

/-- The registers that are set when control has passed through blocks, and then through some code. -/
def known (p : Procedure) (passed : List Block) (code : Code) : Typing :=
  p.arriving.after (passed.flatMap Block.instructions ++ code)

/-- The registers that can be used when control has passed through blocks, and then through some code. -/
def held (p : Procedure) (passed : List Block) (code : Code) : Typing :=
  p.arriving.past (passed.flatMap Block.instructions ++ code)

end Procedure

def Instruction.isPhi : Instruction → Bool
  | .set _ (.phi ..) => true
  | _ => false

/-- An instruction of a block, not a phi, that can be run where `Γ` is known. -/
def Instruction.Typed (env : Surroundings) (Γ : Typing) (returnType : Ty) : Instruction → Prop
  | .label _ => False
  | .set _ value => value.Typed env Γ
  | .store address value => StoreTyped Γ address value
  | .call type callee arguments => CallTyped env Γ type callee arguments
  | .branch condition _ _ => ConditionTyped Γ condition
  | .jump _ => True
  | .ret value => ReturnTyped Γ returnType value

/-- A well-formed procedure. -/
structure Procedure.WellFormed (env : Surroundings) (p : Procedure) : Prop where
  /-- The locals are the numbers up to their count, each defined once. -/
  numbered : p.locals = List.range p.localCount
  /-- A block ends in its only terminator, and has no labels in it. -/
  closed : ∀ b ∈ p.blocks, Closed b.instructions
  /-- Control goes on at a later block. -/
  forward : ∀ earlier b later, p.blocks = earlier ++ b :: later → ∀ l ∈ b.successors, l ∈ later.map Block.label
  /-- Every block can be reached. -/
  reached : ∀ b ∈ p.blocks, ∃ passed, p.Reaches passed b
  /-- The predecessors of a block are the blocks that lead to it. -/
  predecessors : ∀ b ∈ p.blocks, ∀ l, l ∈ b.predecessors ↔ ∃ q ∈ p.blocks, q.label = l ∧ b.label ∈ q.successors
  /-- Phis come first in a block. -/
  phisFirst : ∀ b ∈ p.blocks, ∃ phis rest, b.instructions = phis ++ rest ∧ (∀ i ∈ phis, i.isPhi = true) ∧
    ∀ i ∈ rest, i.isPhi = false
  /-- A phi has one source for each predecessor, and its value is set on every way to the end of that block. -/
  phis : ∀ b ∈ p.blocks, ∀ destination ty sources, .set destination (.phi ty sources) ∈ b.instructions →
    (sources.map Prod.fst).Nodup ∧ (∀ l, l ∈ sources.map Prod.fst ↔ l ∈ b.predecessors) ∧
      ∀ source ∈ sources, ∀ passed q, p.Reaches passed q → q.label = source.1 →
        source.2.Fits (p.known passed q.instructions) ty
  /-- Every other value is set on every way to its use. -/
  typed : ∀ passed b, p.Reaches passed b → ∀ before i after, b.instructions = before ++ i :: after → i.isPhi = false →
    i.Typed env (p.known passed before) p.returnType

variable {p : Procedure} {passed : List Block} {i : Instruction} {e : Edge}

theorem Procedure.Reaches.mem (h : p.Reaches passed b) : b ∈ p.blocks := by
  cases h with
  | entry h =>
    rw [h]
    exact .head _
  | step _ hnext => exact hnext

theorem Procedure.held_append (p : Procedure) (passed : List Block) (b : Block) :
    p.held (passed ++ [b]) [] = p.held passed b.instructions := by
  simp [Procedure.held]

theorem Procedure.held_mono : p.held passed [] ⊆ p.held passed code := by
  grind [Procedure.held, Typing.mem_past, kept_append]

theorem Procedure.held_subset_known (p : Procedure) (passed : List Block) (code : Code) :
    p.held passed code ⊆ p.known passed code := by
  intro x hx
  obtain hx | hx := Typing.mem_past.1 hx
  · exact Typing.mem_after.2 (.inl (kept_subset_results _ hx))
  · exact Typing.subset_after _ _ hx

theorem Procedure.results_subset_known (p : Procedure) (passed : List Block) (code : Code) :
    results code ⊆ p.known passed code := by
  intro x hx
  exact Typing.mem_after.2 (.inl (by simp [*]))

/-! ### Blocks of stations -/

variable {env : Setting} {returnType : Ty} {Γ Δ : Typing}

/-- An instruction that can be run where it stands in its block, behind the instructions `before`: where `Γ` can be
used, or as a part of a byte copy. -/
inductive Placed (env : Setting) (returnType : Ty) (Γ : Typing) (before : Code) : Instruction → Prop where
  | simple {i : Instruction} (h : i.Simple env Γ) : Placed env returnType Γ before i
  | terminator {i : Instruction} (h : TerminatorTyped Γ returnType i) : Placed env returnType Γ before i
  | raw {register : Local} {name : String} {value : Argument} (hvalue : value.Fits Γ)
      (hty : value.ty = ⟨.struct name, 1⟩) :
        Placed env returnType Γ before (.set register (.bitcast value .bytePointer))
  | copy {name : String} {size start target : Local} {source destination : Argument} {earlier : Code}
      (hcopy : CopyTyped env Γ name source destination)
      (hbefore : before = earlier ++ copyStart name size start target source destination) :
      Placed env returnType Γ before (copyCall size start target)

namespace Placed

variable {before : Code} {i : Instruction}

theorem mono (h : Placed env returnType Γ before i) (hsub : Γ ⊆ Δ) (earlier : Code) :
    Placed env returnType Δ (earlier ++ before) i := by
  cases h with
  | simple h => exact .simple (h.mono hsub)
  | terminator h => exact .terminator (h.mono hsub)
  | raw hvalue hty => exact .raw (hvalue.mono hsub) hty
  | copy hcopy hbefore => exact .copy (hcopy.mono hsub) (by rw [hbefore, append_assoc])

theorem isPhi (h : Placed env returnType Γ before i) : i.isPhi = false := by
  cases h with
  | simple h =>
    cases i with
    | set destination value =>
      cases value with
      | phi => exact h.1.elim
      | _ => rfl
    | _ => rfl
  | terminator h =>
    cases i with
    | set => exact h.elim
    | _ => rfl
  | raw | copy => rfl

/-- What can be run is well typed where everything is known that was set. -/
theorem typed (h : Placed env returnType Γ before i) (hsub : Γ ⊆ Δ) (hbefore : results before ⊆ Δ) :
    i.Typed env Δ returnType := by
  rcases h with h | h | hvalue | ⟨hcopy, hlast⟩
  · cases i with
    | set | store | call => exact h.1.mono hsub
    | label | branch | jump | ret => exact h.elim
  · cases i with
    | branch => exact h.mono hsub
    | jump => trivial
    | ret => exact h.mono hsub
    | label | set | store | call => exact h.elim
  · exact hvalue.mono hsub
  refine ⟨fun a ha => ?_, hcopy.memcpy⟩
  subst hlast
  rw [results_append, append_subset] at hbefore
  simp only [mem_cons, not_mem_nil, or_false] at ha
  rcases ha with rfl | rfl | rfl | rfl
  · exact hbefore.2 (by simp [copyStart, Value.resultType, Argument.register])
  · exact hbefore.2 (by simp [copyStart, Value.resultType, Argument.register])
  · exact hbefore.2 (by simp [copyStart, Value.resultType, Argument.register])
  · rfl

end Placed

/-- Every instruction of a procedure can be run on every way that control can take to it, with registers that can be
used there. -/
structure Procedure.Runnable (env : Setting) (p : Procedure) : Prop where
  phis : ∀ b ∈ p.blocks, ∀ destination ty sources, .set destination (.phi ty sources) ∈ b.instructions →
    (ty.IsScalar ∧ sources ≠ []) ∧ ∀ source ∈ sources, ∀ passed q, p.Reaches passed q → q.label = source.1 →
      source.2.Fits (p.held passed q.instructions) ty
  placed : ∀ passed b, p.Reaches passed b → ∀ before i after, b.instructions = before ++ i :: after → i.isPhi = false →
    Placed env p.returnType (p.held passed before) before i

theorem PhiFits.isPhi (h : PhiFits arrivals i) : i.isPhi = true := by
  obtain ⟨destination, ty, sources, rfl, -⟩ := h
  rfl

theorem SourcesFit.labels (h : SourcesFit arrivals ty sources) : sources.map Prod.fst = arrivals.map Point.label := by
  induction h with
  | nil => rfl
  | cons hsrc _ ih => simp_all

/-- Every instruction of straight code can be run where it stands. -/
theorem Straight.placed {code before after : Code} (h : Straight env Γ code) (hi : code = before ++ i :: after) :
    Placed env returnType (Γ.past before) before i := by
  induction h generalizing before with
  | nil => simp at hi
  | @cons Γ first rest hfirst _ ih =>
    rcases before with _ | ⟨j, before⟩
    · obtain ⟨rfl, rfl⟩ := List.cons.inj hi
      exact .simple hfirst
    obtain ⟨rfl, hrest⟩ := List.cons.inj hi
    refine (ih hrest).mono (fun x hx => ?_) [first]
    exact Typing.mem_past_append.2 hx
  | @copy Γ name size start target source destination rest hcopy _ ih =>
    -- The instruction is one of the four of the copy, or stands behind them.
    match before with
    | [] =>
      obtain ⟨rfl, -⟩ := List.cons.inj hi
      exact .simple ⟨trivial, fun _ => hcopy.declared⟩
    | [_] =>
      obtain ⟨-, rfl, -⟩ := hi
      exact .raw (hcopy.sourceFits.mono (Typing.subset_past ..)) hcopy.sourceType
    | [_, _] =>
      obtain ⟨-, -, rfl, -⟩ := hi
      exact .raw (hcopy.destinationFits.mono (Typing.subset_past ..)) hcopy.destinationType
    | [_, _, _] =>
      obtain ⟨rfl, rfl, rfl, rfl, -⟩ := hi
      exact .copy (hcopy.mono (Typing.subset_past ..)) (nil_append _).symm
    | _ :: _ :: _ :: _ :: before =>
      simp only [copyStart, cons_append, nil_append, List.cons.injEq] at hi
      obtain ⟨rfl, rfl, rfl, rfl, hi⟩ := hi
      refine (ih hi).mono (fun x hx => ?_) (copyStart name size start target source destination ++ [_])
      have hkept := hcopy.kept size start target before
      rw [Typing.mem_past, mem_cons] at hx
      show x ∈ Γ.past (copyStart name size start target source destination ++ copyCall size start target :: before)
      rw [Typing.mem_past, hkept, mem_cons]
      tauto

namespace Station.Fits

variable {s : Station} {b : Block} {edges : List Edge} (h : s.Fits env returnType b edges)
include h

theorem congr (hb : b'.label = b.label ∧ b'.instructions = b.instructions) : s.Fits env returnType b' edges := by
  unfold Station.Fits
  rw [hb.1, hb.2]
  exact h

theorem successors : edges.map Prod.snd = b.successors := by
  obtain ⟨-, phis, rest, hcode, -, body, terminator, known, rfl, -, -, -, rfl⟩ := h
  simp only [Block.successors, Block.last?, hcode, ← append_assoc, List.getLast?_concat, map_map]
  exact map_id _

theorem edge (he : e ∈ edges) : e.1.label = b.label ∧ e.1.known ⊆ s.entry.past b.instructions := by
  obtain ⟨hlabel, phis, rest, hcode, -, body, terminator, known, rfl, -, -, hknown, rfl⟩ := h
  obtain ⟨l, -, rfl⟩ := mem_map.1 he
  refine ⟨hlabel.symm, fun x hx => ?_⟩
  have hx := hknown hx
  rw [hcode]
  simp only [Typing.mem_past, kept_append, mem_append] at hx ⊢
  tauto

theorem known_end (hentry : s.entry ⊆ p.held passed []) (he : e ∈ edges) :
    e.1.known ⊆ p.held passed b.instructions := by
  intro x hx
  obtain hx | hx := Typing.mem_past.1 ((h.edge he).2 hx)
  · exact Typing.mem_past.2 (.inl (by simp [hx]))
  · exact Procedure.held_mono (hentry hx)

/-- A block is its phis and then instructions that can be run where they stand. -/
theorem split : ∃ phis rest, b.instructions = phis ++ rest ∧
    (∀ i ∈ phis, PhiFits s.arrivals i) ∧ ∀ before i after, rest = before ++ i :: after →
      Placed env returnType (s.entry.past (phis ++ before)) (phis ++ before) i := by
  obtain ⟨-, phis, rest, hcode, hphis, body, terminator, known, rfl, hbody, hterm, -, -⟩ := h
  refine ⟨phis, _, hcode, hphis, fun before i after hi => ?_⟩
  have hsub : ∀ code, (s.entry.past phis).past code ⊆ s.entry.past (phis ++ code) :=
    fun code x hx => Typing.mem_past_append.2 hx
  -- The instruction is the terminator, or it stands before it.
  obtain rfl | ⟨after, terminator', rfl⟩ := eq_nil_or_concat' after
  · obtain ⟨rfl, rfl⟩ := append_singleton_inj.1 hi
    exact .terminator (hterm.mono (hsub _))
  rw [← cons_append, ← append_assoc] at hi
  obtain ⟨rfl, rfl⟩ := append_singleton_inj.1 hi
  exact (hbody.placed rfl).mono (hsub _) phis

end Station.Fits

namespace Chain

variable {stations : List Station} {blocks : List Block} {edges : List Edge}
  (h : Chain env returnType stations blocks edges)
include h

theorem labels : blocks.map Block.label = stations.map Station.label := by
  induction h with
  | nil => rfl
  | cons hfits _ _ _ _ ih => rw [map_cons, map_cons, hfits.1, ih]

/-- Every block has a station, and its edges are edges of the chain. -/
theorem station (hb : b ∈ blocks) : ∃ s ∈ stations, ∃ out, s.Fits env returnType b out ∧ ∀ e ∈ out, e ∈ edges := by
  induction h with
  | nil => cases hb
  | cons hfits _ _ _ _ ih =>
    grind

theorem origin (he : e ∈ edges) : ∃ b ∈ blocks, ∃ s ∈ stations, ∃ out, s.Fits env returnType b out ∧ e ∈ out := by
  induction h with
  | nil => cases he
  | cons hfits _ _ _ _ ih =>
    grind

/-- Control arrives at every station, and what is relied on there is known at each arrival. -/
theorem arrivals (hs : s ∈ stations) : s.arrivals ≠ [] ∧ ∀ a ∈ s.arrivals, s.entry ⊆ a.known := by
  induction h with
  | nil => cases hs
  | cons _ harrivals hentry _ _ ih =>
    grind

theorem later {earlier later b} (hblocks : blocks = earlier ++ b :: later) :
    ∀ l ∈ b.successors, l ∈ later.map Block.label := by
  induction h generalizing earlier with
  | nil => simp at hblocks
  | cons hfits _ _ hlater hrest ih =>
    cases earlier with
    | nil =>
      obtain ⟨rfl, rfl⟩ := List.cons.inj hblocks
      intro l hl
      rw [← hfits.successors] at hl
      obtain ⟨e, he, rfl⟩ := mem_map.1 hl
      rw [hrest.labels]
      exact hlater e he
    | cons => exact ih (List.cons.inj hblocks).2

theorem map (hf : ∀ b, (f b).label = b.label ∧ (f b).instructions = b.instructions) :
    Chain env returnType stations (blocks.map f) edges := by
  induction h with
  | nil => exact .nil
  | cons hfits harrivals hentry hlater _ ih => exact .cons (hfits.congr (hf _)) harrivals hentry hlater ih

end Chain

/-! ### Graphs -/

/-- The blocks of a procedure: a first one, and a chain of others. Its edges are the arrivals of its stations. -/
structure Graph (env : Setting) (returnType : Ty) (start : Station) (stations : List Station) (first : Block)
    (blocks : List Block) (edges others : List Edge) : Prop where
  first : start.Fits env returnType first edges
  nowhere : start.arrivals = []
  later : ∀ e ∈ edges, e.2 ∈ stations.map Station.label
  chain : Chain env returnType stations blocks others
  arrives : ∀ e, e ∈ edges ++ others ↔ e ∈ arrivalEdges stations
  nodup : ((start :: stations).map Station.label).Nodup
  apart : ∀ s ∈ stations, (s.arrivals.map Point.label).Nodup

namespace Graph

variable {start : Station} {stations : List Station} {first : Block} {blocks : List Block} {edges others : List Edge}
  {b : Block} {s : Station} (h : Graph env returnType start stations first blocks edges others)
include h

theorem labels : (first :: blocks).map Block.label = (start :: stations).map Station.label := by
  rw [map_cons, map_cons, h.chain.labels, h.first.1]

theorem map (hf : ∀ b, (f b).label = b.label ∧ (f b).instructions = b.instructions) :
    Graph env returnType start stations (f first) (blocks.map f) edges others :=
  ⟨h.first.congr (hf first), h.nowhere, h.later, h.chain.map hf, h.arrives, h.nodup, h.apart⟩

theorem station (hb : b ∈ first :: blocks) :
    ∃ s ∈ start :: stations, ∃ out, s.Fits env returnType b out ∧ ∀ e ∈ out, e ∈ edges ++ others := by
  obtain rfl | hb := mem_cons.1 hb
  · exact ⟨start, .head _, edges, h.first, fun e he => mem_append_left _ he⟩
  · obtain ⟨s, hs, out, hfits, hout⟩ := h.chain.station hb
    exact ⟨s, mem_cons_of_mem _ hs, out, hfits, fun e he => mem_append_right _ (hout e he)⟩

theorem origin (he : e ∈ edges ++ others) :
    ∃ b ∈ first :: blocks, ∃ s ∈ start :: stations, ∃ out, s.Fits env returnType b out ∧ e ∈ out := by
  obtain he | he := mem_append.1 he
  · exact ⟨first, .head _, start, .head _, edges, h.first, he⟩
  · obtain ⟨b, hb, s, hs, out, hfits, hout⟩ := h.chain.origin he
    exact ⟨b, mem_cons_of_mem _ hb, s, mem_cons_of_mem _ hs, out, hfits, hout⟩

theorem station_unique (hs : s ∈ start :: stations) (ht : t ∈ start :: stations) (hlabel : s.label = t.label) : s = t :=
  inj_on_of_nodup_map h.nodup hs ht hlabel

theorem block_unique (hb : b ∈ first :: blocks) (hc : c ∈ first :: blocks) (hlabel : b.label = c.label) : b = c :=
  inj_on_of_nodup_map (h.labels ▸ h.nodup) hb hc hlabel

theorem forward {earlier later} (hblocks : first :: blocks = earlier ++ b :: later) :
    ∀ l ∈ b.successors, l ∈ later.map Block.label := by
  cases earlier with
  | nil =>
    obtain ⟨rfl, rfl⟩ := List.cons.inj hblocks
    intro l hl
    rw [← h.first.successors] at hl
    obtain ⟨e, he, rfl⟩ := mem_map.1 hl
    rw [h.chain.labels]
    exact h.later e he
  | cons => exact h.chain.later (List.cons.inj hblocks).2

theorem mem_arrivals (hs : s ∈ start :: stations) : a ∈ s.arrivals ↔ (a, s.label) ∈ edges ++ others := by
  rw [h.arrives, mem_arrivalEdges]
  constructor
  · grind [h.nowhere]
  · rintro ⟨t, ht, ha, hlabel⟩
    rwa [h.station_unique hs (.tail _ ht) hlabel]

theorem entry_arrivals (hs : s ∈ start :: stations) : ∀ a ∈ s.arrivals, s.entry ⊆ a.known := by
  obtain rfl | hs := mem_cons.1 hs
  · simp [h.nowhere]
  · exact (h.chain.arrivals hs).2

variable {p : Procedure}

/-- **What a station relies on can be used on every way to it.** -/
theorem entry_held (hp : p.blocks = first :: blocks) (hstart : start.entry ⊆ p.arriving) (hreach : p.Reaches passed b)
    (hs : s ∈ start :: stations) (hlabel : b.label = s.label) : s.entry ⊆ p.held passed [] := by
  induction hreach generalizing s with
  | entry hentry =>
    obtain ⟨rfl, rfl⟩ := List.cons.inj (hp.symm.trans hentry)
    have : s = start := h.station_unique hs (.head _) (hlabel.symm.trans h.first.1)
    exact fun x hx => Typing.subset_past _ _ (hstart (this ▸ hx))
  | @step passed b next hreach hnext hedge ih =>
    obtain ⟨t, ht, out, hfits, hout⟩ := h.station (hp ▸ hreach.mem)
    rw [← hfits.successors] at hedge
    obtain ⟨e, he, hnext⟩ := mem_map.1 hedge
    have harrives : e.1 ∈ s.arrivals := (h.mem_arrivals hs).2 (by
      rw [← hlabel, ← hnext]
      exact hout e he)
    have hentry := h.entry_arrivals hs e.1 harrives
    rw [Procedure.held_append]
    exact List.Subset.trans hentry (hfits.known_end (ih ht hfits.1) he)

theorem exists_predecessor (hb : b ∈ blocks) : ∃ q ∈ first :: blocks, b.label ∈ q.successors := by
  obtain ⟨s, hs, out, hfits, -⟩ := h.chain.station hb
  obtain ⟨a, ha⟩ := exists_mem_of_ne_nil _ (h.chain.arrivals hs).1
  obtain ⟨q, hq, t, -, out', hfits', he⟩ := h.origin ((h.mem_arrivals (.tail _ hs)).1 ha)
  grind [hfits'.successors, hfits.1]

/-- A block that leads to another comes before it. -/
theorem before {earlier later q} (hblocks : blocks = earlier ++ b :: later) (hq : q ∈ first :: blocks)
    (hedge : b.label ∈ q.successors) : q ∈ first :: earlier := by
  subst hblocks
  rw [← cons_append, mem_append] at hq
  refine hq.resolve_right fun hq => ?_
  -- Otherwise `b` would come again behind `q`.
  have hnodup : ((b :: later).map Block.label).Nodup := by
    have := h.labels ▸ h.nodup
    rw [← cons_append, map_append] at this
    exact (nodup_append.1 this).2.1
  obtain ⟨between, rest, hsplit⟩ := append_of_mem hq
  have hblocks : first :: (earlier ++ b :: later) = (first :: earlier ++ between) ++ q :: rest := by
    simp_all
  have hforward := h.forward hblocks _ hedge
  have hrest : rest ⊆ later := by
    cases between with
    | nil => simp_all
    | cons _ between =>
      simp [(List.cons.inj hsplit).2]
  exact (nodup_cons.1 hnodup).1 (map_subset _ hrest hforward)

/-- Every block can be reached: the blocks that lead to it come before it. -/
theorem reached (hp : p.blocks = first :: blocks) (hb : b ∈ p.blocks) : ∃ passed, p.Reaches passed b := by
  suffices hprefix : ∀ earlier later, p.blocks = earlier ++ later → ∀ b ∈ earlier, ∃ passed, p.Reaches passed b from
    hprefix p.blocks [] (append_nil _).symm b hb
  intro earlier
  induction earlier using List.reverseRecOn with
  | nil => simp
  | append_singleton earlier b ih =>
    intro later hblocks
    rw [append_assoc] at hblocks
    have hearlier := ih (b :: later) hblocks
    refine forall_mem_append.2 ⟨hearlier, ?_⟩
    simp only [mem_singleton, forall_eq]
    rcases earlier with _ | ⟨first', earlier⟩
    · exact ⟨[], .entry hblocks⟩
    obtain ⟨rfl, htail⟩ := List.cons.inj (hp.symm.trans hblocks)
    have hmem : b ∈ blocks := by simp [htail]
    obtain ⟨q, hq, hedge⟩ := h.exists_predecessor hmem
    obtain ⟨passed, hreach⟩ := hearlier q (h.before htail hq hedge)
    exact ⟨_, hreach.step (hp ▸ mem_cons_of_mem _ hmem) hedge⟩

/-- The sources of a phi are its block's predecessors, with values that are known at their ends. -/
theorem phi (hp : p.blocks = first :: blocks) (hstart : start.entry ⊆ p.arriving) (hb : b ∈ p.blocks)
    {ty : Ty} (hphi : .set destination (.phi ty sources) ∈ b.instructions) :
    (ty.IsScalar ∧ sources ≠ []) ∧ (sources.map Prod.fst).Nodup ∧
      (∀ l, l ∈ sources.map Prod.fst ↔ ∃ q ∈ p.blocks, q.label = l ∧ b.label ∈ q.successors) ∧
        ∀ source ∈ sources, ∀ passed q, p.Reaches passed q → q.label = source.1 →
          source.2.Fits (p.held passed q.instructions) ty := by
  obtain ⟨s, hs, out, hfits, hout⟩ := h.station (hp ▸ hb)
  obtain ⟨phis, rest, hcode, hphis, hrest⟩ := hfits.split
  have hmem : .set destination (.phi ty sources) ∈ phis := by
    rw [hcode] at hphi
    refine (mem_append.1 hphi).resolve_right fun hphi => ?_
    obtain ⟨before, after, hsplit⟩ := append_of_mem hphi
    cases (hrest before _ after hsplit).isPhi
  obtain ⟨_, _, _, heq, hsrcs, hscalar⟩ := hphis _ hmem
  cases heq
  have hlabels := hsrcs.labels
  refine ⟨hscalar, ?_, fun l => ?_, fun source hsrc passed q hreach hq => ?_⟩
  · rw [hlabels]
    obtain rfl | hs := mem_cons.1 hs
    · simp [h.nowhere]
    · exact h.apart s hs
  · rw [hlabels, mem_map, hp]
    constructor
    · rintro ⟨a, ha, rfl⟩
      obtain ⟨q, hq, t, -, out', hfits', he⟩ := h.origin ((h.mem_arrivals hs).1 ha)
      refine ⟨q, hq, (hfits'.edge he).1.symm, ?_⟩
      grind [hfits'.successors, hfits.1]
    rintro ⟨q, hq, rfl, hedge⟩
    obtain ⟨t, -, out', hfits', hout'⟩ := h.station hq
    rw [← hfits'.successors] at hedge
    obtain ⟨e, he, hlabel⟩ := mem_map.1 hedge
    refine ⟨e.1, (h.mem_arrivals hs).2 ?_, (hfits'.edge he).1⟩
    rw [← hfits.1, ← hlabel]
    exact hout' e he
  obtain ⟨a, ha, hlabel, hvalue⟩ := exists_right hsrcs hsrc
  obtain ⟨q', hq', t, ht, out', hfits', he⟩ := h.origin ((h.mem_arrivals hs).1 ha)
  have hsame : q = q' := by
    refine h.block_unique (hp ▸ hreach.mem) hq' ?_
    rw [hq, hlabel, ← (hfits'.edge he).1]
  subst hsame
  exact hvalue.mono (hfits'.known_end (h.entry_held hp hstart hreach ht hfits'.1) he)

/-- Every other instruction can be run where it stands. -/
theorem placed (hp : p.blocks = first :: blocks) (hstart : start.entry ⊆ p.arriving) (hreach : p.Reaches passed b)
    {before after : Code} (hi : b.instructions = before ++ i :: after) (hphi : i.isPhi = false) :
    Placed env returnType (p.held passed before) before i := by
  obtain ⟨s, hs, out, hfits, -⟩ := h.station (hp ▸ hreach.mem)
  have hentry := h.entry_held hp hstart hreach hs hfits.1
  obtain ⟨phis, rest, hcode, hphis, hrest⟩ := hfits.split
  rw [hi] at hcode
  have hafter : ∃ more, before = phis ++ more ∧ rest = more ++ i :: after := by
    obtain ⟨more, rfl, hmore⟩ | ⟨more, rfl, hmore⟩ := append_eq_append_iff.1 hcode
    · cases more with
      | nil => exact ⟨[], by simp, by simpa using hmore.symm⟩
      | cons j more =>
        obtain ⟨rfl, -⟩ := List.cons.inj hmore
        have := (hphis i (by simp)).isPhi
        simp_all
    · exact ⟨more, rfl, hmore⟩
  obtain ⟨more, rfl, hsplit⟩ := hafter
  refine (hrest more i after hsplit).mono (fun x hx => ?_) []
  obtain hx | hx := Typing.mem_past.1 hx
  · exact Typing.mem_past.2 (.inl (by simp_all))
  · exact Procedure.held_mono (hentry hx)

end Graph

end Lowering.IR
