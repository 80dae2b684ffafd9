import Lowering.Proofs.IR.Renaming
/-!
# Structured code, cut into blocks

`Finished` says of the rest of a block that it is straight code and a terminator, and which edges leave it. `Chain` says
of blocks in a row that each belongs to a station: it starts with the phis for the station's arrivals, goes on from what
can be relied on there, and all its edges lead to later blocks. Structured code is such a chain, whatever comes behind
it (`Laid.chain`), and its edges are exactly the arrivals of its stations.
-/

namespace Lowering.IR

open List

/-! ### Blocks in a row -/

/-- The code of blocks, one after another. -/
def unparse (blocks : List Block) : Code := blocks.flatMap fun b => .label b.label :: b.instructions

@[simp] theorem unparse_nil : unparse [] = [] := rfl

@[simp] theorem unparse_cons (b : Block) (rest : List Block) :
    unparse (b :: rest) = .label b.label :: b.instructions ++ unparse rest := rfl

/-- A way from a point at the end of a block to the label of another. -/
abbrev Edge := Point × Local

/-- The ways into stations. -/
def arrivalEdges (stations : List Station) : List Edge := stations.flatMap fun s => s.arrivals.map (·, s.label)

variable {stations : List Station} {Γ : Typing} {i : Instruction} {p : Point} {code rest : Code}
  {edges others : List Edge} {arrivals : List Point} {join label : Local} {exit : Option Point} {blocks : List Block}

theorem mem_arrivalEdges : e ∈ arrivalEdges stations ↔ ∃ s ∈ stations, e.1 ∈ s.arrivals ∧ e.2 = s.label := by
  simp only [arrivalEdges, mem_flatMap, mem_map]
  grind

@[simp] theorem arrivalEdges_append (stations others : List Station) :
    arrivalEdges (stations ++ others) = arrivalEdges stations ++ arrivalEdges others := flatMap_append

@[simp] theorem arrivalEdges_cons (s : Station) (rest : List Station) :
    arrivalEdges (s :: rest) = s.arrivals.map (·, s.label) ++ arrivalEdges rest := rfl

theorem ReturnTyped.mono (h : ReturnTyped Γ returnType value) (hsub : Γ ⊆ Δ) :
    ReturnTyped Δ returnType value := by
  cases value with
  | none => exact h
  | some => exact ⟨h.1.mono hsub, h.2⟩

/-- The last instruction of a block, where `Γ` is known. -/
def TerminatorTyped (Γ : Typing) (returnType : Ty) : Instruction → Prop
  | .branch condition _ _ => ConditionTyped Γ condition
  | .jump _ => True
  | .ret value => ReturnTyped Γ returnType value
  | _ => False

theorem TerminatorTyped.mono (h : TerminatorTyped Γ returnType i) (hsub : Γ ⊆ Δ) :
    TerminatorTyped Δ returnType i := by
  cases i with
  | branch => exact ⟨h.1.mono hsub, h.2⟩
  | jump => trivial
  | ret => exact ReturnTyped.mono h hsub
  | label | set | store | call => exact h

/-- The rest of a block from a point on: straight code and a terminator. The edges say no more than what is known at
the end. -/
def Finished (env : Setting) (returnType : Ty) (p : Point) (code : Code) (edges : List Edge) : Prop :=
  ∃ body terminator known, code = body ++ [terminator] ∧ Straight env p.known body ∧
    TerminatorTyped (p.known.past body) returnType terminator ∧ known ⊆ p.known.past body ∧
      edges = terminator.successors.map (⟨p.label, known⟩, ·)

variable {env : Setting} {returnType : Ty}

theorem Finished.straight (hcode : Straight env p.known code)
    (h : Finished env returnType ⟨p.label, p.known.past code⟩ rest edges) :
    Finished env returnType p (code ++ rest) edges := by
  obtain ⟨body, terminator, known, rfl, hbody, hterm, hknown, hedges⟩ := h
  have hsub : (p.known.past code).past body ⊆ p.known.past (code ++ body) := fun x hx => Typing.mem_past_append.2 hx
  exact ⟨code ++ body, terminator, known, (append_assoc ..).symm, hcode.append hbody, hterm.mono hsub,
    List.Subset.trans hknown hsub, hedges⟩

theorem Finished.terminator (h : TerminatorTyped p.known returnType i) :
    Finished env returnType p [i] (i.successors.map (p, ·)) :=
  ⟨[], i, p.known, rfl, .nil _, h, List.Subset.refl _, rfl⟩

/-- The block of a station: phis for its arrivals, and then the rest of it. -/
def Station.Fits (env : Setting) (returnType : Ty) (s : Station) (b : Block) (edges : List Edge) : Prop :=
  b.label = s.label ∧ ∃ phis rest, b.instructions = phis ++ rest ∧ (∀ i ∈ phis, PhiFits s.arrivals i) ∧
    Finished env returnType ⟨s.label, s.entry.past phis⟩ rest edges

/-- Blocks in a row, each for a station that control arrives at, with the edges that leave them. They all lead to later
blocks. -/
inductive Chain (env : Setting) (returnType : Ty) : List Station → List Block → List Edge → Prop where
  | nil : Chain env returnType [] [] []
  | cons {s : Station} {b : Block} {edges others : List Edge} {stations : List Station} {blocks : List Block}
      (hfits : s.Fits env returnType b edges) (harrivals : s.arrivals ≠ [])
      (hentry : ∀ a ∈ s.arrivals, s.entry ⊆ a.known)
      (hlater : ∀ e ∈ edges, e.2 ∈ stations.map Station.label)
      (h : Chain env returnType stations blocks others) :
      Chain env returnType (s :: stations) (b :: blocks) (edges ++ others)

/-- What comes behind code: the rest of the block that control comes out in, and further blocks. If control does not
come out there is no rest. -/
structure Continuation (env : Setting) (returnType : Ty) (exit : Option Point) (rest : Code) (blocks : List Block)
    (stations : List Station) (edges others : List Edge) : Prop where
  left : exit = none → rest = [] ∧ edges = []
  finished : ∀ q, exit = some q → Finished env returnType q rest edges
  later : ∀ e ∈ edges, e.2 ∈ stations.map Station.label
  blocks : Chain env returnType stations blocks others

/-- The blocks of the place where branches meet, and of what comes behind it. -/
theorem Meets.chain (h : Meets arrivals join code exit stations)
    (hk : Continuation env returnType exit rest blocks more edges others) :
    ∃ blocks' others', code ++ rest ++ unparse blocks = unparse blocks' ∧
      Chain env returnType (stations ++ more) blocks' others' ∧ ∀ e, e ∈ others' ↔ e ∈ edges ++ others := by
  rcases h with _ | ⟨entry, phis, hsome, hentry, hphis⟩
  · obtain ⟨rfl, rfl⟩ := hk.left rfl
    exact ⟨blocks, others, rfl, hk.blocks, fun _ => Iff.rfl⟩
  exact ⟨⟨join, phis ++ rest, []⟩ :: blocks, edges ++ others, rfl,
    .cons ⟨rfl, phis, rest, rfl, hphis, hk.finished _ rfl⟩ hsome hentry hk.later hk.blocks, fun _ => Iff.rfl⟩

theorem Meets.arrivalEdges_eq (h : Meets arrivals join code exit stations) :
    arrivalEdges stations = arrivals.map (·, join) := by
  cases h with
  | nowhere hnone =>
    rw [hnone]
    rfl
  | somewhere => exact append_nil _

theorem Meets.label_mem (h : Meets arrivals join code exit stations) (hsome : arrivals ≠ []) :
    join ∈ stations.map Station.label := by
  cases h with
  | nowhere hnone => exact absurd hnone hsome
  | somewhere => exact .head _

theorem Continuation.closing (hjoin : ∀ q, exit = some q → join ∈ stations.map Station.label)
    (h : Chain env returnType stations blocks others) :
    Continuation env returnType exit (closing join exit) blocks stations (exit.toList.map (·, join)) others where
  left hexit := by
    rw [hexit]
    exact ⟨rfl, rfl⟩
  finished q hexit := by
    rw [hexit]
    exact Finished.terminator (i := .jump join) trivial
  later e he := by
    grind
  blocks := h

theorem Continuation.start {start entry} (hentry : entry ⊆ p.known)
    (h : Continuation env returnType (some ⟨start, entry⟩) rest blocks stations edges others) :
    Chain env returnType (⟨start, entry, [p]⟩ :: stations) (⟨start, rest, []⟩ :: blocks) (edges ++ others) :=
  .cons ⟨rfl, [], rest, rfl, by simp, h.finished _ rfl⟩ (cons_ne_nil _ _) (by simpa using hentry) h.later h.blocks

/-- **Structured code is a chain of blocks**, with whatever comes behind it, and its edges are the arrivals of its
stations. -/
theorem Laid.chain (h : Laid env returnType p code exit stations) :
    ∀ {rest blocks more edges others}, Continuation env returnType exit rest blocks more edges others →
    ∃ rest' blocks' edges' others', code ++ rest ++ unparse blocks = rest' ++ unparse blocks' ∧
      Continuation env returnType (some p) rest' blocks' (stations ++ more) edges' others' ∧
        ∀ e, e ∈ edges' ++ others' ↔ e ∈ arrivalEdges stations ++ (edges ++ others) := by
  induction h with
  | @straight p code h =>
    intro rest blocks more edges others hk
    refine ⟨code ++ rest, blocks, edges, others, rfl, ⟨by simp, ?_, hk.later, hk.blocks⟩, fun _ => Iff.rfl⟩
    rintro _ ⟨⟩
    exact .straight h (hk.finished _ rfl)
  | @ret p value h =>
    intro rest blocks more edges others hk
    obtain ⟨rfl, rfl⟩ := hk.left rfl
    refine ⟨[.ret value], blocks, [], others, rfl, ⟨by simp, ?_, by simp, hk.blocks⟩, fun _ => Iff.rfl⟩
    rintro _ ⟨⟩
    exact Finished.terminator (i := .ret value) h
  | seq _ _ ih ihmore =>
    intro rest blocks more edges others hk
    obtain ⟨rest1, blocks1, edges1, others1, hcode1, hk1, hedges1⟩ := ihmore hk
    obtain ⟨rest2, blocks2, edges2, others2, hcode2, hk2, hedges2⟩ := ih hk1
    refine ⟨rest2, blocks2, edges2, others2, ?_, ?_, fun e => ?_⟩
    · rw [← hcode2, append_assoc, append_assoc, append_assoc, ← hcode1, append_assoc]
    · rw [append_assoc]
      exact hk2
    simp only [mem_append, arrivalEdges_append] at hedges1 hedges2 ⊢
    rw [hedges2, hedges1]
    exact iff_of_eq (by ac_rfl)
  | @one p condition start join entry body meeting exit out stations met hcond hentry _ hmeets ih =>
    intro rest blocks more edges others hk
    obtain ⟨blocks1, others1, hcode1, hchain1, hedges1⟩ := hmeets.chain hk
    have hjoin : join ∈ (met ++ more).map Station.label := by
      rw [map_append]
      exact mem_append_left _ (hmeets.label_mem (cons_ne_nil _ _))
    obtain ⟨rest2, blocks2, edges2, others2, hcode2, hk2, hedges2⟩ := ih (.closing (fun _ _ => hjoin) hchain1)
    refine ⟨[.branch condition start join], ⟨start, rest2, []⟩ :: blocks2, [(p, start), (p, join)], edges2 ++ others2,
      ?_, ⟨by simp, ?_, ?_, ?_⟩, fun e => ?_⟩
    · simp [← hcode2, ← hcode1]
    · rintro _ ⟨⟩
      exact Finished.terminator (i := .branch condition start join) hcond
    · simp_all
    · simpa only [cons_append, append_assoc] using hk2.start hentry
    · simp only [mem_append, arrivalEdges_cons, arrivalEdges_append, hmeets.arrivalEdges_eq, hedges1, map_cons,
        mem_cons, map_nil, not_mem_nil, or_false] at hedges2 ⊢
      grind
  | @two p condition start start' join entry entry' body body' meeting exit exit' out stations stations' met hcond
      hentry hentry' _ _ hmeets ih ih' =>
    intro rest blocks more edges others hk
    obtain ⟨blocks1, others1, hcode1, hchain1, hedges1⟩ := hmeets.chain hk
    have hjoin : exit.toList ++ exit'.toList ≠ [] → join ∈ (met ++ more).map Station.label := by
      intro hsome
      rw [map_append]
      exact mem_append_left _ (hmeets.label_mem hsome)
    obtain ⟨rest2, blocks2, edges2, others2, hcode2, hk2, hedges2⟩ :=
      ih' (.closing (fun q hq => hjoin (by simp [hq])) hchain1)
    have hchain2 := hk2.start hentry'
    obtain ⟨rest3, blocks3, edges3, others3, hcode3, hk3, hedges3⟩ :=
      ih (.closing (fun q hq => mem_cons_of_mem _ (by
        rw [map_append]
        exact mem_append_right _ (hjoin (by simp [hq])))) hchain2)
    refine ⟨[.branch condition start start'], ⟨start, rest3, []⟩ :: blocks3, [(p, start), (p, start')],
      edges3 ++ others3, ?_, ⟨by simp, ?_, ?_, ?_⟩, fun e => ?_⟩
    · simp only [unparse_cons, cons_append, append_assoc, nil_append] at hcode1 hcode2 hcode3 ⊢
      rw [← hcode3, ← hcode2, ← hcode1]
    · rintro _ ⟨⟩
      exact Finished.terminator (i := .branch condition start start') hcond
    · simp
    · simpa only [cons_append, append_assoc] using hk3.start hentry
    · simp only [mem_append, arrivalEdges_cons, arrivalEdges_append, hmeets.arrivalEdges_eq, hedges1, map_cons,
        map_append, mem_cons, map_nil, not_mem_nil, or_false] at hedges2 hedges3 ⊢
      rw [hedges3, hedges2]
      exact iff_of_eq (by ac_rfl)

/-! ### Labels -/

theorem Meets.labels_sublist (h : Meets arrivals join code exit stations) :
    (stations.map Station.label).Sublist (definitions code) := by
  cases h with
  | nowhere => exact .slnil
  | somewhere => simp

theorem Laid.labels_sublist (h : Laid env returnType p code exit stations) :
    (stations.map Station.label).Sublist (definitions code) := by
  induction h with
  | straight | ret => exact nil_sublist _
  | seq _ _ ih ihmore =>
    rw [map_append, definitions_append]
    exact ih.append ihmore
  | one _ _ _ hmeets ih =>
    simp only [map_append, map_cons, definitions_append, definitions_branch, definitions_label,
      definitions_closing, append_nil, cons_append]
    exact (ih.append hmeets.labels_sublist).cons_cons _
  | two _ _ _ _ _ hmeets ih ih' =>
    simp only [map_append, map_cons, definitions_append, definitions_branch, definitions_label,
      definitions_closing, cons_append, append_assoc]
    exact (ih.append ((ih'.append hmeets.labels_sublist).cons_cons _)).cons_cons _

theorem Meets.exit_label (h : Meets arrivals join code exit stations) :
    ∀ q ∈ exit, q.label ∈ stations.map Station.label := by
  cases h with
  | nowhere => simp
  | somewhere =>
    simp

theorem Laid.exit_label (h : Laid env returnType p code exit stations) :
    ∀ q ∈ exit, q.label ∈ p.label :: stations.map Station.label := by
  induction h with
  | straight p =>
    simp
  | ret => simp
  | seq _ _ ih ihmore =>
    grind
  | one _ _ _ hmeets =>
    intro q hq
    have hq := hmeets.exit_label q hq
    simp [*]
  | two _ _ _ _ _ hmeets =>
    intro q hq
    have hq := hmeets.exit_label q hq
    simp only [map_append, map_cons, mem_cons, mem_append]
    tauto

theorem Meets.arrivals_nodup (h : Meets arrivals join code exit stations) (hnodup : (arrivals.map Point.label).Nodup) :
    ∀ s ∈ stations, (s.arrivals.map Point.label).Nodup := by
  cases h with
  | nowhere => simp
  | somewhere => simpa using hnodup

theorem nodup_toList (exit : Option Point) : (exit.toList.map Point.label).Nodup := by
  cases exit <;> simp

theorem Laid.arrivals_nodup (h : Laid env returnType p code exit stations)
    (hnodup : (p.label :: stations.map Station.label).Nodup) : ∀ s ∈ stations, (s.arrivals.map Point.label).Nodup := by
  induction h with
  | straight | ret => simp
  | seq h _ ih ihmore =>
    rw [map_append, ← cons_append] at hnodup
    obtain ⟨hfirst, hothers, hapart⟩ := nodup_append.1 hnodup
    have hq := h.exit_label _ rfl
    refine forall_mem_append.2 ⟨ih hfirst, ihmore (nodup_cons.2 ⟨fun hmem => ?_, hothers⟩)⟩
    exact hapart _ hq _ hmem rfl
  | one _ _ hbody hmeets ih =>
    simp only [map_append, map_cons, ← cons_append] at hnodup
    obtain ⟨hp, hnodup⟩ := nodup_cons.1 hnodup
    obtain ⟨hbranch, -, -⟩ := nodup_append.1 hnodup
    have hexit := hbody.exit_label
    refine forall_mem_append.2 ⟨forall_mem_cons.2 ⟨by simp, ih hbranch⟩, hmeets.arrivals_nodup ?_⟩
    refine nodup_cons.2 ⟨fun hmem => ?_, nodup_toList _⟩
    obtain ⟨q, hq, hlabel⟩ := mem_map.1 hmem
    exact hp (mem_append_left _ (hlabel ▸ hexit q (by simpa using hq)))
  | two _ _ _ hbody hbody' hmeets ih ih' =>
    simp only [map_append, map_cons, ← cons_append] at hnodup
    obtain ⟨-, hnodup⟩ := nodup_cons.1 hnodup
    obtain ⟨hbranch, hnodup, hapart⟩ := nodup_append.1 hnodup
    obtain ⟨hbranch', -, -⟩ := nodup_append.1 hnodup
    have hexit := hbody.exit_label
    have hexit' := hbody'.exit_label
    refine forall_mem_append.2 ⟨forall_mem_cons.2 ⟨by simp, ih hbranch⟩, forall_mem_append.2
      ⟨forall_mem_cons.2 ⟨by simp, ih' hbranch'⟩, hmeets.arrivals_nodup ?_⟩⟩
    rw [map_append]
    refine nodup_append.2 ⟨nodup_toList _, nodup_toList _, fun a ha b hb => ?_⟩
    obtain ⟨q, hq, rfl⟩ := mem_map.1 ha
    obtain ⟨r, hr, rfl⟩ := mem_map.1 hb
    exact hapart _ (hexit q (by simpa using hq)) _ (mem_append_left _ (hexit' r (by simpa using hr)))

/-! ### Cutting -/

/-- An instruction inside a block: neither a label nor a terminator. -/
def Instruction.Plain (i : Instruction) : Prop := i.isTerminator = false ∧ ∀ id, i ≠ .label id

/-- The instructions of a block: exactly the last one is a terminator, and there are no labels. -/
def Closed (code : Code) : Prop :=
  ∃ body terminator, code = body ++ [terminator] ∧ terminator.isTerminator = true ∧ ∀ i ∈ body, i.Plain

theorem Instruction.Simple.plain (h : i.Simple env Γ) : i.Plain := by
  cases i with
  | set | store | call => exact ⟨rfl, by simp⟩
  | label | branch | jump | ret => exact h.elim

theorem Straight.plain (h : Straight env Γ code) : ∀ i ∈ code, i.Plain := by
  induction h with
  | nil => simp
  | cons hi _ ih => exact forall_mem_cons.2 ⟨hi.plain, ih⟩
  | copy _ _ ih => simpa [copyStart, copyCall, Instruction.Plain, Instruction.isTerminator] using ih

theorem PhiFits.plain (h : PhiFits arrivals i) : i.Plain := by
  obtain ⟨destination, ty, sources, rfl, -⟩ := h
  exact ⟨rfl, by simp⟩

theorem TerminatorTyped.isTerminator (h : TerminatorTyped Γ returnType i) : i.isTerminator = true := by
  cases i with
  | branch | jump | ret => rfl
  | label | set | store | call => exact h.elim

theorem Station.Fits.closed {s : Station} (h : s.Fits env returnType b edges) : Closed b.instructions := by
  obtain ⟨-, phis, rest, hcode, hphis, body, terminator, known, rfl, hbody, hterm, -, -⟩ := h
  refine ⟨phis ++ body, terminator, by rw [hcode, append_assoc], hterm.isTerminator, ?_⟩
  exact forall_mem_append.2 ⟨fun i hi => (hphis i hi).plain, hbody.plain⟩

/-- Cutting code whose locals have their numbers already. -/
def cut : Cut → Code → Except Malformation (List Block)
  | c, [] => if c.ended then .ok c.blocks.reverse else .error (.unterminatedBlock c.lastLabel)
  | c, i :: rest => do
    let c ← c.push i
    cut c rest

theorem cutBlocks_eq (h : numbering.Renumbers code) (c : Cut) :
    cutBlocks numbering c code = cut c (code.rename numbering.place) := by
  induction code generalizing c with
  | nil => rfl
  | cons i rest ih =>
    obtain ⟨hi, hrest⟩ := forall_mem_cons.1 h
    rw [cutBlocks, hi, Code.rename_cons, cut]
    cases hpush : c.push (i.rename numbering.place) with
    | error => simp [hpush, bind, Except.bind]
    | ok c' => simpa [hpush, bind, Except.bind] using ih hrest c'

theorem Cut.push_open (hi : ∀ id, i ≠ .label id) :
    Cut.push ⟨⟨label, code, []⟩ :: blocks, false⟩ i = .ok ⟨⟨label, code ++ [i], []⟩ :: blocks, i.isTerminator⟩ := by
  cases i with
  | label id => exact absurd rfl (hi id)
  | _ => rfl

theorem cut_plain (h : ∀ i ∈ body, i.Plain) (code : Code) (blocks : List Block) (more : Code) :
    cut ⟨⟨label, code, []⟩ :: blocks, false⟩ (body ++ more) =
      cut ⟨⟨label, code ++ body, []⟩ :: blocks, false⟩ more := by
  induction body generalizing code with
  | nil => simp
  | cons i rest ih =>
    obtain ⟨hi, hrest⟩ := forall_mem_cons.1 h
    rw [cons_append, cut, Cut.push_open hi.2, hi.1]
    refine (ih hrest (code ++ [i])).trans ?_
    simp

theorem cut_closed (h : Closed instructions) (blocks : List Block) (more : Code) :
    cut ⟨blocks, true⟩ (.label label :: instructions ++ more) =
      cut ⟨⟨label, instructions, []⟩ :: blocks, true⟩ more := by
  obtain ⟨body, terminator, rfl, hterm, hbody⟩ := h
  have hlabel : ∀ id, terminator ≠ .label id := by
    rintro id rfl
    cases hterm
  show cut ⟨⟨label, [], []⟩ :: blocks, false⟩ (body ++ [terminator] ++ more) = _
  rw [append_assoc, cut_plain hbody, singleton_append, cut, Cut.push_open hlabel, hterm]
  rfl

theorem cut_unparse (h : ∀ b ∈ blocks, Closed b.instructions) (done : List Block) :
    cut ⟨done, true⟩ (unparse blocks) = .ok (done.reverse ++ blocks.map fun b => { b with predecessors := [] }) := by
  induction blocks generalizing done with
  | nil => simp [cut]
  | cons b rest ih =>
    obtain ⟨hb, hrest⟩ := forall_mem_cons.1 h
    rw [unparse_cons, cut_closed hb, ih hrest]
    simp

/-! ### Connecting -/

def Block.connected (blocks : List Block) (b : Block) : Block :=
  { b with predecessors := (blocks.filter fun p => p.successors.contains b.label).map Block.label }

theorem Block.mem_predecessors_connected (hb : b ∈ blocks.map (Block.connected blocks)) :
    l ∈ b.predecessors ↔
      ∃ q ∈ blocks.map (Block.connected blocks), q.label = l ∧ b.label ∈ q.successors := by
  obtain ⟨c, -, rfl⟩ := mem_map.1 hb
  simp only [Block.connected, mem_map, mem_filter, contains_iff_mem]
  constructor
  · rintro ⟨q, ⟨hq, hedge⟩, rfl⟩
    exact ⟨_, ⟨q, hq, rfl⟩, rfl, hedge⟩
  · rintro ⟨_, ⟨q, hq, rfl⟩, rfl, hedge⟩
    exact ⟨q, ⟨hq, hedge⟩, rfl⟩

theorem connect_eq (h : ∀ b ∈ blocks, ∀ l ∈ b.successors, l ∈ blocks.map Block.label) :
    connect blocks = .ok (blocks.map (Block.connected blocks)) := by
  have hnone : (blocks.flatMap Block.successors).find? (fun id => blocks.all fun b => b.label != id) = none := by
    grind
  rw [connect, hnone]
  rfl

end Lowering.IR
