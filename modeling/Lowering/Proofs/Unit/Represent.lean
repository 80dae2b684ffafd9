import Lowering.Proofs.Types.Stability
import Lowering.Proofs.Unit.Overloads
/-!
# Names in code differ

The name in code of a structure is made of parts with dots between them: the name it was declared by, the number of the
unit, and for an instance how many its template had before it. The parts can be read off the name if no declared name
has a dot (`dotted_injective`), and they lead back to the place of the structure (`Catalog.Labels.place_eq`).
-/

namespace Lowering

open List

/-- Parts of a name, with a dot in front of each. -/
def dotted (parts : List String) : List Char := parts.flatMap fun part => '.' :: part.toList

theorem eq_nil_of_dotted (h : dotted parts = front ++ rest) (hfront : '.' ∉ front) : front = [] := by
  cases parts <;> cases front <;> simp_all [dotted]

/-- Parts without dots can be told apart. -/
theorem dotted_injective (hps : ∀ p ∈ ps, '.' ∉ p.toList) (hqs : ∀ q ∈ qs, '.' ∉ q.toList)
    (h : dotted ps = dotted qs) : ps = qs := by
  induction ps generalizing qs with
  | nil => cases qs <;> simp_all [dotted]
  | cons p ps ih =>
    rcases qs with _ | ⟨q, qs⟩
    · simp [dotted] at h
    have hrest : p.toList ++ dotted ps = q.toList ++ dotted qs := by simpa [dotted] using h
    obtain ⟨hp, hps⟩ := forall_mem_cons.1 hps
    obtain ⟨hq, hqs⟩ := forall_mem_cons.1 hqs
    have hsame : p.toList = q.toList := by
      obtain ⟨more, hmore, hdots⟩ | ⟨more, hmore, hdots⟩ := append_eq_append_iff.1 hrest
      · rw [hmore] at hq
        rw [hmore, eq_nil_of_dotted hdots fun hdot => hq (mem_append_right _ hdot), append_nil]
      · rw [hmore] at hp
        rw [hmore, eq_nil_of_dotted hdots fun hdot => hp (mem_append_right _ hdot), append_nil]
    rw [hsame] at hrest
    rw [String.toList_injective hsame, ih hps hqs (append_cancel_left hrest)]

theorem Base36.numeral_injective (h : numeral n = numeral k) : n = k :=
  digits_injective (by simpa [numeral] using congrArg String.toList h)

theorem Base36.dot_notMem_numeral (n : Nat) : '.' ∉ (numeral n).toList := by
  rw [numeral, String.toList_ofList]
  exact dot_notMem_digitsAux _ n not_mem_nil

namespace Catalog

variable {c c' : Catalog} {place : Nat} {parts : List String}

/-- What the name in code of the structure at a place is made of. -/
inductive Labels (c : Catalog) (place : Nat) : List String → Prop where
  | external {name} : c.names.lookup name = some (.struct place) → Labels c place [name]
  | plain {name} : c.names.lookup name = some (.struct place) → Labels c place [name, Base36.numeral c.fileId]
  | ofTemplate {id k : Nat} {t arguments} : c.templates[id]? = some t → t.instances[k]? = some (arguments, place) →
    Labels c place [t.source.name.symbol, Base36.numeral c.fileId, Base36.numeral k]

theorem Labels.place_eq (hc : c.Orderly) {place' : Nat} (h : c.Labels place parts) (h' : c.Labels place' parts')
    (hparts : parts = parts') : place = place' := by
  cases h with
  | external hname | plain hname => cases h' <;> simp_all
  | @ofTemplate id k t arguments ht hk =>
    cases h' with
    | external | plain => simp at hparts
    | @ofTemplate id' k' t' arguments' ht' hk' =>
      simp only [List.cons.injEq] at hparts
      obtain ⟨hname, -, hnumeral, -⟩ := hparts
      cases Base36.numeral_injective hnumeral
      have hnamed := (hc.owned ht).named
      rw [hname, (hc.owned ht').named] at hnamed
      simp_all

theorem Labels.dotless (hc : c.Orderly) (hdots : ∀ name named, c.names.lookup name = some named → '.' ∉ name.toList)
    (h : c.Labels place parts) : ∀ part ∈ parts, '.' ∉ part.toList := by
  have hnumeral := Base36.dot_notMem_numeral
  cases h with
  | external hname => simp [hdots _ _ hname]
  | plain hname => simp [hdots _ _ hname, hnumeral]
  | ofTemplate ht => simp [hdots _ _ (hc.owned ht).named, hnumeral]

theorem Labels.mono (h : c.Labels place parts) (hfile : c'.fileId = c.fileId)
    (hnames : ∀ {name named}, c.names.lookup name = some named → c'.names.lookup name = some named)
    (htemplates : ∀ {id : Nat} {t}, c.templates[id]? = some t →
      ∃ t', c'.templates[id]? = some t' ∧ t'.source = t.source ∧ t.instances <+: t'.instances) : c'.Labels
        place parts := by
  cases h with
  | external hname => exact .external (hnames hname)
  | plain hname => exact hfile ▸ .plain (hnames hname)
  | @ofTemplate id k t arguments ht hk =>
    obtain ⟨t', ht', hsrc, rest, hrest⟩ := htemplates ht
    rw [← hfile, ← hsrc]
    have hk' : t'.instances[k]? = some (arguments, place) := by
      rw [← hrest, List.getElem?_append_left (List.getElem?_eq_some_iff.1 hk).1, hk]
    exact .ofTemplate ht' hk'

/-- Every structure has the name in code that belongs to its place. -/
def Labelled (c : Catalog) : Prop := ∀ {place s}, c.structure? place = some s →
  ∃ parts, c.Labels place parts ∧ s.ref.represent.toList = "struct".toList ++ dotted parts

namespace Labelled

theorem declare (hc : c.Labelled) (h : c.declare definition = .ok c') : c'.Labelled := by
  have hnew := (declare_inv h).1
  unfold Catalog.declare at h
  dsimp only at h
  split at h
  · cases h
  intro place s hs
  split at h
  · cases h
    obtain hs | ⟨rfl, rfl⟩ := getElem?_concat_cases hs
    · obtain ⟨parts, hlabels, hrepresent⟩ := hc hs
      exact ⟨parts, hlabels.mono rfl (lookup_cons_of_new hnew _) fun ht => ⟨_, ht, rfl, prefix_rfl⟩, hrepresent⟩
    dsimp only
    split
    · exact ⟨_, .external lookup_cons_self, by simp [dotted, toString]⟩
    · exact ⟨_, .plain lookup_cons_self, by simp [dotted, toString, addStructure]⟩
  cases h
  obtain ⟨parts, hlabels, hrepresent⟩ := hc hs
  refine ⟨parts, hlabels.mono rfl (lookup_cons_of_new hnew _) fun ht => ⟨_, ?_, rfl, prefix_rfl⟩, hrepresent⟩
  exact (List.getElem?_append_left (List.getElem?_eq_some_iff.1 ht).1).trans ht

theorem addInstance (hc : c.Labelled) {id : Nat} (ht : c.templates[id]? = some t) (arguments : List TypeRef) :
    (c.addInstance id t arguments).Labelled := by
  have htemplates := @addInstance_templates c id t ht arguments
  intro place s hs
  obtain hs | ⟨rfl, rfl⟩ := getElem?_concat_cases hs
  · obtain ⟨parts, hlabels, hrepresent⟩ := hc hs
    refine ⟨parts, hlabels.mono rfl (fun h => h) fun {other old} hold => ?_, hrepresent⟩
    by_cases hsame : other = id
    · cases hsame
      cases ht.symm.trans hold
      exact ⟨_, htemplates.2 (.inl ⟨rfl, rfl⟩), rfl, prefix_append ..⟩
    · exact ⟨old, htemplates.2 (.inr ⟨hsame, hold⟩), rfl, prefix_rfl⟩
  · refine ⟨_, .ofTemplate (htemplates.2 (.inl ⟨rfl, rfl⟩)) (List.getElem?_concat_length ..), ?_⟩
    simp [dotted, toString, Catalog.addInstance, addStructure]

theorem setStatus (hc : c.Labelled) (id : Nat) (status : Status) : (c.setStatus id status).Labelled := by
  intro place s hs
  obtain ⟨s0, hs0, hs⟩ := structure?_setStatus_inv hs
  obtain ⟨parts, hlabels, hrepresent⟩ := hc hs0
  rw [hs]
  exact ⟨parts, hlabels.mono rfl (fun h => h) fun ht => ⟨_, ht, rfl, prefix_rfl⟩, hrepresent⟩

theorem stable : Stable Labelled fun _ _ _ => True where
  add hc _ ht _ _ _ := ⟨hc.addInstance ht _, fun _ _ => trivial⟩
  arguments _ _ _ := trivial
  mono _ _ := trivial

end Labelled

theorem Step.labelled (h : Step c c') (hc : c.Labelled) : c'.Labelled := by
  cases h with
  | declare h => exact hc.declare h
  | instantiate h => exact ((Labelled.stable.instantiate hc trivial).of_ok h).1
  | instantiateSome h => exact ((Labelled.stable.instantiate hc trivial).of_error h).1
  | link => exact (linkEach_preserves (P := Labelled) (fun hc id status => hc.setStatus id status) hc _).1

theorem steps_labelled {fileId} (h : Relation.ReflTransGen Step { fileId } c) : c.Labelled := by
  induction h with
  | refl => exact fun hs => by cases hs
  | tail _ hstep ih => exact hstep.labelled ih

end Catalog

/-- **Names in code differ** (`represent`): those of functions that do not keep their own name (`isBare`), whatever the
functions are called, and those of all structures of a catalog `c` if no declared name has a dot. -/
theorem represents_differ (fileId : Nat) :
    (∀ (definitions : List FunctionDefinition) (i j : Nat) f g,
      let functions := (definitions.foldl Registry.declare { fileId }).functions
      functions[i]? = some f → functions[j]? = some g → f.isBare = false → g.isBare = false → i ≠ j →
        f.represent ≠ g.represent) ∧
    ∀ c, Relation.ReflTransGen Catalog.Step { fileId } c →
      (∀ name named, c.names.lookup name = some named → '.' ∉ name.toList) →
      ∀ i j s t, c.structure? i = some s → c.structure? j = some t → i ≠ j → s.ref.represent ≠ t.ref.represent := by
  constructor
  · intro definitions i j f g functions hf hg hplain hplain' hne hsame
    have hnamed := (Registry.foldl_declare_named definitions (r := { fileId }) fun i f h => by cases h).1
    exact hne ((hnamed i f hf).place_eq (hnamed j g hg) hplain hplain' hsame)
  · intro c hc hdots i j s t hs ht hne hsame
    have horderly := (Catalog.steps_grow hc (.empty fileId)).1
    obtain ⟨parts, hlabels, hrepresent⟩ := Catalog.steps_labelled hc hs
    obtain ⟨parts', hlabels', hrepresent'⟩ := Catalog.steps_labelled hc ht
    rw [hsame, hrepresent'] at hrepresent
    have hparts : parts' = parts := dotted_injective (hlabels'.dotless horderly hdots) (hlabels.dotless horderly hdots)
      (append_cancel_left hrepresent)
    exact hne (hlabels.place_eq horderly hlabels' hparts.symm)

/-- The functions `f` and `f.0` get different names, and so do a node and a box of nodes, whose names have no dots. -/
theorem represents_differ_boxTypes :
    (∃ f g, ([constantFunction "f" [] false (.place "x"), constantFunction "f.0" [] false (.place "x")].foldl
      Registry.declare { fileId := 0 }).functions = [f, g] ∧ f.represent ≠ g.represent) ∧
    Relation.ReflTransGen Catalog.Step { fileId := 0 } Catalog.boxTypes ∧
    ∃ s t, Catalog.boxTypes.structures = [s, t] ∧ s.ref.represent ≠ t.ref.represent := by
  obtain ⟨hfunctions, hstructures⟩ := represents_differ 0
  refine ⟨⟨_, _, rfl, hfunctions [_, _] 0 1 _ _ rfl rfl rfl rfl (by decide)⟩, Catalog.boxTypes_reachable, _, _, rfl, ?_⟩
  refine hstructures _ Catalog.boxTypes_reachable (fun name named hname => ?_) 0 1 _ _ rfl rfl (by decide)
  have hnames : ∀ name ∈ ["Box", "Node"], '.' ∉ name.toList := by decide
  refine hnames name ?_
  simp only [Catalog.boxTypes, lookup_cons] at hname
  grind

end Lowering
