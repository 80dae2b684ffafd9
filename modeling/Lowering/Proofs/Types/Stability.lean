import Lowering.Proofs.Unit.Contents
/-!
# A written type goes on to stand for what it stands for

A catalog only ever grows: names, instances and structures are added, and trying structures changes nothing but how far
they have come (`Step.grows`). A new instance is noted with its template when it is made, before the fields of the
instance ask for more, so a template has one instance for each list of arguments, however the calls nest (`Orderly`).
-/

namespace Lowering.Catalog

open List

variable {c c' c'' : Catalog} {bindings : Bindings} {definition : StructureDefinition} {t : Template} {ty : TypeName}

/-! ### Catalogs that grow -/

/-- Structures stay as they are, and how far they have come too. -/
def Retains (c c' : Catalog) : Prop := ∀ {place : Nat} {s : Structure}, c.structure? place = some s →
  c'.structure? place = some s

/-- What was resolved goes on to be, where no structure was tried. -/
theorem Grows.resolveArguments_eq (h : c.Grows c') (hretains : c.Retains c') {ts : List TypeRef}
    (hts : c.resolveArguments bindings arguments = .ok ts) : c'.resolveArguments bindings arguments = .ok ts := by
  obtain hsame | ⟨-, inner, d, -, -, ⟨place, s, s', hs, hok, hs', -, hfailed, -⟩, -⟩ := h.resolveArguments hts
  · exact hsame
  · cases (hretains hs).symm.trans hs'
    exact absurd (hok.symm.trans hfailed) (by simp)

theorem grows_setStatus (c : Catalog) (id : Nat) (status : Status) : c.Grows (c.setStatus id status) where
  names h := h
  templates ht := ⟨_, ht, rfl, fun h => h⟩
  structures {place s} hs := by
    rw [structure?_setStatus, hs]
    split
    · exact ⟨status, rfl⟩
    · exact ⟨s.status, rfl⟩

/-! ### Declaring structures and making instances -/

theorem lookup_cons_of_new {names : List (String × Named)} (hnew : names.lookup name = none) (new : Named)
    (h : names.lookup other = some named) : ((name, new) :: names).lookup other = some named := by
  grind

theorem lookup_cons_cases {names : List (String × Named)}
    (h : ((name, new) :: names).lookup other = some named) : named = new ∨ names.lookup other = some named := by
  grind

theorem getElem?_concat_cases {α : Type} {l} {x a : α} {i} (h : (l ++ [x])[i]? = some a) :
    l[i]? = some a ∨ i = l.length ∧ a = x := by
  grind

/-- What declaring a structure comes down to. -/
theorem declare_inv (h : c.declare definition = .ok c') :
    c.names.lookup definition.name.symbol = none ∧
      ((definition.parameters = [] ∧ ∃ represent, c' =
        { c.addStructure definition.name.symbol represent definition [] with
          names := (definition.name.symbol, .struct c.structures.length) :: c.names }) ∨
      (definition.parameters ≠ [] ∧ c' =
        { c with
          templates := c.templates ++ [{ source := definition }]
          names := (definition.name.symbol, .template c.templates.length) :: c.names })) := by
  unfold declare at h
  dsimp only at h
  split at h
  · cases h
  rename_i hnew
  rw [Bool.or_eq_true, not_or] at hnew
  refine ⟨Option.not_isSome_iff_eq_none.1 hnew.2, ?_⟩
  grind

theorem declare_grows (h : c.declare definition = .ok c') : c.Grows c' := by
  obtain ⟨hnew, ⟨-, represent, rfl⟩ | ⟨-, rfl⟩⟩ := declare_inv h
  · exact ⟨lookup_cons_of_new hnew _, fun ht => ⟨_, ht, rfl, fun h => h⟩,
      fun hs => ⟨_, (adds_addStructure c _ represent _ _).structure?_old hs⟩⟩
  · refine ⟨lookup_cons_of_new hnew _, fun ht => ⟨_, ?_, rfl, fun h => h⟩, fun hs => ⟨_, hs⟩⟩
    exact (List.getElem?_append_left (List.getElem?_eq_some_iff.1 ht).1).trans ht

theorem addInstance_templates {id t} (ht : c.templates[id]? = some t) (arguments : List TypeRef) {other t'} :
    (c.addInstance id t arguments).templates[other]? = some t' ↔
      (other = id ∧ t' = { t with instances := t.instances ++ [(arguments, c.structures.length)] }) ∨
        (other ≠ id ∧ c.templates[other]? = some t') := by
  show (c.templates.set id _)[other]? = some t' ↔ _
  grind

theorem addInstance_grows {id} (ht : c.templates[id]? = some t) (arguments : List TypeRef) :
    c.Grows (c.addInstance id t arguments) where
  names h := h
  templates {other old} hold := by
    by_cases hsame : other = id
    · subst hsame
      cases ht.symm.trans hold
      refine ⟨_, (addInstance_templates ht arguments).2 (.inl ⟨rfl, rfl⟩), rfl, fun {arguments place} hplace => ?_⟩
      grind
    · exact ⟨old, (addInstance_templates ht arguments).2 (.inr ⟨hsame, hold⟩), rfl, fun h => h⟩
  structures hs := ⟨_, (addInstance_adds c id t arguments).structure?_old hs⟩

/-! ### One instance for each list of arguments -/

/-- The structure at a place is the instance of a template for some arguments. -/
def Made (c : Catalog) (id : Nat) (arguments : List TypeRef) (place : Nat) : Prop :=
  ∃ t s, c.templates[id]? = some t ∧ c.structure? place = some s ∧ arguments.length = t.source.parameters.length ∧
    s.Instantiates t arguments

/-- A template stands under its name, and what is noted with it are its instances. -/
structure Owns (c : Catalog) (id : Nat) (t : Template) : Prop where
  named : c.names.lookup t.source.name.symbol = some (.template id)
  parameters : t.source.parameters ≠ []
  made : ∀ {arguments place}, t.instances.lookup arguments = some place → c.Made id arguments place

/-- The structure at a place is noted with a template. -/
def Noted (c : Catalog) (place : Nat) : Prop :=
  ∃ (id : Nat) (t : Template) (arguments : List TypeRef), c.templates[id]? = some t ∧
    t.instances.lookup arguments = some place

/-- What holds of names, templates and instances at every moment. -/
structure Orderly (c : Catalog) : Prop where
  placed : ∀ {place} {s}, c.structure? place = some s → s.ref.id = place
  listed : ∀ {name} {id}, c.names.lookup name = some (.template id) → ∃ t, c.templates[id]? = some t
  owned : ∀ {id} {t}, c.templates[id]? = some t → c.Owns id t
  noted : ∀ {place} {s}, c.structure? place = some s → s.source.parameters ≠ [] → c.Noted place

namespace Grows

theorem made (h : c.Grows c') {id} {arguments : List TypeRef} (hmade : c.Made id arguments place) :
    c'.Made id arguments place := by
  obtain ⟨t, s, ht, hs, hlen, hinst⟩ := hmade
  obtain ⟨t', ht', hsrc, -⟩ := h.templates ht
  obtain ⟨status, hs'⟩ := h.structures hs
  exact ⟨t', _, ht', hs', by rw [hsrc]; exact hlen,
    by rw [hsrc]; exact hinst.source, by rw [hsrc]; exact hinst.name, by rw [hsrc]; exact hinst.bindings⟩

theorem owns (h : c.Grows c') {id} (ht : c.Owns id t) : c'.Owns id t :=
  ⟨h.names ht.named, ht.parameters, fun hplace => h.made (ht.made hplace)⟩

theorem noted (h : c.Grows c') {place} (hnoted : c.Noted place) : c'.Noted place := by
  obtain ⟨id, t, arguments, ht, hplace⟩ := hnoted
  obtain ⟨t', ht', -, hinstances⟩ := h.templates ht
  exact ⟨id, t', arguments, ht', hinstances hplace⟩

theorem listed (h : c.Grows c') {id : Nat} (ht : ∃ t, c.templates[id]? = some t) : ∃ t, c'.templates[id]? = some t := by
  obtain ⟨t, ht⟩ := ht
  obtain ⟨t', ht', -⟩ := h.templates ht
  exact ⟨t', ht'⟩

end Grows

theorem zip_left_inj {names : List String} {xs ys : List TypeRef} (hxs : xs.length = names.length)
    (hys : ys.length = names.length) (h : Bindings.ofPairs (names.zip xs) = Bindings.ofPairs (names.zip ys)) :
    xs = ys := by
  have hpairs := reverse_injective h
  have hsecond := congrArg (List.map Prod.snd) hpairs
  rwa [map_snd_zip (Nat.le_of_eq hxs), map_snd_zip (Nat.le_of_eq hys)] at hsecond

namespace Orderly

variable {id place : Nat} {arguments : List TypeRef}

theorem made_inj (hc : c.Orderly) {id' : Nat} {arguments' : List TypeRef} (h : c.Made id arguments place)
    (h' : c.Made id' arguments' place) : id = id' ∧ arguments = arguments' := by
  obtain ⟨t, s, ht, hs, hlen, hinst⟩ := h
  obtain ⟨t', s', ht', hs', hlen', hinst'⟩ := h'
  cases hs.symm.trans hs'
  have hsrc : t.source = t'.source := hinst.source.symm.trans hinst'.source
  have hid : id = id' := by
    have hname := (hc.owned ht).named
    simp_all [(hc.owned ht').named]
  have hbinds := hinst.bindings.symm.trans hinst'.bindings
  rw [hsrc] at hlen hbinds
  exact ⟨hid, zip_left_inj (by rwa [length_map]) (by rwa [length_map]) hbinds⟩

theorem lookup_of_made (hc : c.Orderly) (h : c.Made id arguments place) :
    ∃ t, c.templates[id]? = some t ∧ t.instances.lookup arguments = some place := by
  have hmade := h
  obtain ⟨t, s, ht, hs, -, hinst⟩ := hmade
  obtain ⟨id', t', arguments', ht', hplace⟩ := hc.noted hs (by rw [hinst.source]; exact (hc.owned ht).parameters)
  obtain ⟨rfl, rfl⟩ := hc.made_inj h ((hc.owned ht').made hplace)
  exact ⟨t', ht', hplace⟩

/-- A template has one instance for each list of arguments. -/
theorem made_unique (hc : c.Orderly) (h : c.Made id arguments place) (h' : c.Made id arguments place') :
    place = place' := by
  obtain ⟨t, ht, hplace⟩ := hc.lookup_of_made h
  obtain ⟨t', ht', hplace'⟩ := hc.lookup_of_made h'
  simp_all

theorem empty (fileId : Nat) : Orderly { fileId } where
  placed h := by cases h
  listed h := by cases h
  owned h := by cases h
  noted h := by cases h

theorem declare (hc : c.Orderly) (h : c.declare definition = .ok c') : c'.Orderly := by
  have hgrows := declare_grows h
  obtain ⟨hnew, ⟨hplain, represent, rfl⟩ | ⟨hplain, rfl⟩⟩ := declare_inv h
  · constructor
    case placed =>
      intro place s hs
      obtain hs | ⟨rfl, rfl⟩ := getElem?_concat_cases hs
      · exact hc.placed hs
      · rfl
    case listed =>
      intro name id hname
      obtain hsame | hname := lookup_cons_cases hname
      · cases hsame
      · exact hc.listed hname
    case owned => exact fun ht => hgrows.owns (hc.owned ht)
    case noted =>
      intro place s hs hparams
      obtain hs | ⟨-, rfl⟩ := getElem?_concat_cases hs
      · exact hc.noted hs hparams
      · exact absurd hplain hparams
  constructor
  case placed => exact hc.placed
  case listed =>
    intro name id hname
    obtain hsame | hname := lookup_cons_cases hname
    · simp_all
    · exact hgrows.listed (hc.listed hname)
  case owned =>
    intro id t ht
    obtain ht | ⟨rfl, rfl⟩ := getElem?_concat_cases ht
    · exact hgrows.owns (hc.owned ht)
    · exact ⟨lookup_cons_self, hplain, fun hplace => by cases hplace⟩
  case noted => exact fun hs hparams => hgrows.noted (hc.noted hs hparams)

theorem addInstance (hc : c.Orderly) (ht : c.templates[id]? = some t)
    (hlen : arguments.length = t.source.parameters.length) (hnew : t.instances.lookup arguments = none) :
    (c.addInstance id t arguments).Orderly ∧
      ∃ t', (c.addInstance id t arguments).templates[id]? = some t' ∧
        t'.instances.lookup arguments = some c.structures.length := by
  have hgrows := addInstance_grows ht arguments
  have htemplates := @addInstance_templates c id t ht arguments
  have hself := htemplates.2 (.inl ⟨rfl, rfl⟩)
  have hplace : (t.instances ++ [(arguments, c.structures.length)]).lookup arguments = some c.structures.length := by
    simp [lookup_append, hnew]
  refine ⟨?_, _, hself, hplace⟩
  constructor
  case placed =>
    intro place s hs
    obtain hs | ⟨rfl, rfl⟩ := getElem?_concat_cases hs
    · exact hc.placed hs
    · rfl
  case listed => exact fun hname => hgrows.listed (hc.listed hname)
  case owned =>
    intro other t' ht'
    obtain ⟨rfl, rfl⟩ | ⟨-, ht'⟩ := htemplates.1 ht'
    · obtain ⟨hnamed, hparams, hmade⟩ := hgrows.owns (hc.owned ht)
      refine ⟨hnamed, hparams, fun {arguments' place} hplace' => ?_⟩
      by_cases hsame : arguments' = arguments
      · subst hsame
        cases hplace.symm.trans hplace'
        exact ⟨_, _, hself, List.getElem?_concat_length .., hlen, rfl, rfl, rfl⟩
      · grind
    · exact hgrows.owns (hc.owned ht')
  case noted =>
    intro place s hs hparams
    obtain hs | ⟨rfl, rfl⟩ := getElem?_concat_cases hs
    · exact hgrows.noted (hc.noted hs hparams)
    · exact ⟨id, _, arguments, hself, hplace⟩

theorem setStatus (hc : c.Orderly) (id : Nat) (status : Status) : (c.setStatus id status).Orderly where
  placed hs := by
    obtain ⟨s0, hs0, hs⟩ := structure?_setStatus_inv hs
    have hplaced := hc.placed hs0
    rwa [hs]
  listed := hc.listed
  owned ht := (grows_setStatus c id status).owns (hc.owned ht)
  noted hs hparams := by
    obtain ⟨s0, hs0, hs⟩ := structure?_setStatus_inv hs
    rw [hs] at hparams
    exact (grows_setStatus c id status).noted (hc.noted hs0 hparams)

end Orderly

/-! ### Steps -/

/-- What can be done to a catalog. A structure that cannot be declared leaves no trace; instances that were made before
one could not be made stay. -/
inductive Step : Catalog → Catalog → Prop where
  | declare {c c' : Catalog} {definition} : c.declare definition = .ok c' → Step c c'
  | instantiate {c c' : Catalog} {bindings} {ty : TypeName} : c.instantiate bindings ty = .ok () c' → Step c c'
  | instantiateSome {c c' : Catalog} {bindings} {ty : TypeName} {d} :
    c.instantiate bindings ty = .error d c' → Step c c'
  | link (c : Catalog) : Step c c.link.1

/-- `c` is in order and has everything that `c0` has, as it is. -/
structure Continues (c0 c : Catalog) : Prop where
  orderly : c.Orderly
  grows : c0.Grows c
  retains : c0.Retains c

theorem Orderly.continues (hc : c.Orderly) : c.Continues c := ⟨hc, .refl c, fun h => h⟩

/-- Making instances keeps what there is. -/
theorem continues_stable (c0 : Catalog) : Stable c0.Continues fun _ _ _ => True where
  add hc _ ht _ hlen hnew := by
    obtain ⟨hc, hgrows, hretains⟩ := hc
    refine ⟨⟨(hc.addInstance ht hlen hnew).1, hgrows.trans (addInstance_grows ht _), fun hs => ?_⟩, fun _ _ => trivial⟩
    exact (addInstance_adds ..).structure?_old (hretains hs)
  arguments _ _ _ := trivial
  mono _ _ := trivial

/-- **One step** leaves a catalog in order, and it grows. -/
theorem Step.grows (h : Step c c') (hc : c.Orderly) : c'.Orderly ∧ c.Grows c' := by
  rcases h with h | h | h | _
  · exact ⟨hc.declare h, declare_grows h⟩
  · obtain ⟨hc', -⟩ := ((continues_stable c).instantiate hc.continues trivial).of_ok h
    exact ⟨hc'.orderly, hc'.grows⟩
  · obtain ⟨hc', -⟩ := ((continues_stable c).instantiate hc.continues trivial).of_error h
    exact ⟨hc'.orderly, hc'.grows⟩
  refine (linkEach_preserves (P := fun c' => c'.Orderly ∧ c.Grows c') (fun hc' id status => ?_) ⟨hc, .refl c⟩ _).1
  exact ⟨hc'.1.setStatus id status, hc'.2.trans (grows_setStatus ..)⟩

/-- **All steps** leave a catalog in order, and it grows. -/
theorem steps_grow (h : Relation.ReflTransGen Step c c') (hc : c.Orderly) : c'.Orderly ∧ c.Grows c' := by
  induction h with
  | refl => exact ⟨hc, .refl _⟩
  | tail _ hstep ih =>
    obtain ⟨hc', hgrows⟩ := ih
    obtain ⟨hc'', hgrows'⟩ := hstep.grows hc'
    exact ⟨hc'', hgrows.trans hgrows'⟩

/-! ### Instances that were asked for -/

/-- A written type stands for an instance. -/
def StandsFor (c : Catalog) (bindings : Bindings) (ty : TypeName) (id : Nat) : Prop :=
  ∃ arguments place s, c.resolveArguments bindings ty.arguments = .ok arguments ∧ c.Made id arguments place ∧
    c.structure? place = some s ∧ c.resolve bindings ty = use s ty.depth ty.span

/-- An instance that is noted is what the written type stands for, whatever was made since its arguments were
resolved. -/
theorem Orderly.standsFor (hc : c'.Orderly) {id place} {arguments : List TypeRef}
    (hname : c'.names.lookup ty.name.symbol = some (.template id))
    (hargs : c'.resolveArguments bindings ty.arguments = .ok arguments) (ht : c'.templates[id]? = some t)
    (hplace : t.instances.lookup arguments = some place) : c'.StandsFor bindings ty id := by
  have hmade := (hc.owned ht).made hplace
  have hmade' := hmade
  obtain ⟨t', s, ht', hs, hlen, -⟩ := hmade'
  cases ht.symm.trans ht'
  have hsome : ty.arguments ≠ [] := by
    intro hnone
    rw [hnone] at hargs
    cases hargs
    exact (hc.owned ht).parameters (length_eq_zero_iff.1 hlen.symm)
  refine ⟨arguments, place, s, hargs, hmade, hs, ?_⟩
  have hinst : c'.instanceNamed? ty.name.symbol arguments = some s :=
    instanceNamed?_eq_some_iff.2 ⟨id, t, place, hname, ht, hplace, hs⟩
  rw [resolve_template hname hsome, hargs]
  simp [Except.bind, hinst]

section Completing

variable {id depth : Nat} {tys : List TypeName}

/-- All instances that a written type names are there. -/
def Complete (c : Catalog) (bindings : Bindings) (ty : TypeName) : Prop :=
  ∀ inner id, inner.Within ty → c.names.lookup inner.name.symbol = some (.template id) → c.StandsFor bindings inner id

/-- `c'` has all instances that the fields of structures need which `c` does not have. -/
structure Completes (c c' : Catalog) : Prop extends Continues c c' where
  named : c'.names = c.names
  fields : ∀ {place} {s}, c.structure? place = none → c'.structure? place = some s →
    ∀ field ∈ s.source.fields, c'.Complete s.bindings field.ty

theorem complete_of_inner (h : ∀ id, c.names.lookup ty.name.symbol = some (.template id) → c.StandsFor bindings ty id)
    (hinner : ∀ inner ∈ ty.inner, c.Complete bindings inner) : c.Complete bindings ty := by
  intro inner id hwithin hname
  cases hwithin with
  | self => exact h id hname
  | argument hmem hwithin => exact hinner _ (TypeName.mem_inner.2 hmem) inner id hwithin hname

theorem Continues.standsFor (h : c.Continues c') (hname : c'.names.lookup ty.name.symbol = some (.template id))
    (hstands : c.StandsFor bindings ty id) : c'.StandsFor bindings ty id := by
  obtain ⟨arguments, place, s, hargs, hmade, -⟩ := hstands
  obtain ⟨t, ht, hplace⟩ := h.orderly.lookup_of_made (h.grows.made hmade)
  exact h.orderly.standsFor hname (h.grows.resolveArguments_eq h.retains hargs) ht hplace

theorem Orderly.completes (hc : c.Orderly) : c.Completes c :=
  ⟨hc.continues, rfl, fun hnew hs => by cases hnew.symm.trans hs⟩

namespace Completes

theorem complete (h : c.Completes c') (hty : c.Complete bindings ty) : c'.Complete bindings ty :=
  fun inner id hwithin hname => h.standsFor hname (hty inner id hwithin (h.named ▸ hname))

theorem trans (h : c.Completes c') (h' : c'.Completes c'') : c.Completes c'' where
  orderly := h'.orderly
  grows := h.grows.trans h'.grows
  retains hs := h'.retains (h.retains hs)
  named := h'.named.trans h.named
  fields {place s} hnew hs field hfield := by
    rcases hold : c'.structure? place with _ | s'
    · exact h'.fields hold hs field hfield
    cases (h'.retains hold).symm.trans hs
    exact h'.complete (h.fields hnew hold field hfield)

/-- An instance is there, be it an old one or one whose fields have been completed. -/
theorem of_openInstance (hc : c.Orderly) (hname : c.names.lookup ty.name.symbol = some (.template id)) {opened inner}
    {types : List TypeName} (hopen : c.openInstance bindings ty id = .ok (opened, inner, types)) :
    opened.Orderly ∧ ((opened.Completes c' ∧ ∀ ty ∈ types, c'.Complete inner ty) →
      c.Completes c' ∧ c'.StandsFor bindings ty id) := by
  obtain ⟨arguments, hargs, ⟨rfl, -, hplaced⟩ | ⟨t, ht, hlen, hnew, rfl, rfl, rfl⟩⟩ := openInstance_inv hopen
  · obtain ⟨t, ht⟩ := hc.listed hname
    obtain ⟨place, hplace⟩ := hplaced t ht
    refine ⟨hc, fun ⟨h, _⟩ => ⟨h, ?_⟩⟩
    exact h.standsFor (h.grows.names hname) (hc.standsFor hname hargs ht hplace)
  obtain ⟨hadded, t', ht', hplace⟩ := hc.addInstance ht hlen hnew
  have hadds := addInstance_adds c id t arguments
  refine ⟨hadded, fun ⟨h, hfields⟩ => ?_⟩
  have hcompletes : c.Completes c' := {
    orderly := h.orderly
    grows := (addInstance_grows ht arguments).trans h.grows
    retains := fun hs => h.retains (hadds.structure?_old hs)
    named := h.named
    fields := fun {place s} hplace hs field hfield => by
      rcases hold : (c.addInstance id t arguments).structure? place with _ | s'
      · exact h.fields hold hs field hfield
      -- The new structure is the instance itself.
      obtain hold' | ⟨-, rfl⟩ := getElem?_concat_cases hold
      · cases hplace.symm.trans hold'
      · cases (h.retains hold).symm.trans hs
        exact hfields _ (mem_map_of_mem hfield) }
  obtain ⟨t'', ht'', -, hkept⟩ := h.grows.templates ht'
  have hargs' := hcompletes.grows.resolveArguments_eq hcompletes.retains hargs
  exact ⟨hcompletes, h.orderly.standsFor (h.grows.names hname) hargs' ht'' (hkept hplace)⟩

end Completes

/-- **What is made is complete.** Instances that are only begun when a field asks for them are completed in the end. -/
theorem Makes.completes (h : Makes depth bindings tys c ending) (hc : c.Orderly) (hok : ending = .ok () c') :
    c.Completes c' ∧ ∀ ty ∈ tys, c'.Complete bindings ty := by
  induction h generalizing c' with
  | nil =>
    cases hok
    exact ⟨hc.completes, fun _ hmem => absurd hmem not_mem_nil⟩
  | plain ht _ ih =>
    obtain ⟨h, htypes⟩ := ih hc hok
    refine ⟨h, forall_mem_cons.2 ⟨complete_of_inner (fun id hname => ?_) fun inner hmem => ?_, fun ty hmem => ?_⟩⟩
    · rw [h.named] at hname
      obtain ⟨t, ht'⟩ := hc.listed hname
      cases ht.symm.trans (template?_eq_some_iff.2 ⟨hname, ht'⟩)
    · exact htypes inner (mem_append_left _ hmem)
    · exact htypes ty (mem_append_right _ hmem)
  | tooDeep | argumentFails | refused | fieldFails => cases hok
  | made ht _ _ hopen _ _ ihArguments ihFields ihRest =>
    obtain ⟨hname, -⟩ := template?_eq_some_iff.1 ht
    obtain ⟨hinner, hargs⟩ := ihArguments hc rfl
    obtain ⟨hopened, hmade⟩ := Completes.of_openInstance hinner.orderly (hinner.grows.names hname) hopen
    obtain ⟨hcompletes, hstands⟩ := hmade (ihFields hopened rfl)
    obtain ⟨hrest, htypes⟩ := ihRest hcompletes.orderly hok
    refine ⟨(hinner.trans hcompletes).trans hrest,
      forall_mem_cons.2 ⟨complete_of_inner (fun id hname' => ?_) ?_, htypes⟩⟩
    · rw [((hinner.trans hcompletes).trans hrest).named, hname] at hname'
      cases hname'
      exact hrest.standsFor (((hinner.trans hcompletes).trans hrest).grows.names hname) hstands
    · exact fun inner hmem => hrest.complete (hcompletes.complete (hargs inner hmem))

/-- **An instance that was asked for is there.** -/
theorem instantiate_standsFor (hc : c.Orderly) (hname : c.names.lookup ty.name.symbol = some (.template id))
    (h : c.instantiate bindings ty = .ok () c') : c'.StandsFor bindings ty id := by
  obtain ⟨hcompletes, htypes⟩ := (makes_instantiate.2 rfl).completes hc h
  exact htypes ty (.head _) ty id .self (hcompletes.grows.names hname)

theorem StandsFor.resolve_ne (h : c.StandsFor bindings ty id) (text : String) (span : Span) :
    c.resolve bindings ty ≠ .error (.error (.unresolvableTemplate text) span) := by
  obtain ⟨arguments, place, s, -, -, -, hresolve⟩ := h
  rw [hresolve, use]
  split
  · exact fun hsame => by cases hsame
  · simp

end Completing

/-- **Resolving is stable, and instances are unique**, in every catalog `c` that declaring, instantiating and linking
lead to (`Step`). A template has one structure for each list of arguments (`Made`), and no structure belongs to two of
them. What `resolve` gives for a written type it gives after all further steps, unless its structure, or that of a type
written in its arguments, turned out to be broken. And a written type that names a template stands for an instance once
`instantiate` has made its instances. -/
theorem resolve_stable {fileId : Nat} (hc : Relation.ReflTransGen Step { fileId } c) :
    (∀ id arguments place place', c.Made id arguments place → c.Made id arguments place' → place = place') ∧
    (∀ id id' arguments arguments' place, c.Made id arguments place → c.Made id' arguments' place →
      id = id' ∧ arguments = arguments') ∧
    (∀ place s, c.structure? place = some s → s.source.parameters ≠ [] → ∃ id arguments, c.Made id arguments place) ∧
    (∀ c' bindings ty t, Relation.ReflTransGen Step c c' → c.resolve bindings ty = .ok t →
      c'.resolve bindings ty = .ok t ∨ ∃ inner s, inner.Within ty ∧
        c.resolve bindings inner = .ok ⟨.struct s.ref, inner.depth.toNat⟩ ∧ c'.structure? s.ref.id = some s ∧
        s.hasFailed = true ∧ c'.resolve bindings ty = .error (.error (.invalidType s.ref.name) inner.span)) ∧
    ∀ c' bindings ty id, c.names.lookup ty.name.symbol = some (.template id) → c.instantiate bindings ty = .ok () c' →
      c'.StandsFor bindings ty id ∧
        ∀ text span, c'.resolve bindings ty ≠ .error (.error (.unresolvableTemplate text) span) := by
  obtain ⟨horderly, -⟩ := steps_grow hc (.empty fileId)
  refine ⟨fun _ _ _ _ => horderly.made_unique, fun _ _ _ _ _ => horderly.made_inj, ?_, ?_, ?_⟩
  · intro place s hs hparameters
    obtain ⟨id, t, arguments, ht, hplace⟩ := horderly.noted hs hparameters
    exact ⟨id, arguments, (horderly.owned ht).made hplace⟩
  · intro c' bindings ty t hsteps ht
    obtain ⟨horderly', hgrows⟩ := steps_grow hsteps horderly
    obtain hsame | ⟨inner, d, hwithin, ⟨place, s, s', -, -, hs', href, hfailed, hinner, rfl⟩, hd⟩ := hgrows.resolve ht
    · exact .inl hsame
    · rw [← href] at hinner hd
      exact .inr ⟨inner, s', hwithin, hinner, by rw [horderly'.placed hs', hs'], hfailed, hd⟩
  · intro c' bindings ty id hname hmade
    have hstands := instantiate_standsFor horderly hname hmade
    exact ⟨hstands, hstands.resolve_ne⟩

def boxDefinition : StructureDefinition where
  name := "Box"
  parameters := ["T"]
  fields := [⟨"held", "T", {}⟩]

def boxOfNode : TypeName := ⟨0, "Box", [.type "Node"], {}⟩

/-- A node that holds itself, boxes, and the instance for a box of a node. -/
def boxTypes : Catalog where
  fileId := 0
  names := [("Box", .template 0), ("Node", .struct 0)]
  structures := [
    ⟨⟨0, "Node", "struct.Node.0"⟩, plainDefinition "Node" [("next", 0, "Node")], [], .pending⟩,
    ⟨⟨1, "Box#[Node]", "struct.Box.0.0"⟩, boxDefinition, [("T", ⟨.struct ⟨0, "Node", "struct.Node.0"⟩, 0⟩)], .pending⟩]
  templates := [⟨boxDefinition, [([⟨.struct ⟨0, "Node", "struct.Node.0"⟩, 0⟩], 1)]⟩]

theorem boxTypes_reachable : Relation.ReflTransGen Step { fileId := 0 } boxTypes :=
  ((Relation.ReflTransGen.single (.declare
    (show Catalog.declare { fileId := 0 } (plainDefinition "Node" [("next", 0, "Node")]) = _ from rfl))).tail
    (.declare (show Catalog.declare _ boxDefinition = _ from rfl))).tail
    (.instantiate (show Catalog.instantiate [] boxOfNode _ = _ from rfl))

/-- A box of a node is a type until the node, which holds itself, is found to be broken. -/
theorem resolve_stable_boxOfNode : Relation.ReflTransGen Step { fileId := 0 } boxTypes ∧
    boxTypes.resolve [] boxOfNode = .ok ⟨.struct ⟨1, "Box#[Node]", "struct.Box.0.0"⟩, 0⟩ ∧
    ∃ (inner : TypeName) (s : Structure), inner.Within boxOfNode ∧ boxTypes.link.1.structure? s.ref.id = some s ∧
      s.hasFailed = true ∧
      boxTypes.link.1.resolve [] boxOfNode = .error (.error (.invalidType s.ref.name) inner.span) := by
  have hresolve : boxTypes.resolve [] boxOfNode = .ok ⟨.struct ⟨1, "Box#[Node]", "struct.Box.0.0"⟩, 0⟩ := rfl
  have hbroken : boxTypes.link.1.resolve [] boxOfNode = .error (.error (.invalidType "Node") {}) := rfl
  refine ⟨boxTypes_reachable, hresolve, ?_⟩
  obtain hsame | ⟨inner, s, hwithin, -, hs, hfailed, hd⟩ :=
    (resolve_stable boxTypes_reachable).2.2.2.1 _ [] boxOfNode _ (.single (.link boxTypes)) hresolve
  · cases hbroken.symm.trans hsame
  · exact ⟨inner, s, hwithin, hs, hfailed, hd⟩

end Lowering.Catalog
