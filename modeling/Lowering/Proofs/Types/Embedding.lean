import Mathlib.Data.List.Nodup
import Mathlib.Data.List.Perm.Subperm
import Mathlib.Logic.Relation
import Lowering.Proofs.Types.Resolve
import Lowering.Proofs.Unit.Surroundings
/-!
# Which catalogs can be laid out

`Catalog.link` is a search that marks structures as it goes, and `Catalog.resolve` reads the marks: a structure that
failed makes later resolutions fail. All of this is compared with the catalog before linking, in which nothing is
marked. There a structure *embeds* another one if one of its fields is the other's value (`Catalog.Embeds`), and a
catalog is `Acceptable` if its fields can be held, have names of their own, and no structure embeds itself in the end.
It is `Measurable` if the sizes of its structures, sums over their fields, are all words. Linking adds them up as it
goes and breaks off where a sum is none.

Along the search the catalog keeps to that first one (`Catalog.Traces`): it has the same names and structures, and a
structure that is laid out has the fields of its definition, with the types they had in the beginning. Every structure
on the stack embeds the one at hand, so meeting one of them again closes a circle; and as a stack without repetition
cannot be longer than the catalog, there is always room for one structure more.
-/

namespace Lowering

open List

namespace Catalog

/-! ### Catalogs before linking -/

/-- The catalogs that declaring structures and making instances lead to, in any order. A structure that cannot be
declared leaves no trace; instances that were made before one could not be made stay. -/
inductive Built : Catalog → Prop where
  | empty (fileId : Nat) : Built { fileId }
  | declare {c c' : Catalog} {definition : StructureDefinition} :
    Built c → c.declare definition = .ok c' → Built c'
  | instantiate {c c' : Catalog} {bindings : Bindings} {ty : TypeName} :
    Built c → (∀ b ∈ bindings, c.Knows b.2) → c.instantiate bindings ty = .ok () c' → Built c'
  | instantiateSome {c c' : Catalog} {bindings : Bindings} {ty : TypeName} {d : Diagnostic} :
    Built c → (∀ b ∈ bindings, c.Knows b.2) → c.instantiate bindings ty = .error d c' → Built c'

/-- No structure was tried yet. -/
def Fresh (c : Catalog) : Prop := ∀ id s, c.structure? id = some s → s.status = .pending

variable {c : Catalog} {bindings : Bindings} {layout : Layout} {s : Structure}

theorem Adds.fresh (h : c.Adds c' bindings) (hc : c.Fresh) : c'.Fresh := by
  intro id s hs
  obtain hs | ⟨-, -, hp⟩ := h.structure?_cases hs
  · exact hc id s hs
  · exact hp

theorem fresh_stable : Stable Fresh fun _ _ _ => True where
  add hc _ _ _ _ _ := ⟨(addInstance_adds ..).fresh hc, fun _ _ => trivial⟩
  arguments _ _ _ := trivial
  mono _ _ := trivial

theorem Fresh.declare (hc : c.Fresh) (h : c.declare definition = .ok c') : c'.Fresh := by
  obtain hadds | hsame := declare_adds h
  · exact hadds.fresh hc
  · refine fun id s hs => hc id s ?_
    rwa [structure?, hsame] at hs

/-- A catalog that was not linked yet is in good order. -/
theorem Built.sound_fresh (h : c.Built) : c.Sound ∧ c.Fresh := by
  induction h with
  | empty fileId => exact ⟨sound_empty fileId, by simp [Fresh, structure?]⟩
  | declare _ hdeclare ih => exact ⟨ih.1.declare hdeclare, ih.2.declare hdeclare⟩
  | instantiate _ hknows hmade ih =>
    exact ⟨((sound_stable.instantiate ih.1 hknows).of_ok hmade).1,
      ((fresh_stable.instantiate ih.2 trivial).of_ok hmade).1⟩
  | instantiateSome _ hknows hmade ih =>
    exact ⟨((sound_stable.instantiate ih.1 hknows).of_error hmade).1,
      ((fresh_stable.instantiate ih.2 trivial).of_error hmade).1⟩

/-! ### What makes a catalog acceptable -/

/-- The structure at `id` has a field that is the value of the structure at `inner`. -/
def Embeds (c : Catalog) (id inner : Nat) : Prop :=
  ∃ s, c.structure? id = some s ∧ ∃ field ∈ s.source.fields, ∃ t ref,
    c.resolveValue s.bindings field.ty = .ok t ∧ t.linear? = some ref ∧ ref.id = inner

/-- Every field can be held, no structure has two fields of one name, and no structure contains itself. -/
structure Acceptable (c : Catalog) : Prop where
  holdable : ∀ s ∈ c.structures, ∀ field ∈ s.source.fields,
    ∃ t, c.resolveValue s.bindings field.ty = .ok t ∧ t.isVoid = false
  distinct : ∀ s ∈ c.structures, (s.source.fields.map fun field => field.name.symbol).Nodup
  acyclic : ∀ id, ¬ Relation.TransGen c.Embeds id id

/-- The bytes that a value of type `t` takes if the structure at `id` takes `size id`. -/
def bytesWith (size : Nat → Nat) (t : TypeRef) : Nat :=
  match t.linear?, t.primitive? with
  | some ref, _ => size ref.id
  | none, some kind => kind.size
  | none, none => 8

/-- The bytes that a field takes; none if its type cannot be resolved. -/
def fieldBytes (c : Catalog) (size : Nat → Nat) (bindings : Bindings) (field : FieldDefinition) : Nat :=
  match c.resolveValue bindings field.ty with
  | .ok t => bytesWith size t
  | .error _ => 0

/-- `size` gives each structure the bytes that its fields take together. -/
def Sizes (c : Catalog) (size : Nat → Nat) : Prop :=
  ∀ id s, c.structure? id = some s → size id = (s.source.fields.map (c.fieldBytes size s.bindings)).sum

/-- The size of every structure fits a word. Where no structure contains itself, there is only one way to give them
sizes. -/
def Measurable (c : Catalog) : Prop :=
  ∃ size, c.Sizes size ∧ ∀ id s, c.structure? id = some s → size id < 2 ^ 64

/-- A report of a structure that contains itself is true. -/
def Explains (c : Catalog) (d : Diagnostic) : Prop :=
  ∀ name, d.cause = .circularDefinition name →
    ∃ id s, c.structure? id = some s ∧ s.ref.name = name ∧ Relation.TransGen c.Embeds id id

/-- A layout has the fields of a definition, with names of their own and the types they have in the catalog. -/
structure Describes (c : Catalog) (bindings : Bindings) (fields : List FieldDefinition) (layout : Layout) : Prop where
  matched : Forall₂ (fun field f => f.name = field.name.symbol ∧
    c.resolveValue bindings field.ty = .ok f.ty ∧ f.ty.isVoid = false) fields layout.fields
  distinct : (fields.map fun field => field.name.symbol).Nodup

theorem Describes.names (h : c.Describes bindings fields layout) :
    layout.fields.map Field.name = fields.map fun field => field.name.symbol := by
  obtain ⟨matched, -⟩ := h
  generalize layout.fields = described at matched
  induction matched with
  | nil => rfl
  | cons hfield _ ih => simp_all

theorem Describes.push (h : c.Describes bindings fields layout) {ty : TypeRef}
    (hnew : field.name.symbol ∉ fields.map fun field => field.name.symbol)
    (hty : c.resolveValue bindings field.ty = .ok ty) (hvoid : ty.isVoid = false) (size : Nat) :
    c.Describes bindings (fields ++ [field]) ⟨layout.fields ++ [⟨field.name.symbol, ty⟩], size⟩ where
  matched := rel_append h.matched (.cons ⟨rfl, hty, hvoid⟩ .nil)
  distinct := by
    rw [map_append, map_singleton]
    exact nodup_append.2 ⟨h.distinct, nodup_singleton _, fun a ha b hb hab =>
      hnew (mem_singleton.1 hb ▸ hab ▸ ha)⟩

/-! ### Keeping to the first catalog -/

/-- A catalog as it was before any structure was tried. -/
def untried (c : Catalog) : Catalog :=
  { c with structures := c.structures.map fun s => { s with status := .pending } }

/-- No structure was found to be broken. -/
def Unbroken (c : Catalog) : Prop := ∀ id s, c.structure? id = some s → s.hasFailed = false

theorem structure?_untried (c : Catalog) (id : Nat) :
    c.untried.structure? id = (c.structure? id).map fun s => { s with status := .pending } := List.getElem?_map

theorem Fresh.untried_eq (h : c.Fresh) : c.untried = c := by
  have hsame : ∀ s ∈ c.structures, { s with status := .pending } = s := by
    intro s hs
    obtain ⟨id, hid⟩ := mem_iff_getElem?.1 hs
    rw [← h id s hid]
  rw [untried, map_congr_left hsame, map_id']

@[simp] theorem untried_setStatus (c : Catalog) (id : Nat) (status : Status) :
    (c.setStatus id status).untried = c.untried := by
  have hstructs : (c.setStatus id status).untried.structures = c.untried.structures := by
    refine ext_getElem? fun i => ?_
    grind [untried, setStatus]
  exact congrArg (fun structures => { c with structures }) hstructs

/-- `c` comes from `c0` by trying structures: those that are laid out are as their definitions say, also in size. -/
structure Traces (c0 c : Catalog) : Prop where
  untried : c.untried = c0
  described : ∀ id s layout, c.structure? id = some s → s.layout? = some layout →
    c0.Describes s.bindings s.source.fields layout
  sized : ∀ id s layout, c.structure? id = some s → s.layout? = some layout →
    ∀ size, c0.Sizes size → layout.size = size id

namespace Traces

variable {c0 c : Catalog} {id : Nat}

theorem refl (h : c0.Fresh) : Traces c0 c0 where
  untried := h.untried_eq
  described id s layout hs hlayout := by
    rw [Structure.layout?, h id s hs] at hlayout
    cases hlayout
  sized id s layout hs hlayout := by
    rw [Structure.layout?, h id s hs] at hlayout
    cases hlayout

theorem structure? (h : Traces c0 c) (hs : c.structure? id = some s) :
    c0.structure? id = some { s with status := .pending } := by
  rw [← h.untried, structure?_untried, hs]
  rfl

theorem length (h : Traces c0 c) : c.structures.length = c0.structures.length := by
  rw [← h.untried]
  exact (length_map _).symm

theorem exists_structure? (h : Traces c0 c) (hs0 : c0.structure? id = some s0) :
    ∃ s, c.structure? id = some s ∧ s.ref = s0.ref ∧ s.source = s0.source ∧ s.bindings = s0.bindings := by
  rw [← h.untried, structure?_untried] at hs0
  obtain ⟨s, hs, rfl⟩ := Option.map_eq_some_iff.1 hs0
  exact ⟨s, hs, rfl, rfl, rfl⟩

/-- A structure may be marked, with its layout if it is as its definition says. -/
theorem mark (h : Traces c0 c) {change : Status → Status}
    (hchange : ∀ s layout, c.structure? id = some s → (change s.status).layout = some layout → s.layout? = none →
      c0.Describes s.bindings s.source.fields layout ∧ ∀ size, c0.Sizes size → layout.size = size id)
    (hkeeps : ∀ status : Status, status.layout.isSome → (change status).layout = status.layout) :
    Traces c0 (c.mark id change) := by
  cases hs : c.structure? id with
  | none => rwa [Catalog.mark, hs]
  | some s =>
    have hmarked : ∀ layout, (change s.status).layout = some layout → c0.Describes s.bindings s.source.fields layout ∧
        ∀ size, c0.Sizes size → layout.size = size id := by
      intro layout hlayout
      cases hold : s.layout? with
      | none => exact hchange s layout hs hlayout hold
      | some old =>
        rw [hkeeps s.status (by rw [← Structure.layout?, hold]; rfl)] at hlayout
        exact ⟨h.described id s layout hs hlayout, h.sized id s layout hs hlayout⟩
    rw [mark_eq hs]
    have hcases :
        ∀ other t layout, (c.setStatus id (change s.status)).structure? other = some t → t.layout? = some layout →
        c0.Describes t.bindings t.source.fields layout ∧ ∀ size, c0.Sizes size → layout.size = size other := by
      intro other t layout ht hlayout
      by_cases hne : id = other
      · subst hne
        rw [structure?_setStatus_self hs] at ht
        cases ht
        exact hmarked layout hlayout
      · rw [structure?_setStatus_ne hne] at ht
        exact ⟨h.described other t layout ht hlayout, h.sized other t layout ht hlayout⟩
    exact ⟨by rw [untried_setStatus, h.untried], fun other t layout ht hl => (hcases other t layout ht hl).1,
      fun other t layout ht hl => (hcases other t layout ht hl).2⟩

end Traces

theorem Unbroken.mark (h : c.Unbroken) (id : Nat) {change : Status → Status}
    (hchange : ∀ status, (change status).broken = status.broken) : (c.mark id change).Unbroken := by
  intro other t ht
  unfold Catalog.mark at ht
  split at ht
  · next s hs =>
    rw [structure?_setStatus] at ht
    obtain ⟨t0, ht0, rfl⟩ := Option.map_eq_some_iff.1 ht
    split
    · exact (hchange s.status).trans (h id s hs)
    · exact h other t0 ht0
  · exact h other t ht

/-! ### Resolving in two catalogs -/

section Resolving

variable {c c' : Catalog} {bindings : Bindings}

theorem grows_untried (c : Catalog) : c.Grows c.untried where
  names h := h
  templates ht := ⟨_, ht, rfl, fun h => h⟩
  structures hs := ⟨.pending, by rw [structure?_untried, hs]; rfl⟩

theorem untried_grows (c : Catalog) : c.untried.Grows c where
  names h := h
  templates ht := ⟨_, ht, rfl, fun h => h⟩
  structures hs := by
    rw [structure?_untried] at hs
    obtain ⟨t, ht, rfl⟩ := Option.map_eq_some_iff.1 hs
    exact ⟨t.status, ht⟩

theorem untried_unbroken (c : Catalog) : c.untried.Unbroken := by
  intro id s hs
  rw [structure?_untried] at hs
  obtain ⟨t, -, rfl⟩ := Option.map_eq_some_iff.1 hs
  rfl

theorem Grows.resolveValue (h : c.Grows c') (hsound : c'.Unbroken) {ty : TypeName} {t : TypeRef}
    (ht : c.resolveValue bindings ty = .ok t) : c'.resolveValue bindings ty = .ok t := by
  obtain ⟨written, hwritten, rfl⟩ := map_eq_ok ht
  obtain hsame | ⟨inner, d, -, ⟨place, s, s', -, -, hs', -, hfailed, -⟩, -⟩ := h.resolve hwritten
  · rw [Catalog.resolveValue, hsame]
    rfl
  · exact absurd ((hsound place s' hs').symm.trans hfailed) (by simp)

end Resolving

/-! ### The search -/

section Search

variable {c0 c : Catalog} {id : Nat} {stack : List Nat}

/-- Trying structures, begun in `c`: the catalog keeps to `c0`, no structure is found broken unless the step fails, and
a failure has a reason in `c0` or in what was broken before. -/
def Tries {α : Type} (c0 : Catalog) (x : Cataloging α) (c : Catalog) (Q : α → Catalog → Prop) : Prop :=
  Ensures x c (fun a c' => Traces c0 c' ∧ (c.Unbroken → c'.Unbroken) ∧ Q a c')
    fun d c' => Traces c0 c' ∧ c0.Explains d ∧
      (c0.Acceptable → c.Unbroken → d.cause = .sizeOverflow ∧ ¬ c0.Measurable)

theorem Tries.pure {α : Type} {Q} (hc : Traces c0 c) {a} (ha : Q a c) : Tries c0 (Pure.pure a : Cataloging α) c Q :=
  Ensures.pure ⟨hc, fun h => h, ha⟩

theorem Tries.throw {α : Type} {Q} (hc : Traces c0 c) {d} (hd : c0.Explains d)
    (hbroken : c0.Acceptable → ¬ c.Unbroken) : Tries c0 (MonadExcept.throw d : Cataloging α) c Q :=
  Ensures.throw ⟨hc, hd, fun hok hunbroken => absurd hunbroken (hbroken hok)⟩

theorem Tries.bind {α β : Type} {x} {f : α → Cataloging β} {Q R} (hx : Tries c0 x c Q)
    (hf : ∀ a c', Traces c0 c' → Q a c' → Tries c0 (f a) c' R) : Tries c0 (x >>= f) c R := by
  refine Ensures.bind (hx.mono (fun a c' _ h => ?_) fun _ _ _ h => h)
  obtain ⟨htraces, hunbroken, ha⟩ := h
  exact (hf a c' htraces ha).mono (fun _ _ _ h => ⟨h.1, fun hc => h.2.1 (hunbroken hc), h.2.2⟩)
    fun _ _ _ h => ⟨h.1, h.2.1, fun hok hc => h.2.2 hok (hunbroken hc)⟩

/-- The structure at `id` has a layout. -/
def LinkedAt (c : Catalog) (id : Nat) : Prop := ∃ s layout, c.structure? id = some s ∧ s.layout? = some layout

/-- Once the structures inside are laid out, the bytes of a field are those that every way to give sizes gives it. -/
theorem Traces.sizeOf?_getD (h : Traces c0 c) {ty : TypeRef} (hty : c0.resolveValue bindings field.ty = .ok ty)
    (hinner : ∀ ref, ty.linear? = some ref → c.LinkedAt ref.id) (hsizes : c0.Sizes size) :
    (c.sizeOf? ty).getD 0 = c0.fieldBytes size bindings field := by
  rw [fieldBytes, hty]
  dsimp only
  unfold sizeOf? bytesWith
  cases href : ty.linear? with
  | none => cases ty.primitive? <;> rfl
  | some ref =>
    obtain ⟨s, layout, hs, hlayout⟩ := hinner ref href
    have hl : c.layout? ref = some layout := by rw [layout?, hs]; exact hlayout
    dsimp only
    rw [hl]
    exact h.sized ref.id s layout hs hlayout size hsizes

theorem explains_of_ne (h : ∀ name, d.cause ≠ .circularDefinition name) : c0.Explains d :=
  fun name hname => absurd hname (h name)

/-- **The fields of a structure**, of which those in `earlier` are done. -/
theorem linkFields_tries {linkInner} (hs : c0.structure? id = some s)
    (hinner : ∀ c ref, Traces c0 c → c0.Embeds id ref.id → Tries c0 (linkInner ref) c fun _ c' => c'.LinkedAt ref.id)
    {earlier rest} (hfields : s.source.fields = earlier ++ rest)
    (hlayout : c0.Describes s.bindings earlier layout)
    (hsize : ∀ size, c0.Sizes size → layout.size = (earlier.map (c0.fieldBytes size s.bindings)).sum)
    (hc : Traces c0 c) : Tries c0 (linkFields linkInner s.bindings layout rest) c fun layout' _ =>
      c0.Describes s.bindings s.source.fields layout' ∧ ∀ size, c0.Sizes size → layout'.size = size id := by
  have hmem : s ∈ c0.structures := mem_of_getElem? hs
  induction rest generalizing c earlier layout with
  | nil =>
    rw [append_nil] at hfields
    subst hfields
    exact Tries.pure hc ⟨hlayout, fun size hsizes => (hsize size hsizes).trans (hsizes id s hs).symm⟩
  | cons field rest ih =>
    have hfield : field ∈ s.source.fields := by simp [hfields]
    rw [linkFields]
    dsimp only
    split
    · -- the name was used before
      rename_i hrepeated
      refine Tries.throw hc (explains_of_ne fun _ h => by cases h) fun hok _ => ?_
      have hnodup := hok.distinct s hmem
      rw [hfields, map_append, nodup_append] at hnodup
      obtain ⟨f, hf, hname⟩ := any_eq_true.1 hrepeated
      have hold : field.name.symbol ∈ earlier.map fun field => field.name.symbol := by
        rw [← hlayout.names]
        exact mem_map.2 ⟨f, hf, by simpa using hname⟩
      exact hnodup.2.2 _ hold _ (mem_map_of_mem (.head _)) rfl
    rename_i hnew
    have hnew : field.name.symbol ∉ earlier.map fun field => field.name.symbol := by
      rw [← hlayout.names]
      intro hold
      obtain ⟨f, hf, hname⟩ := mem_map.1 hold
      exact hnew (any_eq_true.2 ⟨f, hf, by simpa using hname⟩)
    refine Tries.bind (Q := fun ty _ => c0.resolveValue s.bindings field.ty = .ok ty)
      (ensures_ask (fun ty hty => ⟨hc, fun h => h, ?_⟩) fun d hd => ⟨hc, ?_, fun hok hunbroken => ?_⟩)
      fun ty c' hc' hty => ?_
    · rw [← hc.untried]
      exact (grows_untried c).resolveValue (untried_unbroken c) hty
    · exact explains_of_ne (resolveValue_blames field.ty d hd).not_circular
    · obtain ⟨ty, hty, -⟩ := hok.holdable s hmem field hfield
      rw [← hc.untried] at hty
      rw [(untried_grows c).resolveValue hunbroken hty] at hd
      cases hd
    split
    · next hvoid =>
      refine Tries.throw hc' (explains_of_ne fun _ h => by cases h) fun hok _ => ?_
      obtain ⟨ty', hty', hvalue⟩ := hok.holdable s hmem field hfield
      simp_all
    rename_i hvoid
    -- what remains once the structure inside, if there is one, is laid out
    have hrest : ∀ c', Traces c0 c' → (∀ ref, ty.linear? = some ref → c'.LinkedAt ref.id) → Tries c0 (do
          linkFields linkInner s.bindings (← addField layout field.name.symbol ty field.span) rest) c' fun layout' _ =>
        c0.Describes s.bindings s.source.fields layout' ∧ ∀ size, c0.Sizes size → layout'.size = size id := by
      intro c' hc' hlinked
      have hsum : ∀ size, c0.Sizes size → layout.size + (c'.sizeOf? ty).getD 0 =
          ((earlier ++ [field]).map (c0.fieldBytes size s.bindings)).sum := by
        intro size hsizes
        simp [hsize size hsizes, hc'.sizeOf?_getD hty hlinked hsizes]
      refine Ensures.bind (ensures_addField (fun _ => ?_) fun hover => ⟨hc', ?_, ?_⟩)
      · exact ih (by simp [hfields]) (hlayout.push hnew hty (by simpa using hvoid) _) hsum hc'
      · exact explains_of_ne (d := .error .sizeOverflow field.span) fun _ h => by cases h
      · rintro - -
        refine ⟨rfl, ?_⟩
        rintro ⟨size, hsizes, hfits⟩
        have htotal := hsizes id s hs
        have hbound := hfits id s hs
        have hpart := hsum size hsizes
        rw [hfields, append_cons, map_append, sum_append] at htotal
        omega
    split
    · next ref href =>
      have hembeds : c0.Embeds id ref.id := ⟨s, hs, field, hfield, ty, ref, hty, href, rfl⟩
      refine (hinner c' ref hc' hembeds).bind fun _ c'' hc'' hlinked => hrest c'' hc'' fun ref' href' => ?_
      cases href.symm.trans href'
      exact hlinked
    · next hlin => exact hrest c' hc' fun ref href => absurd href (hlin ref)

/-- **One structure**, while those of `stack` are in progress. -/
theorem linkStructure_tries {linkInner} (hreach : ∀ x ∈ stack, Relation.TransGen c0.Embeds x id)
    (hid : id < c0.structures.length) (hroom : linkInner = none → id ∈ stack)
    (hinner : ∀ link ∈ linkInner, id ∉ stack → ∀ c ref, Traces c0 c → c0.Embeds id ref.id →
      Tries c0 (link ref) c fun _ c' => c'.LinkedAt ref.id)
    (hc : Traces c0 c) : Tries c0 (linkStructure linkInner stack id) c fun _ c' => c'.LinkedAt id := by
  refine Ensures.bind (Ensures.get ?_)
  obtain ⟨s, hs, -⟩ := hc.exists_structure? (List.getElem?_eq_getElem hid)
  rw [hs]
  have hs0 := hc.structure? hs
  dsimp only
  split
  · next hstack =>
    have hcircle := hreach id (by simpa using hstack)
    refine Tries.throw hc ?_ fun hok _ => hok.acyclic id hcircle
    rintro name ⟨⟩
    exact ⟨id, _, hs0, rfl, hcircle⟩
  rename_i hstack
  have hstack : id ∉ stack := by simpa using hstack
  split
  · next hlinked =>
    obtain ⟨layout, hlayout⟩ := Option.isSome_iff_exists.1 hlinked
    exact Tries.pure hc ⟨s, layout, hs, hlayout⟩
  split
  · next hfailed =>
    refine Tries.throw hc (explains_of_ne fun _ h => by cases h) fun _ hunbroken => ?_
    exact absurd ((hunbroken id s hs).symm.trans hfailed) (by simp)
  split
  · exact absurd (hroom rfl) hstack
  rename_i link
  have hnone : c0.Describes s.bindings [] ⟨[], 0⟩ := ⟨.nil, nodup_nil⟩
  have hfields := linkFields_tries hs0 (hinner link rfl hstack) (nil_append _).symm hnone (fun _ _ => rfl) hc
  refine Ensures.tryCatch (Ensures.bind (hfields.mono (fun layout c' _ h => ?_) fun d c' _ h => ?_))
  · obtain ⟨htraces, hunbroken, hdescribes, hsize⟩ := h
    obtain ⟨s', hs', -, hsrc, hbinds⟩ := htraces.exists_structure? hs0
    refine Ensures.modify ⟨htraces.mark (fun t l ht hl hold => ?_) fun status h => ?_,
      fun hok => (hunbroken hok).mark id fun _ => rfl, ?_⟩
    · cases hs'.symm.trans ht
      rw [Status.withLayout, show s'.status.layout = none from hold] at hl
      cases hl
      exact ⟨hsrc ▸ hbinds ▸ hdescribes, hsize⟩
    · obtain ⟨old, hold⟩ := Option.isSome_iff_exists.1 h
      simp [Status.withLayout, hold]
    · rw [mark_eq hs']
      have hmarked : (s'.status.withLayout layout).layout.isSome = true := by simp [Status.withLayout]
      obtain ⟨layout', hlayout'⟩ := Option.isSome_iff_exists.1 hmarked
      exact ⟨_, layout', structure?_setStatus_self hs', hlayout'⟩
  obtain ⟨htraces, hexplains⟩ := h
  exact Ensures.bind (Ensures.modify (Ensures.throw ⟨htraces.mark (fun t l _ hl hold => by
    cases hl.symm.trans hold) fun _ _ => rfl, hexplains⟩))

/-- A stack without repetition that is as long as the catalog holds every structure. -/
theorem mem_of_full (hnodup : stack.Nodup) (hbelow : ∀ x ∈ stack, x < n) (hfull : stack.length = n)
    (hid : id < n) : id ∈ stack := by
  have hsubset : stack ⊆ List.range n := fun x hx => mem_range.2 (hbelow x hx)
  have hperm := (subperm_of_subset hnodup hsubset).perm_of_length_le (Nat.le_of_eq (length_range.trans hfull.symm))
  exact hperm.mem_iff.2 (mem_range.2 hid)

theorem Embeds.lt {inner : Nat} (hc : c.Sound) (h : c.Embeds id inner) : inner < c.structures.length := by
  obtain ⟨s, hs, field, -, t, ref, ht, href, rfl⟩ := h
  obtain ⟨written, hwritten, rfl⟩ := map_eq_ok ht
  have hknown := lowered_knows (resolve_knows hc.placed (hc.bound id s hs) hwritten)
  obtain ⟨s', hs', -⟩ := hknown ref (structure?_of_linear? href)
  exact (List.getElem?_eq_some_iff.1 hs').1

variable (hsound : c0.Sound) (hc : Traces c0 c)
include hsound hc

theorem linkWithin_tries (room : Nat) (hnodup : stack.Nodup) (hbelow : ∀ x ∈ stack, x < c0.structures.length)
    (hroom : room + stack.length = c0.structures.length) (hreach : ∀ x ∈ stack, Relation.TransGen c0.Embeds x id)
    (hid : id < c0.structures.length) : Tries c0 (linkWithin room stack id) c fun _ c' => c'.LinkedAt id := by
  induction room generalizing c stack id with
  | zero =>
    refine linkStructure_tries hreach hid (fun _ => ?_) (fun _ h => absurd h (Option.not_mem_none _)) hc
    exact mem_of_full hnodup hbelow (by omega) hid
  | succ room ih =>
    refine linkStructure_tries hreach hid (fun h => nomatch h) (fun link hlink hnew c' ref hc' hembeds => ?_) hc
    cases hlink
    refine ih hc' (nodup_cons.2 ⟨hnew, hnodup⟩) (forall_mem_cons.2 ⟨hid, hbelow⟩)
      (by rw [length_cons]; omega) (forall_mem_cons.2 ⟨.single hembeds, fun x hx => ?_⟩) (hembeds.lt hsound)
    exact (hreach x hx).tail hembeds

theorem linkAt_tries (id : Nat) :
    Traces c0 (c.linkAt id).1 ∧ ((c.linkAt id).2 = none → c.Unbroken → (c.linkAt id).1.Unbroken) ∧
      ∀ d ∈ (c.linkAt id).2, c0.Explains d ∧
        (c0.Acceptable → c.Unbroken → d.cause = .sizeOverflow ∧ ¬ c0.Measurable) := by
  unfold linkAt
  split
  · exact ⟨hc, fun _ h => h, fun d hd => nomatch hd⟩
  · next s hs =>
    split
    · exact ⟨hc, fun _ h => h, fun d hd => nomatch hd⟩
    · have hid : id < c0.structures.length := hc.length ▸ (List.getElem?_eq_some_iff.1 hs).1
      have htries := linkWithin_tries hsound hc c.structures.length nodup_nil (by simp) hc.length (by simp) hid
      split
      · next c' h =>
        obtain ⟨htraces, hunbroken, -⟩ := htries.of_ok h
        exact ⟨htraces, fun _ => hunbroken, fun d hd => nomatch hd⟩
      · next d c' h =>
        obtain ⟨htraces, hreason⟩ := htries.of_error h
        refine ⟨htraces, fun hnone => absurd hnone (by simp), fun d' hd => ?_⟩
        cases hd
        exact hreason

theorem linkEach_tries (ids : List Nat) :
    Traces c0 (linkEach c ids).1 ∧ ((linkEach c ids).2 = [] → c.Unbroken → (linkEach c ids).1.Unbroken) ∧
      (∀ d ∈ (linkEach c ids).2, c0.Explains d) ∧
        (c0.Acceptable → c.Unbroken → ∀ d ∈ (linkEach c ids).2.head?, d.cause = .sizeOverflow ∧ ¬ c0.Measurable) := by
  induction ids generalizing c with
  | nil => exact ⟨hc, fun _ h => h, by simp [linkEach], by simp [linkEach]⟩
  | cons id rest ih =>
    obtain ⟨hc', hunbroken, hreason⟩ := linkAt_tries hsound hc id
    obtain ⟨hc'', hunbroken', hexplains', hfirst⟩ := ih hc'
    rw [linkEach]
    refine ⟨hc'', fun hnone hok => ?_, fun d hd => ?_, fun hacceptable hok d hd => ?_⟩
    · simp_all
    · obtain hd | hd := mem_append.1 hd
      · exact (hreason d (Option.mem_toList.1 hd)).1
      · exact hexplains' d hd
    · have hd : d ∈ ((c.linkAt id).2.toList ++ (linkEach (c.linkAt id).1 rest).2).head? := hd
      cases hproblem : (c.linkAt id).2 with
      | none =>
        rw [hproblem] at hd
        exact hfirst hacceptable (hunbroken hproblem hok) d hd
      | some d' =>
        rw [hproblem] at hd
        cases hd
        exact (hreason d hproblem).2 hacceptable hok

end Search

/-! ### The result -/

section Result

variable {c0 c : Catalog}

/-- A structure with fields of some types, each type with its depth. -/
def plainDefinition (name : String) (fields : List (String × UInt64 × String)) : StructureDefinition where
  name := name
  fields := fields.map fun (name, depth, ty) => ⟨name, ⟨depth, ty, [], {}⟩, {}⟩

end Result

end Catalog

end Lowering
