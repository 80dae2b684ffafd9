import Mathlib.Algebra.Order.Ring.Nat
import Lowering.Proofs.Ensures
import Lowering.Proofs.Except
import Lowering.Types.Instantiate
/-!
# What is true of every catalog

Structures are only ever added, and a structure never changes its place, its names or its definition. `Catalog.Extends`
says so, and everything a type can refer to stays valid along it. `Catalog.Sound` collects what holds of a catalog at
every moment: a structure knows its own place, bindings mention structures of the catalog only, and a structure that is
laid out has fields that can be held, the structures among them being laid out themselves.

The structures that contain each other by value are ranked: those inside have a smaller rank, and ranks stay below the
number of structures that are laid out. So a chain of structures inside each other is never longer than that.
-/

namespace Lowering

namespace Catalog

/-! ### Types and catalogs -/

/-- The structure of `ref` is in the catalog, under the same names. -/
def Lists (c : Catalog) (ref : StructureRef) : Prop := ∃ s, c.structure? ref.id = some s ∧ s.ref = ref

/-- The structure of a type, if it has one, is in the catalog. -/
def Knows (c : Catalog) (t : TypeRef) : Prop := ∀ ref, t.structure? = some ref → c.Lists ref

/-- A type whose values can be worked with: its structure is held by its address, and its own value is laid out. -/
structure Usable (c : Catalog) (t : TypeRef) : Prop where
  known : c.Knows t
  deep : ∀ ref, t.structure? = some ref → t.depth ≠ 0
  linked : ∀ ref, t.linear? = some ref → ∃ layout, c.layout? ref = some layout

/-- The bytes that fields take together. -/
def fieldsSize (c : Catalog) (fields : List Field) : Nat :=
  (fields.map fun f => (c.sizeOf? f.ty).getD 0).sum

/-- The number of structures that are laid out. -/
def linkedCount (c : Catalog) : Nat := c.structures.countP Structure.isLinked

theorem Usable.exists_size {c : Catalog} {t : TypeRef} (ht : c.Usable t) : ∃ size, c.sizeOf? t = some size := by
  unfold sizeOf?
  rcases hlin : t.linear? with _ | ref
  · cases t.primitive? <;> exact ⟨_, rfl⟩
  obtain ⟨layout, hlayout⟩ := ht.linked ref hlin
  simp [hlayout]

/-- What holds of the fields of a structure that is laid out. -/
structure LaidOut (c : Catalog) (layout : Layout) : Prop where
  distinct : (layout.fields.map Field.name).Nodup
  usable : ∀ f ∈ layout.fields, c.Usable f.ty
  notVoid : ∀ f ∈ layout.fields, f.ty.isVoid = false
  size : layout.size = c.fieldsSize layout.fields
  fits : layout.size < 2 ^ 64

/-- Structures inside a structure have a smaller rank than it. -/
def Ranked (c : Catalog) (rank : Nat → Nat) : Prop :=
  ∀ ref layout, c.layout? ref = some layout →
    rank ref.id < c.linkedCount ∧ ∀ f ∈ layout.fields, ∀ inner, f.ty.linear? = some inner → rank inner.id < rank ref.id

/-- What holds of a catalog at every moment. -/
structure Sound (c : Catalog) : Prop where
  placed : ∀ id s, c.structure? id = some s → s.ref.id = id
  bound : ∀ id s, c.structure? id = some s → ∀ b ∈ s.bindings, c.Knows b.2
  laidOut : ∀ ref layout, c.layout? ref = some layout → c.LaidOut layout
  ranked : ∃ rank, c.Ranked rank
  single : ∀ id s, c.structure? id = some s → s.hasFailed = true → s.layout? = none

/-- Every structure of `c` stands in `c'` at the same place and is the same, and one that is laid out stays so. -/
structure Extends (c c' : Catalog) : Prop where
  kept : ∀ id s, c.structure? id = some s →
    ∃ s', c'.structure? id = some s' ∧ s'.ref = s.ref ∧ s'.bindings = s.bindings ∧ s'.source = s.source
  stays : ∀ ref layout, c.layout? ref = some layout → c'.layout? ref = some layout

variable {ref : StructureRef} {s : Structure} {id : Nat}

namespace Extends

variable {c c' c'' : Catalog} {t : TypeRef}

theorem refl (c : Catalog) : c.Extends c := ⟨fun _ s h => ⟨s, h, rfl, rfl, rfl⟩, fun _ _ h => h⟩

theorem trans (h : c.Extends c') (h' : c'.Extends c'') : c.Extends c'' where
  kept id s hs := by
    obtain ⟨s', hs', href, hbinds, hsrc⟩ := h.kept id s hs
    obtain ⟨s'', hs'', href', hbinds', hsrc'⟩ := h'.kept id s' hs'
    exact ⟨s'', hs'', href'.trans href, hbinds'.trans hbinds, hsrc'.trans hsrc⟩
  stays ref layout hl := h'.stays ref layout (h.stays ref layout hl)

variable (h : c.Extends c')
include h

theorem lists (hc : c.Lists ref) : c'.Lists ref := by
  obtain ⟨s, hs, href⟩ := hc
  obtain ⟨s', hs', href', -⟩ := h.kept ref.id s hs
  exact ⟨s', hs', href'.trans href⟩

theorem knows (hc : c.Knows t) : c'.Knows t :=
  fun ref ht => h.lists (hc ref ht)

theorem usable (hc : c.Usable t) : c'.Usable t where
  known := h.knows hc.known
  deep := hc.deep
  linked ref ht := by
    obtain ⟨layout, hl⟩ := hc.linked ref ht
    exact ⟨layout, h.stays ref layout hl⟩

theorem sizeOf?_eq (hc : c.Usable t) : c'.sizeOf? t = c.sizeOf? t := by
  unfold sizeOf?
  rcases ht : t.linear? with _ | ref
  · cases t.primitive? <;> rfl
  obtain ⟨layout, hl⟩ := hc.linked ref ht
  simp [hl, h.stays ref layout hl]

theorem laidOut (hc : c.LaidOut layout) : c'.LaidOut layout where
  distinct := hc.distinct
  usable f hf := h.usable (hc.usable f hf)
  notVoid := hc.notVoid
  size := by
    rw [hc.size]
    refine congrArg List.sum (List.map_congr_left fun f hf => ?_)
    rw [h.sizeOf?_eq (hc.usable f hf)]
  fits := hc.fits

end Extends

/-! ### Resolving -/

theorem structure?_of_linear? {t : TypeRef} (h : t.linear? = some ref) : t.structure? = some ref := by
  grind [TypeRef.linear?, TypeRef.structure?]

theorem primitive?_eq_some {t : TypeRef} (h : t.primitive? = some kind) : t = .primitive kind := by
  obtain ⟨head, depth⟩ := t
  unfold TypeRef.primitive? at h
  cases head with
  | struct => cases h
  | primitive kind' =>
    dsimp only at h
    split at h
    · next hdepth =>
      cases h
      rw [hdepth]
      rfl
    · cases h

section Resolving

variable {c : Catalog} {bindings : Bindings} {t : TypeRef} {ty : TypeName}

theorem use_eq_ok (h : use s depth span = .ok t) : t = ⟨.struct s.ref, depth.toNat⟩ ∧ s.hasFailed = false := by
  grind [use]

theorem lists_ref (hc : ∀ id s, c.structure? id = some s → s.ref.id = id) (hs : c.structure? id = some s) :
    c.Lists s.ref :=
  ⟨s, by rw [hc id s hs, hs], rfl⟩

/-- What a name without arguments comes down to: something bound, a built-in type, or a structure in good order. -/
theorem Sound.of_mem (hc : c.Sound) (hs : s ∈ c.structures) : c.Lists s.ref ∧ c.layout? s.ref = s.layout? := by
  obtain ⟨id, hid⟩ := List.mem_iff_getElem?.1 hs
  refine ⟨lists_ref hc.placed hid, ?_⟩
  rw [layout?, hc.placed id s hid, structure?, hid]
  rfl

theorem resolveName_cases (h : c.resolveName bindings ty = .ok t) :
    (∃ bound, bindings.lookup ty.name.symbol = some bound ∧ t = bound.offset ty.depth.toInt64.toInt) ∨
    (∃ kind, t = ⟨.primitive kind, ty.depth.toNat⟩) ∨
    ∃ id s, c.structure? id = some s ∧ s.hasFailed = false ∧ t = ⟨.struct s.ref, ty.depth.toNat⟩ := by
  unfold resolveName at h
  dsimp only at h
  split at h
  · simp_all
  · grind
  split at h
  · cases h
  · next id _ =>
    split at h
    · next s hs =>
      obtain ⟨ht, hf⟩ := use_eq_ok h
      exact .inr (.inr ⟨id, s, hs, hf, ht⟩)
    · cases h
  · cases h

/-- What a written type comes down to. -/
theorem resolve_cases (h : c.resolve bindings ty = .ok t) :
    (∃ bound, bindings.lookup ty.name.symbol = some bound ∧ t = bound.offset ty.depth.toInt64.toInt) ∨
    (∃ kind, t = ⟨.primitive kind, ty.depth.toNat⟩) ∨
    ∃ id s, c.structure? id = some s ∧ s.hasFailed = false ∧ t = ⟨.struct s.ref, ty.depth.toNat⟩ := by
  obtain ⟨depth, name, arguments, span⟩ := ty
  rcases arguments with _ | ⟨first, rest⟩
  · exact resolveName_cases (by simpa only [resolve] using h)
  rw [resolve] at h
  split at h
  · cases h
  · cases h
  rcases ha : c.resolveArgument bindings first with _ | argument
  · rw [ha] at h; cases h
  rcases hr : c.resolveArguments bindings rest with _ | arguments
  · rw [ha, hr] at h; cases h
  rw [ha, hr] at h
  simp only [bind, Except.bind] at h
  split at h
  · next s hs =>
    obtain ⟨ht, hf⟩ := use_eq_ok h
    obtain ⟨template, -, hinst⟩ := Option.bind_eq_some_iff.1 hs
    obtain ⟨id, -, hid⟩ := Option.bind_eq_some_iff.1 hinst
    exact .inr (.inr ⟨id, s, hid, hf, ht⟩)
  · cases h

theorem resolve_knows (hc : ∀ id s, c.structure? id = some s → s.ref.id = id) (hb : ∀ b ∈ bindings, c.Knows b.2)
    (h : c.resolve bindings ty = .ok t) : c.Knows t := by
  obtain ⟨bound, hbound, rfl⟩ | ⟨kind, rfl⟩ | ⟨id, s, hs, -, rfl⟩ := resolve_cases h
  · obtain ⟨before, after, hsplit, -⟩ := List.lookup_eq_some_iff.1 hbound
    exact hb (ty.name.symbol, bound) (by simp [hsplit])
  · exact fun ref href => nomatch href
  intro ref href
  cases href
  exact lists_ref hc hs

theorem resolveArguments_knows (hc : ∀ id s, c.structure? id = some s → s.ref.id = id)
    (hb : ∀ b ∈ bindings, c.Knows b.2) {ts : List TypeRef} (h : c.resolveArguments bindings arguments = .ok ts) :
    ∀ t ∈ ts, c.Knows t := by
  induction arguments generalizing ts with
  | nil =>
    simp_all [resolveArguments]
  | cons first rest ih =>
    rw [resolveArguments] at h
    rcases hf : c.resolveArgument bindings first with _ | argument
    · rw [hf] at h; cases h
    rcases hr : c.resolveArguments bindings rest with _ | arguments
    · rw [hf, hr] at h; cases h
    rw [hf, hr] at h
    cases h
    intro t ht
    cases ht with
    | head =>
      cases first with
      | type => exact resolve_knows hc hb (by simpa only [resolveArgument] using hf)
      | constant => simp [resolveArgument] at hf
    | tail _ ht => exact ih hr t ht

theorem lowered_deep (h : t.lowered.structure? = some ref) : t.lowered.depth ≠ 0 := by
  unfold TypeRef.lowered at h ⊢
  split at h
  · next kind hk => simp [TypeRef.structure?, hk] at h
  · next r hr => simp [TypeRef.offset, TypeRef.depthLimit]

theorem lowered_knows (h : c.Knows t) : c.Knows t.lowered := by
  unfold TypeRef.lowered
  split
  · exact h
  · exact h

end Resolving

/-! ### Adding structures -/

section Adding

variable {c c' : Catalog}

/-- `c'` has one structure more than `c`, which nothing was done with yet. -/
def Adds (c c' : Catalog) (bindings : Bindings) : Prop :=
  ∃ name represent source,
    c'.structures = c.structures ++ [⟨⟨c.structures.length, name, represent⟩, source, bindings, .pending⟩]

theorem adds_addStructure (c : Catalog) (name represent : String) (source : StructureDefinition)
    (bindings : Bindings) : c.Adds (c.addStructure name represent source bindings) bindings :=
  ⟨name, represent, source, rfl⟩

namespace Adds

variable {bindings : Bindings} (h : c.Adds c' bindings)
include h

theorem structure?_cases (hs : c'.structure? id = some s) :
    c.structure? id = some s ∨ (s.ref.id = id ∧ s.bindings = bindings ∧ s.status = .pending) := by
  obtain ⟨name, represent, source, hstructs⟩ := h
  unfold structure? at hs ⊢
  grind

theorem structure?_old (hs : c.structure? id = some s) : c'.structure? id = some s := by
  obtain ⟨name, represent, source, hstructs⟩ := h
  unfold structure? at hs ⊢
  grind

theorem layout?_eq (ref : StructureRef) : c'.layout? ref = c.layout? ref := by
  unfold layout?
  rcases hs : c'.structure? ref.id with _ | s
  · cases hs' : c.structure? ref.id with
    | none => rfl
    | some => rw [h.structure?_old hs'] at hs; cases hs
  obtain hs' | ⟨hid, -, hstatus⟩ := h.structure?_cases hs
  · rw [hs']
  cases hs' : c.structure? ref.id with
  | some s' =>
    rw [h.structure?_old hs'] at hs
    cases hs
    rfl
  | none => simp [Structure.layout?, hstatus]

theorem toExtends : c.Extends c' where
  kept id s hs := ⟨s, h.structure?_old hs, rfl, rfl, rfl⟩
  stays ref layout hl := by rw [h.layout?_eq, hl]

theorem linkedCount_eq : c'.linkedCount = c.linkedCount := by
  obtain ⟨name, represent, source, hstructs⟩ := h
  simp [linkedCount, hstructs, Structure.isLinked, Structure.layout?]

theorem sound (hc : c.Sound) (hb : ∀ b ∈ bindings, c.Knows b.2) : c'.Sound where
  placed id s hs := by
    obtain hs' | ⟨hid, -, -⟩ := h.structure?_cases hs
    · exact hc.placed id s hs'
    · exact hid
  bound id s hs b hmem := by
    obtain hs' | ⟨-, rfl, -⟩ := h.structure?_cases hs
    · exact h.toExtends.knows (hc.bound id s hs' b hmem)
    · exact h.toExtends.knows (hb b hmem)
  laidOut ref layout hl := by
    rw [h.layout?_eq] at hl
    exact h.toExtends.laidOut (hc.laidOut ref layout hl)
  ranked := by
    obtain ⟨rank, hrank⟩ := hc.ranked
    refine ⟨rank, fun ref layout hl => ?_⟩
    rw [h.layout?_eq] at hl
    rw [h.linkedCount_eq]
    exact hrank ref layout hl
  single id s hs hfailed := by
    obtain hs' | ⟨-, -, hp⟩ := h.structure?_cases hs
    · exact hc.single id s hs' hfailed
    · rw [Structure.layout?, hp]

end Adds

theorem declare_adds (h : c.declare definition = .ok c') : c.Adds c' [] ∨ c'.structures = c.structures := by
  unfold declare at h
  dsimp only at h
  split at h
  · cases h
  split at h
  · cases h
    exact .inl (adds_addStructure ..)
  · grind

theorem addInstance_adds (c : Catalog) (id : Nat) (template : Template) (arguments : List TypeRef) :
    c.Adds (c.addInstance id template arguments)
      (Bindings.ofPairs ((template.source.parameters.map Identifier.symbol).zip arguments)) :=
  adds_addStructure ..

end Adding

theorem template?_eq_some_iff {c : Catalog} {name id template} : c.template? name = some (id, template) ↔
    c.names.lookup name = some (.template id) ∧ c.templates[id]? = some template := by
  grind [template?]

/-! ### Steps -/

theorem ensures_ask {c} {α : Type} {question} {Q : α → Catalog → Prop} {E}
    (hQ : ∀ a, question c = .ok a → Q a c) (hE : ∀ d, question c = .error d → E d c) :
    Ensures (Cataloging.ask question) c Q E := by
  refine Ensures.bind (Ensures.get ?_)
  cases h : question c with
  | ok a => exact Ensures.pure (hQ a h)
  | error d => exact Ensures.throw (hE d h)

end Catalog

end Lowering
