import Lowering.Proofs.Function.Registry
import Lowering.Proofs.Types.Instantiate
import Lowering.Unit.Compile
/-!
# What bodies are lowered against

The catalog of a unit is in good order and every structure in it was tried (`catalogOf_sound`). A function that can be
called has a signature whose types can be used, one type for each parameter (`registryOf_sound`).
-/

namespace Lowering

/-! ### Types -/

variable {c : Catalog}

theorem Catalog.sound_congr {c' : Catalog} (h : c'.structures = c.structures) (hc : c.Sound) : c'.Sound := by
  have hstructure : c'.structure? = c.structure? := by funext id; simp [Catalog.structure?, h]
  have hlayout : c'.layout? = c.layout? := by funext ref; simp only [Catalog.layout?, hstructure]
  have hextends : c.Extends c' :=
    ⟨fun _ s hs => ⟨s, by rw [hstructure, hs], rfl, rfl, rfl⟩, fun ref layout hl => by rw [hlayout, hl]⟩
  constructor
  case placed => simpa only [hstructure] using hc.placed
  case single => simpa only [hstructure] using hc.single
  case bound => exact fun id s hs b hb => hextends.knows (hc.bound id s (by rwa [← hstructure]) b hb)
  case laidOut => exact fun ref layout hl => hextends.laidOut (hc.laidOut ref layout (by rwa [← hlayout]))
  case ranked =>
    obtain ⟨rank, hrank⟩ := hc.ranked
    refine ⟨rank, fun ref layout hl => ?_⟩
    rw [Catalog.linkedCount, h]
    exact hrank ref layout (by rwa [← hlayout])

theorem Catalog.sound_empty (fileId : Nat) : ({ fileId } : Catalog).Sound := by
  refine ⟨?_, ?_, ?_, ⟨fun _ => 0, ?_⟩, ?_⟩ <;> simp [Catalog.structure?, Catalog.layout?, Catalog.Ranked]

section Types

variable {P : Catalog → Prop} {Admits : Catalog → Bindings → TypeName → Prop}

theorem declareStructures_induct
    (hdeclare : ∀ definition ∈ definitions, ∀ c c' : Catalog, P c → c.declare definition = .ok c' → P c') (hc : P c)
    (r : Reporter) : P (declareStructures c r definitions).1 := by
  induction definitions generalizing c r with
  | nil => exact hc
  | cons definition rest ih =>
    obtain ⟨hfirst, hrest⟩ := List.forall_mem_cons.1 hdeclare
    rw [declareStructures]
    split
    · next c' h => exact ih hrest (hfirst c c' hc h) r
    · exact ih hrest hc _

theorem instantiateAll_induct (hstable : Catalog.Stable P Admits) {types : List TypeName}
    (htypes : ∀ ty ∈ types, ∀ c, Admits c [] ty) (hc : P c) (r : Reporter) : P (instantiateAll c r types).1 := by
  induction types generalizing c r with
  | nil => exact hc
  | cons ty rest ih =>
    obtain ⟨hty, hrest⟩ := List.forall_mem_cons.1 htypes
    have hmade := hstable.instantiate hc (hty c)
    rw [instantiateAll]
    split
    · next h => exact ih hrest (hmade.of_ok h).1 r
    · next h => exact ih hrest (hmade.of_error h).1 _

/-- The types of a unit before they are laid out. -/
def unlinkedOf (fileId : Nat) (u : SourceUnit) (r : Reporter) : Catalog :=
  let (c, r) := declareStructures { fileId } r u.structures
  (instantiateAll c r u.writtenTypes).1

/-- What declaring structures and making instances keep is true of all types of a unit. -/
theorem unlinkedOf_induct (hempty : P { fileId })
    (hdeclare : ∀ definition ∈ u.structures, ∀ c c' : Catalog, P c → c.declare definition = .ok c' → P c')
    (hstable : Catalog.Stable P Admits) (htypes : ∀ ty ∈ u.writtenTypes, ∀ c, Admits c [] ty) (r : Reporter) :
    P (unlinkedOf fileId u r) :=
  instantiateAll_induct hstable htypes (declareStructures_induct hdeclare hempty r) _

end Types

theorem Catalog.Sound.declare (hc : c.Sound) (h : c.declare definition = .ok c') : c'.Sound := by
  obtain hadds | hsame := Catalog.declare_adds h
  · exact hadds.sound hc (by simp)
  · exact Catalog.sound_congr hsame hc

theorem unlinkedOf_sound (fileId : Nat) (u : SourceUnit) (r : Reporter) : (unlinkedOf fileId u r).Sound :=
  unlinkedOf_induct (Catalog.sound_empty fileId) (fun _ _ _ _ hc h => hc.declare h) Catalog.sound_stable
    (fun _ _ _ => by simp) r

/-- The catalog of a unit is in good order, and every structure in it was tried. -/
theorem catalogOf_sound (fileId : Nat) (u : SourceUnit) (r : Reporter) :
    (catalogOf fileId u r).1.Sound ∧ (catalogOf fileId u r).1.Settled := by
  obtain ⟨hc, -, hsettled⟩ := Catalog.link_settles (unlinkedOf_sound fileId u r)
  exact ⟨hc, hsettled⟩

/-! ### Functions -/

/-- Every function of a unit that can be called has its types. -/
theorem registryOf_sound (hc : c.Sound) (hsettled : c.Settled) (fileId : Nat) (order : List String) (u : SourceUnit)
    (r : Reporter) : (registryOf fileId order u c r).1.Sound c :=
  Registry.link_sound hc hsettled (foldl_declare_unlinked _ _)

end Lowering
