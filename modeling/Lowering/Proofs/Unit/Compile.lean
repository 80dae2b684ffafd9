import Lowering.Proofs.Function.Compile
import Lowering.Proofs.Unit.Surroundings
/-!
# Every unit compiles, to well-formed procedures

Whatever is wrong with a unit is reported, and the functions that are left are compiled; no promise of the lowering is
broken on the way. What comes out refers only to structures of the module, to functions of the unit that can be called,
and to the byte copy (`surroundingsOf`), at the types they have.
-/

namespace Lowering

open List
open IR (Argument Prototype Setting Surroundings)

/-! ### What a unit declares -/

def typesOf (fileId : Nat) (u : SourceUnit) : Catalog := (catalogOf fileId u {}).1

def functionsOf (fileId : Nat) (u : SourceUnit) : Registry := (registryOf fileId [] u (typesOf fileId u) {}).1

/-- What is reported before bodies are compiled. -/
def reportsOf (fileId : Nat) (order : List String) (u : SourceUnit) : Reporter :=
  (registryOf fileId order u (typesOf fileId u) (catalogOf fileId u {}).2).2

theorem typesOf_sound (fileId : Nat) (u : SourceUnit) : (typesOf fileId u).Sound ∧ (typesOf fileId u).Settled :=
  catalogOf_sound fileId u {}

theorem functionsOf_sound (fileId : Nat) (u : SourceUnit) : (functionsOf fileId u).Sound (typesOf fileId u) :=
  registryOf_sound (typesOf_sound fileId u).1 (typesOf_sound fileId u).2 fileId [] u {}

/-- The functions of a unit do not depend on the order in which `Registry.link` goes through their names. -/
theorem registryOf_eq (fileId : Nat) (order : List String) (u : SourceUnit) (r : Reporter) :
    (registryOf fileId order u (typesOf fileId u) r).1 = functionsOf fileId u := by
  have hunlinked := foldl_declare_unlinked fileId u.functions
  exact (congrArg Prod.fst (hunlinked.link_eq order)).trans (congrArg Prod.fst (hunlinked.link_eq [])).symm

/-- What the code of a unit refers to: structures, the functions that can be called, and the byte copy. -/
def surroundingsOf (structures : List IR.StructDeclaration) (registry : Registry) : Surroundings :=
  ⟨structures, .memcpy :: (registry.functions.filter fun f => !f.failed).filterMap fun f => f.signature.map f.prototype⟩

/-- The declaration of a structure that is laid out. -/
def Structure.declared (s : Structure) : IR.StructDeclaration :=
  ⟨s.ref.represent, (s.layout?.elim [] Layout.fields).map fun f => f.ty.storageType⟩

/-- Exactly the structures that are laid out are declared. -/
theorem declarations_eq (c : Catalog) :
    declarations c = .ok ((c.structures.filter Structure.isLinked).map Structure.declared) := by
  refine mapM_ok fun s hs => ?_
  obtain ⟨layout, hlayout⟩ := Option.isSome_iff_exists.1 (mem_filter.1 hs).2
  simp only [Structure.declaration, Structure.declared, hlayout]
  rfl

theorem declared_mem {c : Catalog} (href : c.Lists ref) (hlayout : c.layout? ref = some layout) :
    (⟨ref.represent, layout.fields.map fun f => f.ty.storageType⟩ : IR.StructDeclaration) ∈
      (c.structures.filter Structure.isLinked).map Structure.declared := by
  obtain ⟨s, hs, rfl⟩ := href
  rw [Catalog.layout?, hs] at hlayout
  have hlayout : s.layout? = some layout := hlayout
  refine mem_map.2 ⟨s, mem_filter.2 ⟨mem_of_getElem? hs, ?_⟩, ?_⟩
  · rw [Structure.isLinked, hlayout]
    rfl
  · rw [Structure.declared, hlayout]
    rfl

/-- There may be memory for any structure and for any string, and functions that can be called may be called. -/
structure IR.Setting.Permits (env : Setting) (r : Registry) : Prop where
  structures : ∀ name, env.allots ⟨.struct name, 0⟩
  bytes : ∀ length, env.allots ⟨.array length (.int 8), 0⟩
  calls : ∀ f ∈ r.functions, f.failed = false → env.calls f.represent

/-- A unit is compiled function by function, with all its types and functions known. -/
theorem compileUnit_eq (fileId : Nat) (options : Options) (u : SourceUnit) : compileUnit fileId options u =
    ((⟨((typesOf fileId u).structures.filter Structure.isLinked).map Structure.declared, ·⟩) <$>
        (compileFunctions (typesOf fileId u) (functionsOf fileId u) options (reportsOf fileId options.order u)
          (functionsOf fileId u).functions).1,
      (compileFunctions (typesOf fileId u) (functionsOf fileId u) options (reportsOf fileId options.order u)
        (functionsOf fileId u).functions).2) := by
  unfold compileUnit
  rw [← registryOf_eq fileId options.order u (catalogOf fileId u {}).2]
  simp only [declarations_eq]
  rfl

/-- Surroundings in which everything may be done. -/
def IR.Surroundings.free (env : Surroundings) : Setting := ⟨env, fun _ => True, fun _ => True, fun _ => True⟩

theorem IR.Surroundings.free_permits (env : Surroundings) (r : Registry) : env.free.Permits r :=
  ⟨fun _ => trivial, fun _ => trivial, fun _ _ _ => trivial⟩

theorem surroundingsOf_sound (hc : c.Sound) (hsettled : c.Settled) (hr : r.Sound c) (hpermits : env.Permits r)
    (henv : env.toSurroundings =
      surroundingsOf ((c.structures.filter Structure.isLinked).map Structure.declared) r)
    (returnType : TypeRef) (slot : Option Argument) (hres : c.Usable returnType) :
    Context.Sound env ⟨c, r, returnType, slot⟩ where
  catalog := hc
  settled := hsettled
  registry := hr
  result := hres
  declared ref layout href hlayout := ⟨⟨_, by rw [henv]; exact declared_mem href hlayout, rfl⟩, hpermits.structures _⟩
  selects ref layout href hlayout index field hfield :=
    ⟨_, by rw [henv]; exact declared_mem href hlayout, rfl, by rw [List.getElem?_map, hfield]; rfl⟩
  callable f hf hok types htypes := by
    rw [henv]
    refine mem_cons_of_mem _ (mem_filterMap.2 ⟨f, mem_filter.2 ⟨hf, by simp [hok]⟩, ?_⟩)
    rw [htypes.signature]
    rfl
  calls := hpermits.calls
  memcpy := by
    rw [henv]
    exact .head _
  bytes := hpermits.bytes

theorem Function.Linked.yields {f : Function} (hf : f.Linked (typesOf fileId u) types) (options : Options) :
    f.Yields (surroundingsOf (((typesOf fileId u).structures.filter Structure.isLinked).map Structure.declared)
        (functionsOf fileId u)).free (typesOf fileId u) (functionsOf fileId u) options types
      (compileFunction (typesOf fileId u) (functionsOf fileId u) options f).procedure :=
  compileFunction_yields hf (fun _ _ _ _ => trivial) (surroundingsOf_sound (typesOf_sound fileId u).1
    (typesOf_sound fileId u).2 (functionsOf_sound fileId u) (IR.Surroundings.free_permits _ _) rfl) options

/-! ### Functions -/

section Functions

variable {env : Setting} {catalog : Catalog} {registry : Registry}

/-- A procedure of the unit: it belongs to a function that can be called. -/
def Emitted (env : Surroundings) (catalog : Catalog) (options : Options) (registry : Registry) (p : IR.Procedure) :
    Prop :=
  ∃ f ∈ registry.functions, f.failed = false ∧ ∃ types, f.Linked catalog types ∧
    (⟨p.name, p.parameters.map Argument.ty, p.returnType⟩ : Prototype) = f.prototype types ∧
      f.Emits env catalog registry options types p

theorem compileFunctions_ok
    (hctx : ∀ returnType slot, catalog.Usable returnType → Context.Sound env ⟨catalog, registry, returnType, slot⟩)
    (hreg : registry.Sound catalog) (hfns : functions ⊆ registry.functions)
    (hallots : ∀ f ∈ functions, ∀ ty ∈ f.source.writtenTypes, catalog.Allots env ty) (options : Options)
    (r : Reporter) : ∃ procedures, (compileFunctions catalog registry options r functions).1 = .ok procedures ∧
      ∀ p ∈ procedures, Emitted env catalog options registry p ∧ (p.external = false → p.Runnable env) := by
  induction functions generalizing r with
  | nil => exact ⟨[], rfl, by simp⟩
  | cons f rest ih =>
    obtain ⟨hf, hrest⟩ := cons_subset.1 hfns
    obtain ⟨hwritten, hallots⟩ := forall_mem_cons.1 hallots
    rw [compileFunctions]
    split
    · exact ih hrest hallots r
    rename_i hok
    have hok : f.failed = false := by simpa using hok
    obtain ⟨types, htypes⟩ := hreg f hf hok
    have hyields := compileFunction_yields htypes hwritten hctx options
    dsimp only
    split
    · next e he =>
      rw [he] at hyields
      exact hyields.elim
    · exact ih hrest hallots _
    rename_i procedure hproc
    obtain ⟨procedures, hprocs, hemitted⟩ :=
      ih hrest hallots (r.throwAll (compileFunction catalog registry options f).reports)
    rw [hproc] at hyields
    refine ⟨procedure.toList ++ procedures, ?_, forall_mem_append.2 ⟨fun p hp => ?_, hemitted⟩⟩
    · simp only [hprocs]
      rfl
    rcases procedure with _ | q
    · cases hp
    cases mem_singleton.1 hp
    exact ⟨⟨f, hf, hok, types, htypes, hyields.1, hyields.2.1⟩, hyields.2.2⟩

end Functions

/-- A unit compiles to the structures that are laid out and to procedures of its functions, which can be run in every
setting that has memory for the types written in them. -/
theorem compileUnit_runnable (fileId : Nat) (options : Options) (u : SourceUnit)
    (hpermits : env.Permits (functionsOf fileId u))
    (henv : env.toSurroundings =
      surroundingsOf (((typesOf fileId u).structures.filter Structure.isLinked).map Structure.declared)
        (functionsOf fileId u))
    (hallots : ∀ f ∈ (functionsOf fileId u).functions, ∀ ty ∈ f.source.writtenTypes, (typesOf fileId u).Allots env ty) :
    ∃ m, (compileUnit fileId options u).1 = .ok m ∧
      m.structures = ((typesOf fileId u).structures.filter Structure.isLinked).map Structure.declared ∧
        ∀ p ∈ m.procedures, Emitted env (typesOf fileId u) options (functionsOf fileId u) p ∧
          (p.external = false → p.Runnable env) := by
  obtain ⟨hc, hsettled⟩ := typesOf_sound fileId u
  have hr := functionsOf_sound fileId u
  have hctx := surroundingsOf_sound hc hsettled hr hpermits henv
  obtain ⟨procedures, hprocs, hemitted⟩ := compileFunctions_ok hctx hr (List.Subset.refl _) hallots options
    (reportsOf fileId options.order u)
  refine ⟨⟨_, procedures⟩, ?_, rfl, hemitted⟩
  rw [compileUnit_eq]
  exact congrArg (Except.map (IR.Module.mk _)) hprocs

/-- A unit compiles to the structures that are laid out and to procedures of its functions. -/
theorem compileUnit_emits (fileId : Nat) (options : Options) (u : SourceUnit) :
    ∃ m, (compileUnit fileId options u).1 = .ok m ∧
      m.structures = ((typesOf fileId u).structures.filter Structure.isLinked).map Structure.declared ∧
        ∀ p ∈ m.procedures, Emitted (surroundingsOf m.structures (functionsOf fileId u)) (typesOf fileId u) options
          (functionsOf fileId u) p := by
  obtain ⟨m, hm, hstructs, hemitted⟩ := compileUnit_runnable fileId options u
    (IR.Surroundings.free_permits _ _) rfl fun _ _ _ _ _ _ => trivial
  refine ⟨m, hm, hstructs, fun p hp => ?_⟩
  rw [hstructs]
  exact (hemitted p hp).1

/-- **No unit makes the lowering break a promise**: `compileUnit` gives a module for every unit, with all options.
Errors in the program are reported beside it. -/
theorem compileUnit_ok (fileId : Nat) (options : Options) (u : SourceUnit) :
    ∃ m, (compileUnit fileId options u).1 = .ok m := by
  obtain ⟨m, hm, -, -⟩ := compileUnit_emits fileId options u
  exact ⟨m, hm⟩

/-- **Every procedure `p` with blocks is well-formed** (`Procedure.WellFormed`), its calls and structures being those of
the module `m`, and it has the name and types that callers of its function take it for (`Prototype`). -/
theorem procedure_wellFormed {fileId : Nat} {options : Options} {u : SourceUnit} {m : IR.Module}
    (hm : (compileUnit fileId options u).1 = .ok m) {p : IR.Procedure} (hp : p ∈ m.procedures)
    (hinternal : p.external = false) :
    p.WellFormed (surroundingsOf m.structures (functionsOf fileId u)) ∧
      (⟨p.name, p.parameters.map Argument.ty, p.returnType⟩ : Prototype) ∈
        (surroundingsOf m.structures (functionsOf fileId u)).prototypes := by
  obtain ⟨m', hm', -, hemitted⟩ := compileUnit_emits fileId options u
  cases hm.symm.trans hm'
  obtain ⟨f, hf, hok, types, htypes, hprototype, hemits⟩ := hemitted p hp
  refine ⟨?_, ?_⟩
  · cases hemits with
    | outside _ hexternal =>
      simp_all
    | inside _ _ _ hwellFormed => exact hwellFormed
  · rw [hprototype]
    refine mem_cons_of_mem _ (mem_filterMap.2 ⟨f, mem_filter.2 ⟨hf, by simp [hok]⟩, ?_⟩)
    rw [htypes.signature]
    rfl

/-- A function that gives the greater one of its argument and one, by a variable that only one branch assigns to. -/
def chooseUnit : SourceUnit where
  functions := [{
    name := "choose"
    parameters := [⟨"a", "i32", {}⟩]
    returnType := "i32"
    body := some ⟨[
      .declareAssign "i32" "x" (.constant ⟨.integer 1, {}⟩) {},
      .cond (.compare .greater (.place "a") (.constant ⟨.integer 1, {}⟩) {})
        ⟨[.assign "x" (.place "a") {}], {}⟩ [] none {},
      .ret (some (.place "x")) {}], {}⟩
    exported := true }]

/-- The emitted module of `chooseUnit` has a procedure with blocks, which is well-formed. -/
theorem chooseUnit_wellFormed :
    ∃ m, (compileUnit 0 {} chooseUnit).1 = .ok m ∧ ∃ p ∈ m.procedures, p.external = false ∧ p.blocks ≠ [] ∧
      p.WellFormed (surroundingsOf m.structures (functionsOf 0 chooseUnit)) := by
  obtain ⟨m, hm, p, hp, hinternal, hblocks⟩ : ∃ m, (compileUnit 0 {} chooseUnit).1 = .ok m ∧
      ∃ p ∈ m.procedures, p.external = false ∧ p.blocks ≠ [] := by decide +kernel
  exact ⟨m, hm, p, hp, hinternal, hblocks, (procedure_wellFormed hm hp hinternal).1⟩

end Lowering
