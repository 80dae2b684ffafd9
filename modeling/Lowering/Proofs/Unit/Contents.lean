import Mathlib.Data.List.Perm.Basic
import Lowering.Proofs.Types.Direct
import Lowering.Proofs.Unit.Overloads
/-!
# What the module of a unit without errors holds

Problems are found in five places: structures that cannot be declared, instances that cannot be made, structures that
cannot be laid out, functions whose types cannot be resolved or that repeat another one, and bodies. Each of them is
reported unless the same problem was reported before, so one error at least is left behind. Without errors the catalog
holds the structures of the unit and the instances of its templates and nothing else (`Catalog.Inventory`), all of them
laid out, and every function that is not abstract has its procedure (`compileUnit_contents`).
-/

namespace Lowering

open List
open IR (Argument Procedure StructDeclaration)

/-! ### Structures -/

/-- Whether a definition is one of a structure rather than of a template. -/
def StructureDefinition.isPlain (d : StructureDefinition) : Bool := d.parameters.isEmpty

/-- The name in code of a structure that is declared in a file. -/
def StructureDefinition.codeName (fileId : Nat) (d : StructureDefinition) : String :=
  if d.external then s!"struct.{d.name.symbol}" else s!"struct.{d.name.symbol}.{Base36.numeral fileId}"

/-- A structure is the one of a definition. -/
structure Structure.Is (fileId : Nat) (d : StructureDefinition) (s : Structure) : Prop where
  source : s.source = d
  name : s.ref.name = d.name.symbol
  represent : s.ref.represent = d.codeName fileId
  bindings : s.bindings = []

/-- A structure is the instance of a template for some arguments. -/
structure Structure.Instantiates (t : Template) (arguments : List TypeRef) (s : Structure) : Prop where
  source : s.source = t.source
  name : s.ref.name = Catalog.instanceName t.source.name.symbol arguments
  bindings : s.bindings = Bindings.ofPairs ((t.source.parameters.map Identifier.symbol).zip arguments)

namespace Catalog

/-- What a catalog holds: first the structures of the definitions that are not templates, in order, and behind them one
structure for each instance of a template. -/
structure Inventory (fileId : Nat) (definitions : List StructureDefinition) (c : Catalog) : Prop where
  file : c.fileId = fileId
  plain : Forall₂ (Structure.Is fileId) (definitions.filter StructureDefinition.isPlain)
    (c.structures.take (definitions.countP StructureDefinition.isPlain))
  templates : c.templates.map Template.source = definitions.filter fun d => !d.isPlain
  places : ((c.templates.flatMap Template.instances).map Prod.snd).Perm
    (List.range' (definitions.countP StructureDefinition.isPlain)
      (c.structures.length - definitions.countP StructureDefinition.isPlain))
  instances : ∀ t ∈ c.templates, ∀ x ∈ t.instances, ∃ s, c.structure? x.2 = some s ∧ s.Instantiates t x.1

variable {fileId : Nat} {c c' : Catalog} {definitions : List StructureDefinition} {definition : StructureDefinition}

theorem Inventory.countP_le (h : c.Inventory fileId definitions) :
    definitions.countP StructureDefinition.isPlain ≤ c.structures.length := by
  have hlen := h.plain.length_eq
  grind

/-! Declaring structures, while there are no instances yet. -/

def Uninstantiated (c : Catalog) : Prop := ∀ t ∈ c.templates, t.instances = []

theorem Uninstantiated.flatMap_eq (h : c.Uninstantiated) : c.templates.flatMap Template.instances = [] :=
  flatMap_eq_nil_iff.2 h

theorem Inventory.length_eq (h : c.Inventory fileId definitions) (hnone : c.Uninstantiated) :
    c.structures.length = definitions.countP StructureDefinition.isPlain := by
  have hplaces := h.places.length_eq
  rw [hnone.flatMap_eq, map_nil, length_nil, length_range'] at hplaces
  have := h.countP_le
  omega

theorem inventory_empty (fileId : Nat) : Inventory fileId [] { fileId } where
  file := rfl
  plain := .nil
  templates := rfl
  places := .refl _
  instances _ ht := by cases ht

theorem Uninstantiated.inventory (hnone : c.Uninstantiated) (hfile : c.fileId = fileId)
    (hplain : Forall₂ (Structure.Is fileId) (definitions.filter StructureDefinition.isPlain) c.structures)
    (htemplates : c.templates.map Template.source = definitions.filter fun d => !d.isPlain) :
    c.Inventory fileId definitions := by
  have hlen : c.structures.length = definitions.countP StructureDefinition.isPlain := by
    rw [countP_eq_length_filter, hplain.length_eq]
  refine ⟨hfile, ?_, htemplates, ?_, fun t ht x hx => ?_⟩
  · grind
  · rw [hnone.flatMap_eq, hlen, Nat.sub_self]
    exact .refl _
  · rw [hnone t ht] at hx
    cases hx

theorem Inventory.declare (h : c.Inventory fileId definitions) (hnone : c.Uninstantiated)
    (hc' : c.declare definition = .ok c') : c'.Inventory fileId (definitions ++ [definition]) ∧ c'.Uninstantiated := by
  have hplain := h.plain
  rw [← h.length_eq hnone, take_length] at hplain
  unfold Catalog.declare at hc'
  dsimp only at hc'
  split at hc'
  · cases hc'
  split at hc'
  · next hparams =>
    cases hc'
    have hisPlain : definition.isPlain = true := hparams
    refine ⟨Uninstantiated.inventory hnone h.file ?_ ?_, hnone⟩
    · rw [filter_append, filter_cons_of_pos hisPlain]
      exact rel_append hplain (.cons ⟨rfl, rfl, by rw [← h.file]; rfl, rfl⟩ .nil)
    · rw [filter_append, filter_cons_of_neg (by simp [hisPlain]), filter_nil, append_nil]
      exact h.templates
  rename_i hparams
  cases hc'
  have hisPlain : definition.isPlain = false := Bool.eq_false_iff.2 hparams
  have hnone' : Uninstantiated { c with
      templates := c.templates ++ [{ source := definition }]
      names := (definition.name.symbol, .template c.templates.length) :: c.names } :=
    forall_mem_append.2 ⟨hnone, by simp⟩
  refine ⟨hnone'.inventory h.file ?_ ?_, hnone'⟩
  · simp [*]
  · simp [h.templates, hisPlain]

theorem declare_blames (c : Catalog) (definition : StructureDefinition) : Blames (c.declare definition) := by
  unfold Catalog.declare
  dsimp only
  split
  · exact .error ⟨rfl, rfl⟩
  split
  · exact .ok _
  · exact .ok _

/-! Making instances. -/

theorem flatMap_instances_set {templates : List Template} {id t} (ht : templates[id]? = some t)
    (entry : List TypeRef × Nat) :
    ((templates.set id { t with instances := t.instances ++ [entry] }).flatMap Template.instances).Perm
      (templates.flatMap Template.instances ++ [entry]) := by
  obtain ⟨hid, rfl⟩ := List.getElem?_eq_some_iff.1 ht
  have hsplit := take_append_drop id templates
  rw [drop_eq_getElem_cons hid] at hsplit
  conv_rhs => rw [← hsplit]
  rw [set_eq_take_append_cons_drop, if_pos hid]
  simp only [flatMap_append, flatMap_cons, append_assoc]
  exact (perm_append_comm.append_left _).append_left _

theorem Inventory.addInstance (h : c.Inventory fileId definitions) {id : Nat}
    (ht : c.templates[id]? = some t) (arguments : List TypeRef) :
    (c.addInstance id t arguments).Inventory fileId definitions := by
  have hadds := addInstance_adds c id t arguments
  have hle := h.countP_le
  have hlen : (c.addInstance id t arguments).structures.length = c.structures.length + 1 := length_append
  constructor
  case file => exact h.file
  case plain =>
    have htake : (c.addInstance id t arguments).structures.take (definitions.countP StructureDefinition.isPlain) =
        c.structures.take (definitions.countP StructureDefinition.isPlain) := take_append_of_le_length hle
    rw [htake]
    exact h.plain
  case templates =>
    rw [← h.templates]
    refine ext_getElem? fun i => ?_
    show ((c.templates.set id _).map Template.source)[i]? = _
    grind
  case places =>
    have hrange : c.structures.length + 1 - definitions.countP StructureDefinition.isPlain =
        c.structures.length - definitions.countP StructureDefinition.isPlain + 1 := by omega
    have hlast : definitions.countP StructureDefinition.isPlain +
        (c.structures.length - definitions.countP StructureDefinition.isPlain) = c.structures.length := by omega
    rw [hlen, hrange, List.range'_concat, Nat.one_mul, hlast]
    refine ((flatMap_instances_set ht (arguments, c.structures.length)).map Prod.snd).trans ?_
    rw [map_append]
    exact h.places.append_right _
  case instances =>
    have hold : ∀ t' ∈ c.templates, ∀ x ∈ t'.instances, ∃ s,
        (c.addInstance id t arguments).structure? x.2 = some s ∧ s.Instantiates t' x.1 := by
      intro t' ht' x hx
      obtain ⟨s, hs, hinst⟩ := h.instances t' ht' x hx
      exact ⟨s, hadds.structure?_old hs, hinst⟩
    intro t' ht' x hx
    obtain ht' | rfl := mem_or_eq_of_mem_set ht'
    · exact hold t' ht' x hx
    obtain hx | hx := mem_append.1 hx
    · obtain ⟨s, hs, hinst⟩ := hold t (mem_of_getElem? ht) x hx
      exact ⟨s, hs, hinst.source, hinst.name, hinst.bindings⟩
    · cases mem_singleton.1 hx
      exact ⟨_, List.getElem?_concat_length .., rfl, rfl, rfl⟩

theorem inventory_stable : Stable (Inventory fileId definitions) fun _ _ _ => True where
  add hc _ htemplate _ _ _ := ⟨hc.addInstance htemplate _, fun _ _ => trivial⟩
  arguments _ _ _ := trivial
  mono _ _ := trivial

/-! Laying structures out. -/

theorem Inventory.of_untried (h : c.untried.Inventory fileId definitions) : c.Inventory fileId definitions where
  file := h.file
  plain := by
    have hplain := h.plain
    rw [untried, ← map_take, forall₂_map_right_iff] at hplain
    exact hplain.imp fun d s hs => ⟨hs.source, hs.name, hs.represent, hs.bindings⟩
  templates := h.templates
  places := by
    have hplaces := h.places
    grind [untried]
  instances t ht x hx := by
    obtain ⟨s0, hs0, hinst⟩ := h.instances t ht x hx
    rw [structure?_untried] at hs0
    obtain ⟨s, hs, rfl⟩ := Option.map_eq_some_iff.1 hs0
    exact ⟨s, hs, hinst.source, hinst.name, hinst.bindings⟩

/-- A structure that was tried and is not broken is laid out. -/
theorem Unbroken.isLinked (h : c.Unbroken) (hsettled : c.Settled) : ∀ s ∈ c.structures, s.isLinked = true := by
  intro s hs
  obtain ⟨id, hid⟩ := mem_iff_getElem?.1 hs
  simpa [h id s hid] using s.ne_pending_iff.1 (hsettled id s hid)

end Catalog

/-! ### The types of a unit -/

section Types

variable {fileId : Nat} {u : SourceUnit} {r : Reporter}

/-- Without an error, every structure and every template was declared. -/
theorem declareStructures_inventory (hr : r.Honest) (hc : c.Inventory fileId earlier)
    (hnone : c.Uninstantiated) (h : (declareStructures c r definitions).2.hasErrors = false) :
    (declareStructures c r definitions).1.Inventory fileId (earlier ++ definitions) := by
  induction definitions generalizing c r earlier with
  | nil => rwa [append_nil]
  | cons definition rest ih =>
    rw [declareStructures] at h ⊢
    split at h
    · next c' hc' =>
      obtain ⟨hc', hnone'⟩ := hc.declare hnone hc'
      rw [append_cons]
      exact ih hr hc' hnone' h
    rename_i d hd
    have hthrown := (declareStructures_leads _ c rest (hr.throw d)).2 h
    cases hthrown.symm.trans (Reporter.hasErrors_throw hr (.inr (c.declare_blames definition d hd).1))

/-- **The types of a unit without errors** are its structures and the instances of its templates, and none of them is
broken. -/
theorem catalogOf_complete (h : (catalogOf fileId u {}).2.hasErrors = false) :
    (catalogOf fileId u {}).1.Inventory fileId u.structures ∧ (catalogOf fileId u {}).1.Unbroken := by
  -- Every phase leaves the errors of the phases before.
  obtain ⟨hdeclare, -⟩ := declareStructures_leads {} { fileId } u.structures Reporter.honest_empty
  obtain ⟨hinstantiate, hmade⟩ :=
    instantiateAll_leads _ (declareStructures { fileId } {} u.structures).1 u.writtenTypes hdeclare
  have hlinked := (Reporter.leads_throwAll _ (unlinkedOf fileId u {}).link.2 hinstantiate).2 h
  have hfresh := unlinkedOf_fresh fileId u {}
  constructor
  · refine Catalog.Inventory.of_untried ?_
    rw [(catalogOf_traces fileId u {}).untried]
    exact instantiateAll_induct Catalog.inventory_stable (fun _ _ _ => trivial)
      (declareStructures_inventory Reporter.honest_empty (Catalog.inventory_empty fileId)
        (by simp [Catalog.Uninstantiated]) (hmade hlinked)) _
  refine (Catalog.linkEach_tries (unlinkedOf_sound fileId u {}) (.refl hfresh) _).2.1 ?_ fun id s hs => ?_
  · refine eq_nil_iff_forall_not_mem.2 fun d hd => ?_
    have herr := (Catalog.linkEach_preserves (P := fun _ => True) (fun _ _ _ => trivial) trivial _).2 d hd
    cases (hinstantiate.quiet h hd).symm.trans herr
  · rw [Structure.hasFailed, hfresh id s hs]

/-- A structure is declared under its name in code, with the storage of the fields of its definition in order. -/
structure Structure.DeclaredAs (c : Catalog) (s : Structure) (d : StructDeclaration) : Prop where
  name : d.name = s.ref.represent
  fields : Forall₂ (fun field ty => ∃ t, c.resolveValue s.bindings field.ty = .ok t ∧ t.storageType = ty)
    s.source.fields d.fields

theorem declared_declaredAs (hunbroken : (catalogOf fileId u {}).1.Unbroken)
    (hs : s ∈ (catalogOf fileId u {}).1.structures) (hlinked : s.isLinked = true) :
    s.DeclaredAs (catalogOf fileId u {}).1 s.declared := by
  obtain ⟨id, hid⟩ := mem_iff_getElem?.1 hs
  obtain ⟨layout, hlayout⟩ := Option.isSome_iff_exists.1 hlinked
  have hgrows := Catalog.untried_grows (catalogOf fileId u {}).1
  rw [(catalogOf_traces fileId u {}).untried] at hgrows
  refine ⟨rfl, ?_⟩
  rw [Structure.declared, hlayout]
  refine forall₂_map_right_iff.2 (((catalogOf_traces fileId u {}).described id s layout hid hlayout).matched.imp ?_)
  rintro field f ⟨-, hty, -⟩
  exact ⟨f.ty, hgrows.resolveValue hunbroken hty, rfl⟩

end Types

/-! ### Procedures -/

/-- Whether a definition has neither a body nor one provided from outside. -/
def FunctionDefinition.isAbstract (d : FunctionDefinition) : Bool := d.body.isNone && !d.external

/-- The name in code of the function at a place of a file. -/
def FunctionDefinition.codeName (fileId place : Nat) (d : FunctionDefinition) : String :=
  if d.external || d.exported then d.name.symbol
  else s!"{d.name.symbol}.{Base36.numeral fileId}.{Base36.numeral place}"

/-- A procedure is the one of the function at a place: it takes the address for a linear result before the arguments,
and then returns nothing. -/
structure FunctionDefinition.HasProcedure (fileId : Nat) (c : Catalog) (d : FunctionDefinition × Nat) (p : Procedure) :
    Prop where
  name : p.name = d.1.codeName fileId d.2
  external : p.external = d.1.body.isNone
  types : ∃ types, Function.resolveSignature c d.1 = .ok types ∧
    p.parameters.map Argument.ty =
      (if types.returnType.isLinear then [types.returnType.irType] else []) ++ types.parameters.map TypeRef.irType ∧
    p.returnType = if types.returnType.isLinear then .void else types.returnType.irType

theorem forall₂_filter_filterMap {α β γ : Type} {as bs keep} {g : β → Option γ}
    {R : α → γ → Prop}
    (h : Forall₂ (fun a b => keep a = true ∧ (∃ c, g b = some c ∧ R a c) ∨ keep a = false ∧ g b = none) as bs) :
    Forall₂ R (as.filter keep) (bs.filterMap g) := by
  induction h with
  | nil => exact .nil
  | cons hab _ ih =>
    obtain ⟨hkeep, c, hc, hR⟩ | ⟨hkeep, hnone⟩ := hab
    · simp_all
    · simp [*]

section Unit

variable {fileId : Nat} {options : Options} {u : SourceUnit}

/-- A function that was compiled has a procedure, unless it is abstract. -/
theorem procedureOf_hasProcedure (hplace : (functionsOf fileId u).functions[place]? = some f)
    (hok : f.failed = false)
    (hproc : (compileFunction (typesOf fileId u) (functionsOf fileId u) options f).procedure = .ok procedure) :
    (!f.source.isAbstract) = true ∧
        (∃ p, procedureOf (typesOf fileId u) (functionsOf fileId u) options f = some p ∧
          FunctionDefinition.HasProcedure fileId (typesOf fileId u) (f.source, place) p) ∨
      (!f.source.isAbstract) = false ∧ procedureOf (typesOf fileId u) (functionsOf fileId u) options f = none := by
  obtain ⟨types, hlinked⟩ := functionsOf_sound fileId u f (mem_of_getElem? hplace) hok
  have hyields := hlinked.yields options
  rw [procedureOf, hproc]
  rw [hproc] at hyields
  rcases procedure with _ | p
  · have habs : f.source.isAbstract = true := hyields
    simp [habs]
  obtain ⟨hproto, hemits, -⟩ := hyields
  have habs : f.source.isAbstract = false := isAbstract_of_compiled hproc
  refine .inl ⟨by rw [habs]; rfl, p, rfl, ?_, ?_, types, hlinked.resolved, ?_⟩
  · have hname : p.name = f.represent :=
      (congrArg IR.Prototype.name hproto).trans (f.prototype_name types)
    exact hname.trans (functionsOf_named fileId u hplace)
  · cases hemits with
    | outside hbody hext => rw [hext, hbody]; rfl
    | inside hbody _ hflattens => rw [hflattens.internal, hbody]; rfl
  · grind [Function.prototype]

/-- **Nothing is dropped silently.** Without errors the module of `compileUnit` has one procedure for each function of
`u` that is not abstract, in order, under the name in code that belongs to its place and with the types of its
definition (`HasProcedure`), and one declaration for each structure of the catalog (`DeclaredAs`), which holds the
structures of `u` and all instances of its templates (`Inventory`). -/
theorem compileUnit_contents (h : (compileUnit fileId options u).2.hasErrors = false) :
    ∃ m, (compileUnit fileId options u).1 = .ok m ∧
      Forall₂ (FunctionDefinition.HasProcedure fileId (typesOf fileId u))
        (u.functions.zipIdx.filter fun d => !d.1.isAbstract) m.procedures ∧
      Forall₂ (Structure.DeclaredAs (typesOf fileId u)) (typesOf fileId u).structures m.structures ∧
      (typesOf fileId u).Inventory fileId u.structures := by
  obtain ⟨hm, hall⟩ := compileUnit_complete h
  have htypes : (catalogOf fileId u {}).2.hasErrors = false :=
    (Reporter.leads_throwAll _ _ (catalogOf_honest fileId u)).2 (reportsOf_hasErrors h)
  obtain ⟨hinventory, hunbroken⟩ := catalogOf_complete htypes
  have hlinked : ∀ s ∈ (typesOf fileId u).structures, s.isLinked = true :=
    hunbroken.isLinked (typesOf_sound fileId u).2
  refine ⟨_, hm, ?_, ?_, hinventory⟩
  · -- Functions stand where their definitions do.
    refine forall₂_filter_filterMap ?_
    rw [← functionsOf_source fileId u, zipIdx_map, forall₂_map_left_iff]
    have hself : (functionsOf fileId u).functions = (functionsOf fileId u).functions.zipIdx.map Prod.fst := by
      rw [zipIdx_map_fst]
    conv => rhs; rw [hself]
    rw [forall₂_map_right_iff, forall₂_same]
    intro x hx
    have hplace := mem_zipIdx_iff_getElem?.1 hx
    obtain ⟨hok, procedure, hprocedure⟩ := hall x.1 (mem_of_getElem? hplace)
    exact procedureOf_hasProcedure hplace hok hprocedure
  · show Forall₂ _ _ (((typesOf fileId u).structures.filter Structure.isLinked).map Structure.declared)
    rw [filter_eq_self.2 hlinked, forall₂_map_right_iff, forall₂_same]
    exact fun s hs => declared_declaredAs hunbroken hs (hlinked s hs)

end Unit

/-- A structure and a template, an instance of which is used; a function from outside, an abstract one, one with a
linear result and one that calls it. -/
def boxUnit : SourceUnit where
  structures := [
    ⟨"Pair", [], [⟨"a", "i32", {}⟩, ⟨"b", "bool", {}⟩], false, {}⟩,
    ⟨"Box", ["T"], [⟨"value", "T", {}⟩], false, {}⟩]
  functions := [
    { constantFunction "puts" [("x", "i32")] false (.constant ⟨.integer 0, {}⟩) with body := none, external := true },
    { constantFunction "later" [("x", "bool")] false (.constant ⟨.integer 0, {}⟩) with body := none },
    { constantFunction "make" [("x", "Pair")] false (.constant ⟨.integer 0, {}⟩) with
      returnType := box
      body := some ⟨[.declare box "b" {},
        .assign ⟨"b", [.field "value"], {}⟩ (.place "x") {},
        .ret (some (.place "b")) {}], {}⟩ },
    constantFunction "main" [] true (.call ⟨"puts", [.constant ⟨.integer 1, {}⟩], {}⟩)]
where
  /-- The instance of the template for pairs. -/
  box : TypeName := ⟨0, "Box", [.type "Pair"], {}⟩

/-- Three of the four functions have a procedure, and the structure and the instance are declared. -/
theorem compileUnit_contents_boxUnit :
    ∃ m, (compileUnit 7 {} boxUnit).2.hasErrors = false ∧ (compileUnit 7 {} boxUnit).1 = .ok m ∧
      m.procedures.map Procedure.name = ["puts", "make.7.2", "main"] ∧
      m.structures.map StructDeclaration.name = ["struct.Pair.7", "struct.Box.7.0"] ∧
      Forall₂ (FunctionDefinition.HasProcedure 7 (typesOf 7 boxUnit))
        (boxUnit.functions.zipIdx.filter fun d => !d.1.isAbstract) m.procedures ∧
      (typesOf 7 boxUnit).Inventory 7 boxUnit.structures := by
  have herrors : (compileUnit 7 {} boxUnit).2.hasErrors = false := by decide +kernel
  obtain ⟨m, hm, hnames, hstructures⟩ : ∃ m, (compileUnit 7 {} boxUnit).1 = .ok m ∧
      m.procedures.map Procedure.name = ["puts", "make.7.2", "main"] ∧
      m.structures.map StructDeclaration.name = ["struct.Pair.7", "struct.Box.7.0"] := by decide +kernel
  obtain ⟨m', hm', hprocedures, -, hinventory⟩ := compileUnit_contents herrors
  cases hm.symm.trans hm'
  exact ⟨m, herrors, hm, hnames, hstructures, hprocedures, hinventory⟩

end Lowering
