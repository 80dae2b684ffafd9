import Lowering.Proofs.Types.Stability
/-!
# Which instances are made

Every call comes to an end, and when it ends well, the fields of all new instances have the instances they need
(`instantiate_ends`). And where nothing is missing nothing is made (`makesNothing_of_resolve`), unless a name that is
bound to a type is that of a template too: the name is then taken for the template.
-/

namespace Lowering

open List

namespace TypeName

mutual

/-- How deep arguments are nested in a written type. -/
def nesting : TypeName → Nat
  | ⟨_, _, arguments, _⟩ => nestingOf arguments

/-- How deep arguments are nested, with themselves. -/
def nestingOf : List TemplateArgument → Nat
  | [] => 0
  | .type ty :: rest => max (nesting ty + 1) (nestingOf rest)
  | .constant _ :: rest => nestingOf rest

end

theorem nesting_lt {ty inner : TypeName} (h : inner ∈ ty.inner) : inner.nesting < ty.nesting := by
  obtain ⟨depth, name, arguments, span⟩ := ty
  have hmem : .type inner ∈ arguments := mem_inner.1 h
  rw [nesting]
  clear h
  induction arguments with
  | nil => cases hmem
  | cons first rest ih =>
    rcases hmem with _ | ⟨_, hmem⟩
    · rw [nestingOf]
      omega
    have hrest := ih hmem
    cases first with
    | type =>
      rw [nestingOf]
      omega
    | constant => rwa [nestingOf]

end TypeName

namespace Catalog

variable {c c' : Catalog} {bindings : Bindings} {ty : TypeName} {tys : List TypeName} {t : TypeRef} {id levels : Nat}

/-- **Making instances comes to an end**, for every written type and from every catalog: what the rules for its calls
(`Makes`) lead to is what `instantiate` gives, which is a catalog that has the instances or a diagnostic. And all that
is written in the fields of the structures it adds is there when it ends well, also where templates ask for themselves
or for each other. -/
theorem instantiate_ends {fileId : Nat} :
    (∀ c bindings ty ending, Makes 0 bindings [ty] c ending ↔ ending = c.instantiate bindings ty) ∧
    ∀ c c' bindings ty, Relation.ReflTransGen Step { fileId } c → c.instantiate bindings ty = .ok () c' →
      ∀ place s field inner id, c.structure? place = none → c'.structure? place = some s → field ∈ s.source.fields →
        inner.Within field.ty → c'.names.lookup inner.name.symbol = some (.template id) →
          c'.StandsFor s.bindings inner id := by
  refine ⟨fun _ _ _ _ => makes_instantiate,
    fun c c' bindings ty hsteps hok place s field inner id hnew hs hfield hwithin hname => ?_⟩
  obtain ⟨hcompletes, -⟩ := (makes_instantiate.2 rfl).completes (steps_grow hsteps (.empty fileId)).1 hok
  exact hcompletes.fields hnew hs field hfield inner id hwithin hname

/-- A crate of boxes, which mentions another crate like it. -/
def crateDefinition : StructureDefinition where
  name := "Crate"
  parameters := ["T"]
  fields := [
    ⟨"boxed", ⟨0, "Box", [.type "T"], {}⟩, {}⟩,
    ⟨"next", ⟨1, "Crate", [.type "T"], {}⟩, {}⟩]

/-- Boxes and crates of anything. -/
def crateTypes : Catalog where
  fileId := 0
  names := [("Crate", .template 1), ("Box", .template 0)]
  templates := [⟨boxDefinition, []⟩, ⟨crateDefinition, []⟩]

def crateOfNumbers : TypeName := ⟨0, "Crate", [.type "i32"], {}⟩

/-- The crate that a crate of numbers mentions is itself, which is only begun when its fields ask for it. -/
theorem instantiate_ends_crateOfNumbers : Relation.ReflTransGen Step { fileId := 0 } crateTypes ∧
    ∃ c, crateTypes.instantiate [] crateOfNumbers = .ok () c ∧ Makes 0 [] [crateOfNumbers] crateTypes (.ok () c) ∧
      ∃ s, c.structure? 0 = some s ∧ ∀ field ∈ s.source.fields, ∀ id,
        c.names.lookup field.ty.name.symbol = some (.template id) → c.StandsFor s.bindings field.ty id := by
  have hsteps : Relation.ReflTransGen Step { fileId := 0 } crateTypes := (Relation.ReflTransGen.single (.declare
    (show Catalog.declare { fileId := 0 } boxDefinition = _ from rfl))).tail
    (.declare (show Catalog.declare _ crateDefinition = _ from rfl))
  refine ⟨hsteps, _, rfl, ((@instantiate_ends 0).1 ..).2 rfl, _, rfl, fun field hfield id hname => ?_⟩
  exact (@instantiate_ends 0).2 crateTypes _
    [] crateOfNumbers hsteps rfl 0 _ field field.ty id rfl rfl hfield .self hname

/-! ### Names that are bound -/

/-- What holds of declared names at every moment: none is that of a built-in type, and structures and templates have the
names they stand under. -/
structure NamesAgree (c : Catalog) : Prop where
  foreign : ∀ {name : String} {named : Named}, c.names.lookup name = some named → Primitive.ofName? name = none
  titled : ∀ {name : String} {id : Nat}, c.names.lookup name = some (.struct id) →
    ∃ s, c.structure? id = some s ∧ s.ref.name = name
  headed : ∀ {name : String} {id : Nat}, c.names.lookup name = some (.template id) →
    ∃ t, c.templates[id]? = some t ∧ t.source.name.symbol = name

namespace Grows

theorem titled (h : c.Grows c') (hs : ∃ s, c.structure? id = some s ∧ s.ref.name = name) :
    ∃ s, c'.structure? id = some s ∧ s.ref.name = name := by
  obtain ⟨s, hs, hname⟩ := hs
  obtain ⟨status, hs'⟩ := h.structures hs
  exact ⟨_, hs', hname⟩

theorem headed (h : c.Grows c') (ht : ∃ t, c.templates[id]? = some t ∧ t.source.name.symbol = name) :
    ∃ t, c'.templates[id]? = some t ∧ t.source.name.symbol = name := by
  obtain ⟨t, ht, hname⟩ := ht
  obtain ⟨t', ht', hsrc, -⟩ := h.templates ht
  exact ⟨t', ht', by rwa [hsrc]⟩

end Grows

theorem NamesAgree.empty (fileId : Nat) : NamesAgree { fileId } where
  foreign h := by cases h
  titled h := by cases h
  headed h := by cases h

theorem NamesAgree.mono (h : c.NamesAgree) (hgrows : c.Grows c') (hnames : c'.names = c.names) : c'.NamesAgree where
  foreign hname := h.foreign (hnames ▸ hname)
  titled hname := hgrows.titled (h.titled (hnames ▸ hname))
  headed hname := hgrows.headed (h.headed (hnames ▸ hname))

theorem declare_foreign (h : c.declare definition = .ok c') :
    Primitive.ofName? definition.name.symbol = none := by
  unfold declare at h
  dsimp only at h
  split at h
  · cases h
  simp_all

theorem declare_lookup (h : c.declare definition = .ok c')
    (hname : c'.names.lookup name = some named) : c.names.lookup name = some named ∨ name = definition.name.symbol := by
  by_cases hsame : name = definition.name.symbol
  · exact .inr hsame
  · obtain ⟨-, ⟨-, represent, rfl⟩ | ⟨-, rfl⟩⟩ := declare_inv h <;>
      exact .inl (by rwa [lookup_cons, beq_false_of_ne hsame] at hname)

theorem NamesAgree.declare (hc : c.NamesAgree) (h : c.declare definition = .ok c') :
    c'.NamesAgree where
  foreign hname := by
    obtain hname | rfl := declare_lookup h hname
    · exact hc.foreign hname
    · exact declare_foreign h
  titled hname := by
    obtain hold | rfl := declare_lookup h hname
    · exact (declare_grows h).titled (hc.titled hold)
    obtain ⟨-, ⟨-, represent, rfl⟩ | ⟨-, rfl⟩⟩ := declare_inv h
    · cases hname.symm.trans lookup_cons_self
      exact ⟨_, List.getElem?_concat_length .., rfl⟩
    · simp_all
  headed hname := by
    obtain hold | rfl := declare_lookup h hname
    · exact (declare_grows h).headed (hc.headed hold)
    obtain ⟨-, ⟨-, represent, rfl⟩ | ⟨-, rfl⟩⟩ := declare_inv h
    · simp_all
    · simp_all

theorem names_stable (names : List (String × Named)) : Stable (fun c => c.names = names) fun _ _ _ => True where
  add h _ _ _ _ _ := ⟨h, fun _ _ => trivial⟩
  arguments _ _ _ := trivial
  mono _ _ := trivial

theorem Step.namesAgree (h : Step c c') (hc : c.Orderly) (hnames : c.NamesAgree) : c'.NamesAgree := by
  have hgrows := (h.grows hc).2
  cases h with
  | declare h => exact hnames.declare h
  | instantiate h => exact hnames.mono hgrows (((names_stable _).instantiate rfl trivial).of_ok h).1
  | instantiateSome h => exact hnames.mono hgrows (((names_stable _).instantiate rfl trivial).of_error h).1
  | link =>
    exact hnames.mono hgrows (linkEach_preserves (P := fun c' => c'.names = c.names) (fun h _ _ => h) rfl _).1

theorem steps_namesAgree {fileId} (h : Relation.ReflTransGen Step { fileId } c) : c.NamesAgree := by
  induction h with
  | refl => exact .empty fileId
  | tail hsteps hstep ih => exact hstep.namesAgree (steps_grow hsteps (.empty fileId)).1 ih

/-- A name without arguments that is bound to a type and is that of a template too. -/
def Clashes (c : Catalog) (bindings : Bindings) (ty : TypeName) : Prop :=
  ty.arguments = [] ∧ (bindings.lookup ty.name.symbol).isSome ∧ (c.template? ty.name.symbol).isSome

/-- How making the instances of a written type ends that has them all: with nothing done, unless a name in it
clashes. -/
def MakesNothing (c : Catalog) (bindings : Bindings) (ty : TypeName) (ending : EStateM.Result Diagnostic Catalog Unit) :
    Prop :=
  (ending = .ok () c ∧ ∀ inner, inner.Within ty → ¬ c.Clashes bindings inner) ∨
    ∃ first, first.Within ty ∧ c.Clashes bindings first ∧
      ending = .error (.error (.unresolvableTemplate first.text) first.span) c

theorem resolve_of_resolveArguments {ts : List TypeRef} (h : c.resolveArguments bindings arguments = .ok ts)
    {ty : TypeName} (hty : .type ty ∈ arguments) : ∃ t, c.resolve bindings ty = .ok t := by
  induction arguments generalizing ts with
  | nil => cases hty
  | cons first rest ih =>
    obtain ⟨t, ht, h⟩ := bind_eq_ok h
    obtain ⟨ts, hts, -⟩ := bind_eq_ok h
    grind [resolveArgument]

theorem MakesNothing.forM {f : TypeName → Cataloging Unit} (h : ∀ ty ∈ tys, c.MakesNothing bindings ty (f ty c)) :
    (tys.forM f c = .ok () c ∧ ∀ ty ∈ tys, ∀ inner, inner.Within ty → ¬ c.Clashes bindings inner) ∨
      ∃ ty ∈ tys, ∃ first, first.Within ty ∧ c.Clashes bindings first ∧
        tys.forM f c = .error (.error (.unresolvableTemplate first.text) first.span) c := by
  induction tys with
  | nil => exact .inl ⟨rfl, fun _ hmem => absurd hmem not_mem_nil⟩
  | cons ty rest ih =>
    obtain ⟨hfirst, hrest⟩ := forall_mem_cons.1 h
    obtain ⟨hok, hclear⟩ | ⟨first, hwithin, hclash, herr⟩ := hfirst
    · obtain ⟨hok', hclear'⟩ | ⟨ty', hmem, first, hwithin, hclash, herr⟩ := ih hrest
      · exact .inl ⟨(bind_of_ok hok _).trans hok', forall_mem_cons.2 ⟨hclear, hclear'⟩⟩
      · exact .inr ⟨ty', .tail _ hmem, first, hwithin, hclash, (bind_of_ok hok _).trans herr⟩
    · exact .inr ⟨ty, .head _, first, hwithin, hclash, bind_of_error herr _⟩

theorem openInstance_of_resolve (hc : c.Orderly) (hname : c.names.lookup ty.name.symbol = some (.template id))
    (hargs : ty.arguments ≠ []) (h : c.resolve bindings ty = .ok t) :
    c.openInstance bindings ty id = .ok (c, [], []) ∧ ∃ ts, c.resolveArguments bindings ty.arguments = .ok ts := by
  rw [resolve_template hname hargs] at h
  obtain ⟨ts, hts, h⟩ := bind_eq_ok h
  refine ⟨?_, ts, hts⟩
  rcases hfound : c.instanceNamed? ty.name.symbol ts with _ | s
  · rw [hfound] at h
    cases h
  obtain ⟨id', template, place, hname', ht, hplace, -⟩ := instanceNamed?_eq_some_iff.1 hfound
  cases hname.symm.trans hname'
  obtain ⟨_, _, ht', -, hlen, -⟩ := (hc.owned ht).made hplace
  simp_all [openInstance_eq hts ht]

theorem resolve_eq_resolveName (hty : ty.arguments = []) : c.resolve bindings ty = c.resolveName bindings ty := by
  obtain ⟨depth, name, arguments, span⟩ := ty
  cases hty
  rw [resolve]

theorem makesNothing_name (hc : c.Orderly) (hnames : c.NamesAgree) (hty : ty.arguments = [])
    (h : c.resolve bindings ty = .ok t) :
    c.MakesNothing bindings ty (instantiateWithin (levels + 1) bindings ty c) := by
  have hinner : ty.inner = [] := by rw [TypeName.inner, hty]; rfl
  rcases htemplate : c.template? ty.name.symbol with _ | found
  · rw [instantiateWithin_plain htemplate, hinner]
    refine .inl ⟨rfl, fun inner hwithin hclash => ?_⟩
    cases hwithin with
    | self =>
      obtain ⟨-, -, hsome⟩ := hclash
      simp_all
    | argument hmem =>
      simp_all
  obtain ⟨id, template⟩ := found
  obtain ⟨hname, ht⟩ := template?_eq_some_iff.1 htemplate
  have hopen : c.openInstance bindings ty id = .error (.error (.unresolvableTemplate ty.text) ty.span) := by
    have hargs : c.resolveArguments bindings ty.arguments = .ok [] := by rw [hty, resolveArguments]
    rw [openInstance_eq hargs ht, if_pos fun hnone => (hc.owned ht).parameters (length_eq_zero_iff.1 hnone.symm)]
  rw [instantiateWithin_succ htemplate, hinner]
  refine .inr ⟨ty, .self, ⟨hty, ?_, by rw [htemplate]; rfl⟩, ?_⟩
  · -- Declared names are not those of built-in types, so it was resolved as a bound name.
    rw [resolve_eq_resolveName hty, resolveName, hnames.foreign hname] at h
    grind
  show makeInstance _ _ _ _ c = _
  rw [makeInstance_eq]
  exact bind_of_error (ask_of_error hopen) _

/-- **Where all instances are there none is made**, whatever levels are left beyond those a written type has itself. -/
theorem makesNothing_of_resolve (hc : c.Orderly) (hnames : c.NamesAgree) (hlevels : ty.nesting < levels)
    (h : c.resolve bindings ty = .ok t) : c.MakesNothing bindings ty (instantiateWithin levels bindings ty c) := by
  induction levels generalizing ty t with
  | zero => omega
  | succ levels ih =>
    by_cases hnone : ty.arguments = []
    · exact makesNothing_name hc hnames hnone h
    obtain ⟨id, hname⟩ := lookup_of_resolve hnone h
    obtain ⟨template, ht⟩ := hc.listed hname
    obtain ⟨hopen, ts, hts⟩ := openInstance_of_resolve hc hname hnone h
    rw [instantiateWithin_succ (template?_eq_some_iff.2 ⟨hname, ht⟩)]
    have hinner : ∀ inner ∈ ty.inner, c.MakesNothing bindings inner (instantiateWithin levels bindings inner c) := by
      intro inner hmem
      obtain ⟨t, ht⟩ := resolve_of_resolveArguments hts (TypeName.mem_inner.1 hmem)
      have hless := TypeName.nesting_lt hmem
      exact ih (by omega) ht
    obtain ⟨hok, hclear⟩ | ⟨inner, hmem, first, hwithin, hclash, herr⟩ := MakesNothing.forM hinner
    · refine .inl ⟨?_, fun inner hwithin => ?_⟩
      · rw [bind_of_ok hok, makeInstance_eq, bind_of_ok (ask_of_ok hopen)]
        rfl
      cases hwithin with
      | self => exact fun hclash => hnone hclash.1
      | argument hmem hwithin => exact hclear _ (TypeName.mem_inner.2 hmem) inner hwithin
    · exact .inr ⟨first, .argument (TypeName.mem_inner.1 hmem) hwithin, hclash, bind_of_error herr _⟩

/-- **Making instances agrees with resolving.** Where `resolve` gives `ty` a type, so that nothing is missing,
`instantiate` makes nothing and leaves the catalog as it is, unless a name in `ty` that is bound to a type is that of a
template too (`Clashes`). Such a name is resolved to what it is bound to, but instances are made by declared names
alone: it is taken for the template, without the arguments that it needs. -/
theorem instantiate_of_resolve {fileId : Nat} (hc : Relation.ReflTransGen Step { fileId } c)
    (hnesting : ty.nesting ≤ nestingLimit) (h : c.resolve bindings ty = .ok t) :
    ((∀ inner, inner.Within ty → ¬ c.Clashes bindings inner) → c.instantiate bindings ty = .ok () c) ∧
    ∀ clash, clash.Within ty → c.Clashes bindings clash → ∃ first, first.Within ty ∧ c.Clashes bindings first ∧
      c.instantiate bindings ty = .error (.error (.unresolvableTemplate first.text) first.span) c := by
  obtain ⟨horderly, -⟩ := steps_grow hc (.empty fileId)
  obtain ⟨hok, hclear⟩ | ⟨first, hfirst, hclashes, herror⟩ :=
    makesNothing_of_resolve horderly (steps_namesAgree hc) (Nat.lt_succ_of_le hnesting) h
  · exact ⟨fun _ => hok, fun clash hclash hclashes => absurd hclashes (hclear clash hclash)⟩
  · exact ⟨fun hclear => absurd hclashes (hclear first hfirst), fun _ _ _ => ⟨first, hfirst, hclashes, herror⟩⟩

/-- A box of a node that is there is not made again, with the name `X` bound. With `Box` bound, the name is resolved to
what it is bound to, but taken for the template. -/
theorem instantiate_of_resolve_boxOfNode : Relation.ReflTransGen Step { fileId := 0 } boxTypes ∧
    boxOfNode.nesting ≤ nestingLimit ∧ (∃ t, boxTypes.resolve [("X", .primitive .bool)] boxOfNode = .ok t) ∧
    boxTypes.instantiate [("X", .primitive .bool)] boxOfNode = .ok () boxTypes ∧
    boxTypes.Clashes [("Box", .primitive .bool)] "Box" ∧
    ∃ first, boxTypes.Clashes [("Box", .primitive .bool)] first ∧
      boxTypes.instantiate [("Box", .primitive .bool)] "Box" =
      .error (.error (.unresolvableTemplate first.text) first.span) boxTypes := by
  have hnesting : boxOfNode.nesting ≤ nestingLimit := by decide
  have hclash : boxTypes.Clashes [("Box", .primitive .bool)] "Box" := ⟨rfl, rfl, rfl⟩
  refine ⟨boxTypes_reachable, hnesting, ⟨_, rfl⟩, ?_, hclash, ?_⟩
  · refine (instantiate_of_resolve boxTypes_reachable hnesting rfl).1 fun inner hwithin hclash => ?_
    obtain ⟨hnone, hbound, htemplate⟩ := hclash
    cases hwithin with
    | self => cases hnone
    | argument hmem hwithin =>
      cases mem_singleton.1 hmem
      cases hwithin with
      | self => cases htemplate
      | argument hmem => cases hmem
  · obtain ⟨first, -, hfirst, hfails⟩ :=
      (instantiate_of_resolve boxTypes_reachable (by decide) rfl).2 _ .self hclash
    exact ⟨first, hfirst, hfails⟩

/-- A pair of things, named as the parameter of a box. -/
def pairDefinition : StructureDefinition where
  name := "T"
  parameters := ["X"]
  fields := [⟨"first", "X", {}⟩, ⟨"second", "X", {}⟩]

/-- The parameter of a box of truth values is resolved, but its instances cannot be made where a template has its
name. -/
theorem instantiate_fails_boundName :
    ∃ c, Relation.ReflTransGen Step { fileId := 0 } c ∧
      c.resolve [("T", .primitive .bool)] "T" = .ok (.primitive .bool) ∧
      c.instantiate [("T", .primitive .bool)] "T" = .error (.error (.unresolvableTemplate "T") {}) c :=
  ⟨_, (Relation.ReflTransGen.single (.declare (show Catalog.declare { fileId := 0 } pairDefinition = _ from rfl))).tail
    (.declare (show Catalog.declare _ boxDefinition = _ from rfl)), rfl, rfl⟩

end Catalog

end Lowering
