import Lowering.Proofs.Types.Catalog
/-!
# How instances are made

Making instances is followed call by call (`Makes`): a written type that names no template leads to its arguments, one
that does leads to its arguments and to the fields of a new instance one level further down, where only so many levels
are allowed. Every call comes to one end (`makes_iff`), although fields of a template can ask for ever larger instances.
-/

namespace Lowering

open List

/-! ### Types written in types -/

namespace TypeName

/-- The types that are arguments of a written type. -/
def inner (ty : TypeName) : List TypeName := ty.arguments.filterMap TemplateArgument.type?

theorem mem_inner {ty inner : TypeName} : inner ∈ ty.inner ↔ .type inner ∈ ty.arguments := by
  refine mem_filterMap.trans ⟨fun ⟨argument, hmem, hsome⟩ => ?_, fun hmem => ⟨_, hmem, rfl⟩⟩
  cases argument with
  | type ty =>
    cases hsome
    exact hmem
  | constant => cases hsome

theorem sum_inner_lt (ty : TypeName) : (ty.inner.map SizeOf.sizeOf).sum < SizeOf.sizeOf ty := by
  obtain ⟨depth, name, arguments, span⟩ := ty
  have hle : ((arguments.filterMap TemplateArgument.type?).map SizeOf.sizeOf).sum ≤ SizeOf.sizeOf arguments := by
    induction arguments with
    | nil => exact Nat.zero_le _
    | cons first rest ih =>
      rw [List.cons.sizeOf_spec]
      rcases first with ty | _
      · rw [filterMap_cons_some (f := TemplateArgument.type?) rfl, map_cons, sum_cons,
          TemplateArgument.type.sizeOf_spec]
        omega
      rw [filterMap_cons_none rfl]
      omega
  rw [TypeName.mk.sizeOf_spec]
  exact hle.trans_lt (by omega)

end TypeName

namespace Catalog

/-- What is next for an instance whose arguments are made: the catalog that has it, and the types of its fields with
what its parameters stand for, if it is a new one. -/
def openInstance (c : Catalog) (bindings : Bindings) (ty : TypeName) (id : Nat) :
    Except Diagnostic (Catalog × Bindings × List TypeName) := do
  let arguments ← c.resolveArguments bindings ty.arguments
  match c.templates[id]? with
  | none => return (c, [], [])
  | some template =>
    let source := template.source
    if arguments.length ≠ source.parameters.length then
      throw (.error (.unresolvableTemplate ty.text) ty.span)
    if (template.instances.lookup arguments).isSome then
      return (c, [], [])
    let inner := Bindings.ofPairs ((source.parameters.map Identifier.symbol).zip arguments)
    return (c.addInstance id template arguments, inner, source.fields.map FieldDefinition.ty)

/-- How making the instances of some written types ends, at a depth. Each rule is one way for a call to go on: nothing
bounds the calls but the depth, which the arguments of a type that names no template do not raise. -/
inductive Makes : Nat → Bindings → List TypeName → Catalog → EStateM.Result Diagnostic Catalog Unit → Prop where
  | nil {depth bindings c} : Makes depth bindings [] c (.ok () c)
  | plain {depth bindings ty rest c ending} :
    c.template? ty.name.symbol = none → Makes depth bindings (ty.inner ++ rest) c ending →
      Makes depth bindings (ty :: rest) c ending
  | tooDeep {depth bindings ty rest c id t} :
    c.template? ty.name.symbol = some (id, t) → nestingLimit < depth →
      Makes depth bindings (ty :: rest) c (.error (.error (.templateDepth ty.name.symbol) ty.span) c)
  | argumentFails {depth bindings ty rest c c' id t d} :
    c.template? ty.name.symbol = some (id, t) → depth ≤ nestingLimit →
      Makes (depth + 1) bindings ty.inner c (.error d c') → Makes depth bindings (ty :: rest) c (.error d c')
  | refused {depth bindings ty rest c c' id t d} :
    c.template? ty.name.symbol = some (id, t) → depth ≤ nestingLimit →
      Makes (depth + 1) bindings ty.inner c (.ok () c') → c'.openInstance bindings ty id = .error d →
      Makes depth bindings (ty :: rest) c (.error d c')
  | fieldFails {depth bindings inner ty rest types c c' opened c'' id t d} :
    c.template? ty.name.symbol = some (id, t) → depth ≤ nestingLimit →
      Makes (depth + 1) bindings ty.inner c (.ok () c') → c'.openInstance bindings ty id = .ok (opened, inner, types) →
      Makes (depth + 1) inner types opened (.error d c'') → Makes depth bindings (ty :: rest) c (.error d c'')
  | made {depth bindings inner ty rest types c c' opened c'' id t ending} :
    c.template? ty.name.symbol = some (id, t) → depth ≤ nestingLimit →
      Makes (depth + 1) bindings ty.inner c (.ok () c') → c'.openInstance bindings ty id = .ok (opened, inner, types) →
      Makes (depth + 1) inner types opened (.ok () c'') → Makes depth bindings rest c'' ending →
      Makes depth bindings (ty :: rest) c ending

variable {c c' c'' : Catalog} {bindings : Bindings} {ty : TypeName} {tys : List TypeName} {t : TypeRef}
  {id depth levels : Nat} {template : Template} {d : Diagnostic}

/-! ### One level -/

theorem get_eq (c : Catalog) : (get : Cataloging Catalog) c = .ok c c := rfl

theorem walkArguments_eq (deeper : Option (Bindings → TypeName → Cataloging Unit)) (bindings : Bindings)
    (arguments : List TemplateArgument) :
    walkArguments deeper bindings arguments = (arguments.filterMap TemplateArgument.type?).forM
      (walk deeper bindings) := by
  induction arguments with
  | nil => rw [walkArguments]; rfl
  | cons first rest ih =>
    cases first with
    | type | constant => rw [walkArguments, ih]; rfl

theorem instantiateWithin_plain (h : c.template? ty.name.symbol = none) (levels : Nat) (bindings : Bindings) :
    instantiateWithin levels bindings ty c = ty.inner.forM (instantiateWithin levels bindings) c := by
  have hwalk (deeper : Option (Bindings → TypeName → Cataloging Unit)) :
      walk deeper bindings ty c = ty.inner.forM (walk deeper bindings) c := by
    obtain ⟨depth, name, arguments, span⟩ := ty
    rw [walk]
    simp only [bind, EStateM.bind, get_eq, h]
    rw [walkArguments_eq]
    rfl
  cases levels <;> exact hwalk _

theorem instantiateWithin_zero (h : c.template? ty.name.symbol = some (id, template)) (bindings : Bindings) :
    instantiateWithin 0 bindings ty c = .error (.error (.templateDepth ty.name.symbol) ty.span) c := by
  obtain ⟨depth, name, arguments, span⟩ := ty
  rw [instantiateWithin, walk]
  simp only [bind, EStateM.bind, get_eq, h]
  rfl

/-- The arguments of a template are made before its instance. -/
theorem instantiateWithin_succ (h : c.template? ty.name.symbol = some (id, template)) (levels : Nat)
    (bindings : Bindings) : instantiateWithin (levels + 1) bindings ty c = (do
      ty.inner.forM (instantiateWithin levels bindings)
      makeInstance (instantiateWithin levels) bindings ty id : Cataloging Unit) c := by
  obtain ⟨depth, name, arguments, span⟩ := ty
  rw [instantiateWithin, walk]
  simp only [bind, EStateM.bind, get_eq, h]
  rfl

theorem makeInstance_eq (deeper : Bindings → TypeName → Cataloging Unit) (bindings : Bindings) (ty : TypeName)
    (id : Nat) : makeInstance deeper bindings ty id = (do
      let next ← Cataloging.ask fun c => c.openInstance bindings ty id
      set next.1
      next.2.2.forM (deeper next.2.1) : Cataloging Unit) := by
  funext c
  unfold makeInstance openInstance Cataloging.ask
  simp only [bind, EStateM.bind, Except.bind, get_eq]
  rcases c.resolveArguments bindings ty.arguments with _ | arguments
  · rfl
  dsimp only [pure, EStateM.pure]
  rcases c.templates[id]? with _ | template
  · rfl
  dsimp only
  split
  · rfl
  split
  · rfl
  · exact congrFun (forM_map (m := Cataloging) ..).symm _

theorem ask_of_ok {α : Type} {f} {a : α} (h : f c = .ok a) : Cataloging.ask f c = .ok a c := by
  unfold Cataloging.ask
  simp only [bind, EStateM.bind, get_eq, h]
  rfl

theorem ask_of_error {α : Type} {f : Catalog → Except Diagnostic α} (h : f c = .error d) :
    Cataloging.ask f c = .error d c := by
  unfold Cataloging.ask
  simp only [bind, EStateM.bind, get_eq, h]
  rfl

theorem openInstance_eq {arguments : List TypeRef} (hargs : c.resolveArguments bindings ty.arguments = .ok arguments)
    (ht : c.templates[id]? = some template) :
    c.openInstance bindings ty id =
      if arguments.length ≠ template.source.parameters.length then .error
        (.error (.unresolvableTemplate ty.text) ty.span)
      else if (template.instances.lookup arguments).isSome then .ok (c, [], [])
      else .ok (c.addInstance id template arguments,
        Bindings.ofPairs ((template.source.parameters.map Identifier.symbol).zip arguments),
        template.source.fields.map FieldDefinition.ty) := by
  unfold openInstance
  rw [hargs]
  dsimp only [bind, Except.bind]
  rw [ht]
  dsimp only
  split
  · rfl
  · split <;> rfl

/-- An instance that is opened is there, or it is added. -/
theorem openInstance_inv {inner} {types : List TypeName} (h : c.openInstance bindings ty id = .ok (c', inner, types)) :
    ∃ arguments, c.resolveArguments bindings ty.arguments = .ok arguments ∧
      ((c' = c ∧ types = [] ∧ ∀ t, c.templates[id]? = some t → ∃ place, t.instances.lookup arguments = some place) ∨
      ∃ t, c.templates[id]? = some t ∧ arguments.length = t.source.parameters.length ∧
        t.instances.lookup arguments = none ∧ c' = c.addInstance id t arguments ∧
        inner = Bindings.ofPairs ((t.source.parameters.map Identifier.symbol).zip arguments) ∧
        types = t.source.fields.map FieldDefinition.ty) := by
  obtain ⟨arguments, hargs, hrest⟩ := bind_eq_ok h
  refine ⟨arguments, hargs, ?_⟩
  rcases ht : c.templates[id]? with _ | t
  · rw [ht] at hrest
    cases hrest
    simp
  rw [openInstance_eq hargs ht] at h
  split at h
  · cases h
  rename_i hlen
  split at h
  · next hold =>
    cases h
    refine .inl ⟨rfl, rfl, fun _ ht' => ?_⟩
    cases ht'
    exact Option.isSome_iff_exists.1 hold
  rename_i hnew
  cases h
  exact .inr ⟨t, rfl, not_not.1 hlen, Option.not_isSome_iff_eq_none.1 hnew, rfl, rfl, rfl⟩

/-! ### All levels -/

/-- **Every rule is right** about what is done within the levels that are left. -/
theorem Makes.eq_forM {ending : EStateM.Result Diagnostic Catalog Unit} (h : Makes depth bindings tys c ending)
    (hlevels : depth + levels = nestingLimit + 1) : tys.forM (instantiateWithin levels bindings) c = ending := by
  induction h generalizing levels with
  | nil => rfl
  | plain hplain _ ih =>
    rw [← ih hlevels]
    refine .trans ?_ (congrFun (forM_append (m := Cataloging)) _).symm
    show EStateM.bind _ _ _ = EStateM.bind _ _ _
    rw [EStateM.bind, instantiateWithin_plain hplain]
    rfl
  | tooDeep ht hdeep =>
    cases show levels = 0 by omega
    exact bind_of_error (instantiateWithin_zero ht _) _
  | argumentFails ht hdepth _ ih =>
    obtain ⟨levels, rfl⟩ : ∃ n, levels = n + 1 := ⟨levels - 1, by omega⟩
    refine bind_of_error ((instantiateWithin_succ ht ..).trans ?_) _
    exact bind_of_error (ih (by omega)) _
  | refused ht hdepth _ hopen ih =>
    obtain ⟨levels, rfl⟩ : ∃ n, levels = n + 1 := ⟨levels - 1, by omega⟩
    refine bind_of_error ((instantiateWithin_succ ht ..).trans ?_) _
    rw [bind_of_ok (ih (by omega)), makeInstance_eq]
    exact bind_of_error (ask_of_error hopen) _
  | fieldFails ht hdepth _ hopen _ ihArguments ihFields =>
    obtain ⟨levels, rfl⟩ : ∃ n, levels = n + 1 := ⟨levels - 1, by omega⟩
    refine bind_of_error ((instantiateWithin_succ ht ..).trans ?_) _
    rw [bind_of_ok (ihArguments (by omega)), makeInstance_eq, bind_of_ok (ask_of_ok hopen)]
    exact ihFields (by omega)
  | made ht hdepth _ hopen _ _ ihArguments ihFields ihRest =>
    rw [← ihRest hlevels]
    obtain ⟨levels, rfl⟩ : ∃ n, levels = n + 1 := ⟨levels - 1, by omega⟩
    refine bind_of_ok (a := ()) ((instantiateWithin_succ ht ..).trans ?_) _
    rw [bind_of_ok (ihArguments (by omega)), makeInstance_eq, bind_of_ok (ask_of_ok hopen)]
    exact ihFields (by omega)

/-- One level: what is written can only be taken apart so often. -/
theorem exists_makes_of_deeper
    (hdeeper : depth ≤ nestingLimit → ∀ bindings tys c, ∃ ending, Makes (depth + 1) bindings tys c ending)
    (bindings : Bindings) (tys : List TypeName) (c : Catalog) : ∃ ending, Makes depth bindings tys c ending := by
  induction hsize : (tys.map SizeOf.sizeOf).sum using Nat.strongRecOn generalizing tys c with
  | _ size ih =>
    subst hsize
    rcases tys with _ | ⟨ty, rest⟩
    · exact ⟨_, .nil⟩
    have hinner := ty.sum_inner_lt
    rw [map_cons, sum_cons] at ih
    cases ht : c.template? ty.name.symbol with
    | none =>
      have hless : ((ty.inner ++ rest).map SizeOf.sizeOf).sum < SizeOf.sizeOf ty + (rest.map SizeOf.sizeOf).sum := by
        simp_all
      obtain ⟨ending, h⟩ := ih _ hless _ c rfl
      exact ⟨ending, .plain ht h⟩
    | some found =>
      by_cases hdepth : depth ≤ nestingLimit
      · obtain ⟨ending, h⟩ := hdeeper hdepth bindings ty.inner c
        cases ending with
        | error => exact ⟨_, .argumentFails ht hdepth h⟩
        | ok _ c' =>
          cases hopen : c'.openInstance bindings ty found.1 with
          | error => exact ⟨_, .refused ht hdepth h hopen⟩
          | ok next =>
            obtain ⟨ending, hfields⟩ := hdeeper hdepth next.2.1 next.2.2 next.1
            cases ending with
            | error => exact ⟨_, .fieldFails ht hdepth h hopen hfields⟩
            | ok _ c'' =>
              obtain ⟨ending, hrest⟩ := ih _ (by omega) rest c'' rfl
              exact ⟨ending, .made ht hdepth h hopen hfields hrest⟩
      · exact ⟨_, .tooDeep ht (Nat.lt_of_not_le hdepth)⟩

/-- **Every call comes to an end**, and to one only. -/
theorem makes_iff (hlevels : depth + levels = nestingLimit + 1) :
    Makes depth bindings tys c ending ↔ ending = tys.forM (instantiateWithin levels bindings) c := by
  have hexists : ∃ ending, Makes depth bindings tys c ending := by
    induction levels generalizing depth bindings tys c with
    | zero => exact exists_makes_of_deeper (fun hdepth => absurd hdepth (by omega)) _ _ _
    | succ levels ih => exact exists_makes_of_deeper (fun _ _ _ _ => ih (by omega)) _ _ _
  refine ⟨fun h => (h.eq_forM hlevels).symm, fun h => ?_⟩
  obtain ⟨ending, hmakes⟩ := hexists
  rw [h, hmakes.eq_forM hlevels]
  exact hmakes

theorem makes_instantiate : Makes 0 bindings [ty] c ending ↔ ending = c.instantiate bindings ty := by
  rw [makes_iff (Nat.zero_add (nestingLimit + 1))]
  have hone : [ty].forM (instantiateWithin (nestingLimit + 1) bindings) c = c.instantiate bindings ty := by
    show EStateM.bind (instantiate bindings ty) _ c = _
    unfold EStateM.bind
    cases instantiate bindings ty c <;> rfl
  rw [hone]

end Catalog

end Lowering
