import Lowering.Proofs.Types.Catalog
/-!
# Resolving in two catalogs

A written type is resolved by looking up names, instances and structures. Where a second catalog has all of these, a
type that the first one resolves comes to the same in the second (`Grows.resolve`), unless a structure has been found
broken in the meantime: that of the type, or that of a type written in its arguments.
-/

namespace Lowering

/-- A type that is written in another one: it is the type itself, or written in one of its arguments. -/
inductive TypeName.Within (inner : TypeName) : TypeName → Prop where
  | self : Within inner inner
  | argument {ty outer : TypeName} : .type ty ∈ outer.arguments → Within inner ty → Within inner outer

namespace Catalog

variable {c c' : Catalog} {bindings : Bindings} {s : Structure} {ty : TypeName} {t : TypeRef}

/-! ### Instances -/

/-- The instance of the template of a name for some arguments. -/
def instanceNamed? (c : Catalog) (name : String) (arguments : List TypeRef) : Option Structure :=
  (c.template? name).bind fun x => c.instance? x.2 arguments

theorem instanceNamed?_eq_some_iff {arguments : List TypeRef} :
    c.instanceNamed? name arguments = some s ↔ ∃ id template place, c.names.lookup name = some (.template id) ∧
      c.templates[id]? = some template ∧ template.instances.lookup arguments = some place ∧
      c.structure? place = some s := by
  simp [instanceNamed?, instance?, template?_eq_some_iff, Option.bind_eq_some_iff, and_assoc]

theorem resolve_template {id} (hname : c.names.lookup ty.name.symbol = some (.template id))
    (hargs : ty.arguments ≠ []) :
    c.resolve bindings ty = (c.resolveArguments bindings ty.arguments).bind fun arguments =>
      (c.instanceNamed? ty.name.symbol arguments).elim (.error (.error (.unresolvableTemplate ty.text) ty.span))
        fun s => use s ty.depth ty.span := by
  obtain ⟨depth, name, arguments, span⟩ := ty
  rcases arguments with _ | ⟨first, rest⟩
  · exact absurd rfl hargs
  rw [resolve, resolveArguments]
  rw [hname]
  rcases c.resolveArgument bindings first with _ | argument
  · rfl
  rcases c.resolveArguments bindings rest with _ | arguments
  · rfl
  have hfound : ((c.template? name.symbol).bind fun x => c.instance? x.2 (argument :: arguments)) =
      c.instanceNamed? name.symbol (argument :: arguments) := rfl
  simp only [bind, Except.bind, pure, Except.pure, hfound]
  grind

/-! ### From one catalog to another -/

/-- `c'` has everything that `c` has, but for how far structures have come. -/
structure Grows (c c' : Catalog) : Prop where
  names : ∀ {name : String} {named : Named}, c.names.lookup name = some named → c'.names.lookup name = some named
  templates : ∀ {id : Nat} {t : Template}, c.templates[id]? = some t → ∃ t', c'.templates[id]? = some t' ∧
    t'.source = t.source ∧ ∀ {arguments : List TypeRef} {place : Nat}, t.instances.lookup arguments = some place →
      t'.instances.lookup arguments = some place
  structures : ∀ {place : Nat} {s : Structure}, c.structure? place = some s →
    ∃ status, c'.structure? place = some { s with status }

/-- A written type stands for a structure in `c` that is broken in `c'`, which is what `d` reports. -/
def Breaks (c c' : Catalog) (bindings : Bindings) (ty : TypeName) (d : Diagnostic) : Prop :=
  ∃ place s s', c.structure? place = some s ∧ s.hasFailed = false ∧ c'.structure? place = some s' ∧ s'.ref = s.ref ∧
    s'.hasFailed = true ∧ c.resolve bindings ty = .ok ⟨.struct s.ref, ty.depth.toNat⟩ ∧
    d = .error (.invalidType s.ref.name) ty.span

namespace Grows

theorem refl (c : Catalog) : c.Grows c := ⟨fun h => h, fun h => ⟨_, h, rfl, fun h => h⟩, fun h => ⟨_, h⟩⟩

theorem trans (h : c.Grows c') (h' : c'.Grows c'') : c.Grows c'' where
  names hname := h'.names (h.names hname)
  templates ht := by
    obtain ⟨t', ht', hsrc, hinstances⟩ := h.templates ht
    obtain ⟨t'', ht'', hsrc', hinstances'⟩ := h'.templates ht'
    exact ⟨t'', ht'', hsrc'.trans hsrc, fun hplace => hinstances' (hinstances hplace)⟩
  structures hs := by
    obtain ⟨status, hs'⟩ := h.structures hs
    obtain ⟨status', hs''⟩ := h'.structures hs'
    exact ⟨status', hs''⟩

theorem use (h : c.Grows c') {place : Nat} (hs : c.structure? place = some s) (ht : c.resolve bindings ty = .ok t)
    (huse : Catalog.use s ty.depth ty.span = .ok t) :
    ∃ s', c'.structure? place = some s' ∧ (Catalog.use s' ty.depth ty.span = .ok t ∨
      ∃ d, c.Breaks c' bindings ty d ∧ Catalog.use s' ty.depth ty.span = .error d) := by
  obtain ⟨rfl, hok⟩ := use_eq_ok huse
  obtain ⟨status, hs'⟩ := h.structures hs
  refine ⟨_, hs', ?_⟩
  rw [Catalog.use]
  cases hfailed : Structure.hasFailed { s with status } with
  | false => exact .inl rfl
  | true => exact .inr ⟨_, ⟨place, s, _, hs, hok, hs', rfl, hfailed, ht, rfl⟩, rfl⟩

theorem resolveName (h : c.Grows c') (hty : ty.arguments = []) (ht : c.resolve bindings ty = .ok t) :
    c'.resolve bindings ty = .ok t ∨ ∃ d, c.Breaks c' bindings ty d ∧ c'.resolve bindings ty = .error d := by
  have hresolve : ∀ c : Catalog, c.resolve bindings ty = c.resolveName bindings ty := by
    obtain ⟨depth, name, arguments, span⟩ := ty
    cases hty
    exact fun c => by rw [resolve]
  have hname := ht
  rw [hresolve] at hname ⊢
  unfold Catalog.resolveName at hname ⊢
  dsimp only at hname ⊢
  split at hname
  · exact .inl hname
  · exact .inl hname
  split at hname
  · cases hname
  · next hlook =>
    rw [h.names hlook]
    split at hname
    · next s hs =>
      obtain ⟨s', hs', houtcome⟩ := h.use hs ht hname
      dsimp only
      rw [hs']
      exact houtcome
    · cases hname
  · cases hname

theorem instanceNamed? (h : c.Grows c') {arguments : List TypeRef} (hs : c.instanceNamed? name arguments = some s) :
    ∃ place, c.structure? place = some s ∧
      ∀ s', c'.structure? place = some s' → c'.instanceNamed? name arguments = some s' := by
  obtain ⟨id, t, place, hname, ht, hplace, hs⟩ := instanceNamed?_eq_some_iff.1 hs
  obtain ⟨t', ht', -, hinstances⟩ := h.templates ht
  exact ⟨place, hs,
    fun s' hs' => instanceNamed?_eq_some_iff.2 ⟨id, t', place, h.names hname, ht', hinstances hplace, hs'⟩⟩

end Grows

theorem lookup_of_resolve (hargs : ty.arguments ≠ []) (h : c.resolve bindings ty = .ok t) :
    ∃ id, c.names.lookup ty.name.symbol = some (.template id) := by
  obtain ⟨depth, name, arguments, span⟩ := ty
  cases arguments with
  | nil => exact absurd rfl hargs
  | cons first rest =>
    grind [resolve]

mutual

/-- **What a written type stands for lasts**, unless a structure in it is broken by now. -/
theorem Grows.resolve (h : c.Grows c') : ∀ {ty : TypeName} {t : TypeRef}, c.resolve bindings ty = .ok t →
    c'.resolve bindings ty = .ok t ∨
      ∃ inner d, inner.Within ty ∧ c.Breaks c' bindings inner d ∧ c'.resolve bindings ty = .error d
  | ⟨depth, name, arguments, span⟩, t, ht => by
    by_cases hnone : arguments = []
    · obtain hsame | ⟨d, hbreaks, hd⟩ := h.resolveName hnone ht
      · exact .inl hsame
      · exact .inr ⟨_, d, .self, hbreaks, hd⟩
    obtain ⟨id, hname⟩ := lookup_of_resolve hnone ht
    have hfound := ht
    rw [resolve_template hname hnone] at hfound
    rw [resolve_template (h.names hname) hnone]
    obtain ⟨ts, hts, hfound⟩ := bind_eq_ok hfound
    obtain hsame | ⟨ty, inner, d, hmem, hwithin, hbreaks, hd⟩ := h.resolveArguments hts
    · rw [hsame]
      rcases hinst : c.instanceNamed? name.symbol ts with _ | s
      · simp_all
      rw [hinst] at hfound
      obtain ⟨place, hs, hcarried⟩ := h.instanceNamed? hinst
      obtain ⟨s', hs', houtcome⟩ := h.use hs ht hfound
      simp only [Except.bind, hcarried s' hs', Option.elim_some]
      obtain hsame | ⟨d, hbreaks, hd⟩ := houtcome
      · exact .inl hsame
      · exact .inr ⟨_, d, .self, hbreaks, hd⟩
    · rw [hd]
      exact .inr ⟨inner, d, .argument hmem hwithin, hbreaks, rfl⟩

theorem Grows.resolveArguments (h : c.Grows c') : ∀ {arguments} {ts : List TypeRef},
    c.resolveArguments bindings arguments = .ok ts → c'.resolveArguments bindings arguments = .ok ts ∨
      ∃ ty inner d, .type ty ∈ arguments ∧ inner.Within ty ∧ c.Breaks c' bindings inner d ∧
        c'.resolveArguments bindings arguments = .error d
  | [], ts, hts => by
    grind [Catalog.resolveArguments]
  | .constant constant :: rest, ts, hts => by
    cases hts
  | .type ty :: rest, ts, hts => by
    rw [Catalog.resolveArguments, resolveArgument] at hts ⊢
    obtain ⟨t, ht, hts⟩ := bind_eq_ok hts
    obtain ⟨ts, hrest, hts⟩ := bind_eq_ok hts
    obtain hsame | ⟨inner, d, hwithin, hbreaks, hd⟩ := h.resolve ht
    · rw [hsame]
      obtain hsame' | ⟨ty', inner, d, hmem, hwithin, hbreaks, hd⟩ := h.resolveArguments hrest
      · simp_all
      · rw [hd]
        exact .inr ⟨ty', inner, d, List.mem_cons_of_mem _ hmem, hwithin, hbreaks, rfl⟩
    · rw [hd]
      exact .inr ⟨ty, inner, d, .head _, hwithin, hbreaks, rfl⟩

end

end Catalog

end Lowering
