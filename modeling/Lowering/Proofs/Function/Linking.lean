import Mathlib.Data.List.Basic
import Lowering.Function.Registry
/-!
# What linking makes of functions

What tells functions apart is the name and the types of the parameters (`FunctionDefinition.overload?`). A function can
be called if its types can be resolved and none that was declared before it is told by the same. Marking reads marks
that it has set itself, but of the functions that share name and types one is always left to be found, the first of
them; so a function is marked exactly if one before it shares them, whether that one is marked or not
(`repetition?_eq`). There is one report for each function that cannot be called (`Unlinked.link_complaints`).
-/

namespace Lowering

open List

/-- A name and the types of arguments. -/
abbrev Overload := String × List TypeRef

/-- What tells functions apart, if the types can be resolved. -/
def FunctionDefinition.overload? (c : Catalog) (definition : FunctionDefinition) : Option Overload :=
  match Function.resolveSignature c definition with
  | .ok signature => some (definition.name.symbol, signature.parameters)
  | .error _ => none

/-- What there is to report about a function that cannot be called. -/
def FunctionDefinition.complaint (c : Catalog) (definition : FunctionDefinition) : Diagnostic :=
  match Function.resolveSignature c definition with
  | .ok signature => .error (.duplicateFunction definition.name.symbol signature.parameters) definition.name.span
  | .error d => d

namespace Function

/-- What tells a function apart, once its types are resolved. -/
def overload? (f : Function) : Option Overload := f.signature.map fun signature => (f.name, signature.parameters)

/-- A function as resolving its types leaves it. -/
structure Resolved (c : Catalog) (f : Function) : Prop where
  signature : f.signature = (resolveSignature c f.source).toOption
  failed : f.failed = f.signature.isNone

@[simp] theorem marked_marked (f : Function) : f.marked.marked = f.marked := rfl

variable {c : Catalog} {f : Function}

theorem overload?_eq (h : f.signature = (resolveSignature c f.source).toOption) :
    f.overload? = f.source.overload? c := by
  unfold overload? FunctionDefinition.overload?
  rw [h]
  cases resolveSignature c f.source <;> rfl

/-- What linking leaves of a function as it was. -/
def kept (f : Function) : FunctionDefinition × String := (f.source, f.represent)

theorem kept_link (c : Catalog) (f : Function) : (f.link c).2.kept = f.kept := by
  unfold link
  split
  · rfl
  · split <;> rfl

theorem source_link (c : Catalog) (f : Function) : (f.link c).2.source = f.source := (Prod.mk.inj (kept_link c f)).1

theorem link_resolved (hsig : f.signature = none) (hfailed : f.failed = false) : (f.link c).2.Resolved c := by
  unfold link
  rw [hsig]
  dsimp only
  split
  · next signature hresolve => exact ⟨by rw [hresolve]; rfl, hfailed⟩
  · next d hresolve => exact ⟨by rw [hresolve]; rfl, rfl⟩

theorem accepts_iff {types : List TypeRef} :
    f.accepts types = true ↔ f.failed = false ∧
      ∃ signature, f.signature = some signature ∧ signature.parameters = types := by
  grind [accepts]

theorem accepts_iff_overload? {name} {types : List TypeRef} :
    (f.name == name && f.accepts types) = true ↔ f.failed = false ∧ f.overload? = some (name, types) := by
  rw [Bool.and_eq_true, accepts_iff, overload?]
  constructor
  · simp_all
  · simp_all

end Function

namespace Registry

/-! ### Functions that repeat others -/

/-- Functions, each with whether it is told by the same as one before it. -/
def withRepeats (seen : List Overload) : List Function → List (Function × Bool)
  | [] => []
  | f :: rest => (f, f.overload?.any seen.contains) :: withRepeats (seen ++ f.overload?.toList) rest

/-- A function with its mark, if its name is among certain ones and it repeats another one. -/
def markOf (among : String → Bool) (x : Function × Bool) : Function := if among x.1.name && x.2 then x.1.marked else x.1

/-- The report of a function that repeats another one. -/
def reportOf (x : Function × Bool) : Option Diagnostic :=
  if x.2 then
    x.1.signature.map fun signature => .error (.duplicateFunction x.1.name signature.parameters) x.1.source.name.span
  else none

/-- Among functions called `name`, whatever tells one of them tells one that can be called. -/
def Offered (name : String) (functions : List Function) : Prop :=
  ∀ o ∈ functions.filterMap Function.overload?, o.1 = name → ∃ f ∈ functions, f.failed = false ∧ f.overload? = some o

section Marking

variable {name : String} {earlier rest : List Function} {f : Function}

/-- A function repeats one that can be called if it repeats one at all. -/
theorem repetition?_eq (h : Offered name earlier) (hname : f.name = name) :
    repetition? earlier f = reportOf (f, f.overload?.any (earlier.filterMap Function.overload?).contains) := by
  unfold repetition? reportOf Function.overload?
  rcases hsig : f.signature with _ | signature
  · simp
  have hany : (earlier.any fun e => e.name == f.name && e.accepts signature.parameters) =
      (earlier.filterMap Function.overload?).contains (f.name, signature.parameters) := by
    rw [Bool.eq_iff_iff, any_eq_true, contains_iff_mem]
    constructor
    · rintro ⟨e, he, haccepts⟩
      exact mem_filterMap.2 ⟨e, he, (Function.accepts_iff_overload?.1 haccepts).2⟩
    intro hseen
    obtain ⟨e, he, hoffered⟩ := h _ hseen hname
    exact ⟨e, he, Function.accepts_iff_overload?.2 hoffered⟩
  simp only [hany, Option.map_some, Option.any_some]
  rfl

theorem Offered.snoc (h : Offered name earlier)
    (hg : ∀ o, g.overload? = some o → o.1 = name → o ∈ earlier.filterMap Function.overload? ∨ g.failed = false) :
    Offered name (earlier ++ [g]) := by
  have hold : ∀ o ∈ earlier.filterMap Function.overload?, o.1 = name →
      ∃ f ∈ earlier ++ [g], f.failed = false ∧ f.overload? = some o := by
    intro o ho hname
    obtain ⟨f, hf, hoffered⟩ := h o ho hname
    exact ⟨f, mem_append_left _ hf, hoffered⟩
  intro o ho hname
  grind

theorem filterMap_overload?_singleton (f : Function) : [f].filterMap Function.overload? = f.overload?.toList := by
  rfl

/-- **A function is marked exactly if it repeats an earlier one**, whether that one is marked itself or not. -/
theorem markGroup_eq (hearlier : Offered name earlier)
    (hrest : ∀ f ∈ rest, f.name = name → f.failed = f.signature.isNone) :
    markGroup name earlier rest =
      (earlier ++ (withRepeats (earlier.filterMap Function.overload?) rest).map (markOf (· == name)),
        ((withRepeats (earlier.filterMap Function.overload?) rest).filter fun x => x.1.name == name).filterMap
          reportOf) := by
  induction rest generalizing earlier with
  | nil => simp [markGroup, withRepeats]
  | cons f rest ih =>
    obtain ⟨hf, hrest⟩ := forall_mem_cons.1 hrest
    rw [markGroup, withRepeats]
    by_cases hname : f.name = name
    case neg =>
      have hsnoc : Offered name (earlier ++ [f]) := hearlier.snoc fun o ho hsame => by
        obtain ⟨signature, -, rfl⟩ := Option.map_eq_some_iff.1 ho
        exact absurd hsame hname
      simp [ih hsnoc hrest, filterMap_overload?_singleton, markOf, hname]
    case pos =>
      rw [if_pos (beq_iff_eq.2 hname), repetition?_eq hearlier hname]
      cases hrepeats : f.overload?.any (earlier.filterMap Function.overload?).contains with
      | false =>
        have hsnoc : Offered name (earlier ++ [f]) := hearlier.snoc fun o ho _ => by
          obtain ⟨signature, hsig, -⟩ := Option.map_eq_some_iff.1 ho
          simp [*]
        simp [ih hsnoc hrest, filterMap_overload?_singleton, markOf, reportOf, hname]
      | true =>
        obtain ⟨o, hoverload, hseen⟩ := (Option.any_eq_true _ _).1 hrepeats
        obtain ⟨signature, hsig, -⟩ := Option.map_eq_some_iff.1 hoverload
        have hsame : f.marked.overload? = f.overload? := rfl
        have hsnoc : Offered name (earlier ++ [f.marked]) := hearlier.snoc fun o' ho' _ => by
          simp_all
        simp [ih hsnoc hrest, markOf, reportOf, *]

end Marking

/-! ### Marks -/

section Orders

variable (among : String → Bool) (x : Function × Bool)

theorem kept_markOf : (markOf among x).kept = x.1.kept := by
  unfold markOf
  split <;> rfl

@[simp] theorem markOf_source : (markOf among x).source = x.1.source := (Prod.mk.inj (kept_markOf among x)).1

@[simp] theorem markOf_signature : (markOf among x).signature = x.1.signature := by
  unfold markOf
  split <;> rfl

theorem markOf_failed : (markOf (fun _ => true) x).failed = (x.1.failed || x.2) := by
  unfold markOf
  cases x.2 <;> simp [Function.marked]

@[simp] theorem markOf_name : (markOf among x).name = x.1.name := congrArg (·.name.symbol) (markOf_source among x)

@[simp] theorem markOf_overload? : (markOf among x).overload? = x.1.overload? := by
  unfold Function.overload?
  simp

theorem withRepeats_fst (seen : List Overload) (functions : List Function) :
    (withRepeats seen functions).map Prod.fst = functions := by
  induction functions generalizing seen with
  | nil => rfl
  | cons f rest ih => rw [withRepeats, map_cons, ih]

theorem fst_mem_of_mem_withRepeats {x seen functions} (h : x ∈ withRepeats seen functions) : x.1 ∈ functions := by
  rw [← withRepeats_fst seen functions]
  exact mem_map_of_mem h

theorem withRepeats_markOf (seen : List Overload) (functions : List Function) :
    withRepeats seen ((withRepeats seen functions).map (markOf among)) =
      (withRepeats seen functions).map fun x => (markOf among x, x.2) := by
  induction functions generalizing seen with
  | nil => rfl
  | cons f rest ih => simp [withRepeats, ih]

theorem markOf_markOf (more : String → Bool) :
    markOf more (markOf among x, x.2) = markOf (fun name => among name || more name) x := by
  rw [markOf, markOf_name, markOf, markOf]
  cases x.2 <;> cases among x.1.name <;> cases more x.1.name <;> simp

theorem reportOf_markOf : reportOf (markOf among x, x.2) = reportOf x := by
  simp [reportOf]

end Orders

theorem flatMap_filter_perm {α : Type} (key : α → String) (l : List α) {names : List String} (hnames : names.Nodup)
    (hl : ∀ a ∈ l, key a ∈ names) : (names.flatMap fun name => l.filter fun a => key a == name).Perm l := by
  have hfilter :
      (names.flatMap fun name => l.filter fun a => key a == name).Perm (l.filter fun a => key a ∈ names) := by
    clear hl
    induction names with
    | nil => simp
    | cons name names ih =>
      obtain ⟨hname, hnames⟩ := nodup_cons.1 hnames
      -- Behind those of the first name come the others whose names are listed.
      have hperm := filter_append_perm (fun a => key a == name) (l.filter fun a => key a ∈ name :: names)
      rw [filter_filter, filter_filter] at hperm
      have hfirst :
          l.filter (fun a => key a == name && decide (key a ∈ name :: names)) = l.filter fun a => key a == name :=
        filter_congr fun a _ => by grind
      have hothers :
          l.filter (fun a => !(key a == name) && decide (key a ∈ name :: names)) = l.filter fun a => key a ∈ names :=
        filter_congr fun a _ => by grind
      rw [hfirst, hothers] at hperm
      exact ((ih hnames).append_left _).trans hperm
  rwa [filter_eq_self.2 fun a ha => decide_eq_true (hl a ha)] at hfilter

/-- **Names can be gone through in any order.** -/
theorem markGroups_eq {names} (hnames : names.Nodup) {functions}
    (hfns : ∀ f ∈ functions, f.name ∈ names → f.failed = f.signature.isNone) :
    markGroups names functions =
      ((withRepeats [] functions).map (markOf names.contains),
        names.flatMap
          fun name => ((withRepeats [] functions).filter fun x => x.1.name == name).filterMap reportOf) := by
  induction names generalizing functions with
  | nil =>
    have hnone : markOf ([] : List String).contains = Prod.fst := funext fun x => by simp [markOf]
    rw [hnone, withRepeats_fst]
    rfl
  | cons name names ih =>
    obtain ⟨hname, hnames⟩ := nodup_cons.1 hnames
    have hfirst : markGroup name [] functions = _ := markGroup_eq (by simp [Offered]) fun f hf hsame =>
      hfns f hf (mem_cons.2 (.inl hsame))
    -- Functions with other names are as they were.
    have hrest :
        ∀ f ∈ (withRepeats [] functions).map (markOf (· == name)), f.name ∈ names → f.failed = f.signature.isNone := by
      intro f hf hlisted
      obtain ⟨x, hx, rfl⟩ := mem_map.1 hf
      rw [markOf_name] at hlisted
      have hother : (x.1.name == name) = false := beq_false_of_ne fun hsame => hname (hsame ▸ hlisted)
      have hsame : markOf (· == name) x = x.1 := by simp [markOf, hother]
      rw [hsame]
      exact hfns x.1 (fst_mem_of_mem_withRepeats hx) (.tail _ hlisted)
    have hcontains : (name :: names).contains = fun n => n == name || names.contains n := funext fun n => contains_cons
    simp [markGroups, hcontains, hfirst, ih hnames hrest, withRepeats_markOf, Function.comp_def, markOf_markOf,
      filter_map, reportOf_markOf]


/-! ### The order of the names -/

section Names

variable {order names : List String} {name : String}

theorem nodup_eraseDups {α : Type} [BEq α] [LawfulBEq α] (l : List α) : l.eraseDups.Nodup := by
  induction hlength : l.length using Nat.strongRecOn generalizing l with
  | ind n ih =>
    cases l with
    | nil => simp
    | cons a rest =>
      rw [eraseDups_cons, nodup_cons]
      refine ⟨by simp [mem_eraseDups], ih _ ?_ _ rfl⟩
      have := length_filter_le (fun b => !b == a) rest
      simp only [length_cons] at hlength
      omega

theorem nodup_groupNames (order names : List String) : (groupNames order names).Nodup := nodup_eraseDups _

theorem mem_groupNames : name ∈ groupNames order names ↔ name ∈ names := by
  simp only [groupNames, mem_eraseDups, mem_append, mem_filter, contains_iff_mem]
  tauto

/-- Every order of the names can be asked for. -/
theorem groupNames_eq (hnodup : order.Nodup) (hsame : ∀ name, name ∈ order ↔ name ∈ names) :
    groupNames order names = order := by
  have hkept : order.filter names.contains = order := filter_eq_self.2 fun name h => by simpa using (hsame name).1 h
  have hnone : names.removeAll order = [] := by
    rw [List.removeAll, filter_eq_nil_iff]
    intro name h
    simpa using (hsame name).2 h
  rw [groupNames, hkept, eraseDups_append, hnone, eraseDups_nil, append_nil]
  clear hsame hkept hnone
  induction order with
  | nil => rfl
  | cons name order ih =>
    obtain ⟨hname, hnodup⟩ := nodup_cons.1 hnodup
    have hothers : order.filter (fun other => !other == name) = order :=
      filter_eq_self.2 fun other h => by simpa using ne_of_mem_of_not_mem h hname
    rw [eraseDups_cons, hothers, ih hnodup]

end Names

/-! ### Linking -/

/-- Why the types of a function cannot be resolved. -/
def unresolved? (c : Catalog) (f : Function) : Option Diagnostic :=
  match Function.resolveSignature c f.source with
  | .ok _ => none
  | .error d => some d

theorem linkSignatures_eq {c functions} (h : ∀ f ∈ functions, f.signature = none) :
    linkSignatures c functions = (functions.map fun f => (f.link c).2, functions.filterMap (unresolved? c)) := by
  induction functions with
  | nil => rfl
  | cons f rest ih =>
    obtain ⟨hf, hrest⟩ := forall_mem_cons.1 h
    rw [linkSignatures, ih hrest]
    cases hresolve : Function.resolveSignature c f.source <;> simp [Function.link, unresolved?, hf, hresolve]

/-- Functions that were only declared. -/
def Unlinked (r : Registry) : Prop := ∀ f ∈ r.functions, f.signature = none ∧ f.failed = false

/-- The functions with their types, each with whether it repeats an earlier one. -/
def resolved (c : Catalog) (r : Registry) : List (Function × Bool) :=
  withRepeats [] (r.functions.map fun f => (f.link c).2)

/-- The reports on functions that repeat others, name by name in the order that `order` asks for. -/
def repetitions (c : Catalog) (order : List String) (r : Registry) : List Diagnostic :=
  (groupNames order (r.functions.map Function.name)).flatMap fun name =>
    ((r.resolved c).filter fun x => x.1.name == name).filterMap reportOf

section Linking

variable {c : Catalog} {r : Registry}

theorem name_mem_of_mem_resolved (order : List String) (hx : x ∈ r.resolved c) :
    x.1.name ∈ groupNames order (r.functions.map Function.name) := by
  obtain ⟨f, hf, hsame⟩ := mem_map.1 (fst_mem_of_mem_withRepeats hx)
  rw [← hsame, Function.name, Function.source_link]
  exact mem_groupNames.2 (mem_map_of_mem hf)

/-- The same repetitions are reported in every order of the names. -/
theorem repetitions_perm (order : List String) : (r.repetitions c order).Perm ((r.resolved c).filterMap reportOf) := by
  have hreports := (flatMap_filter_perm (fun x : Function × Bool => x.1.name) (r.resolved c) (nodup_groupNames ..)
    fun _ => name_mem_of_mem_resolved order).filterMap reportOf
  rwa [filterMap_flatMap] at hreports

theorem Unlinked.resolved (h : r.Unlinked) : ∀ f ∈ r.functions.map fun f => (f.link c).2, f.Resolved c := by
  intro f hf
  obtain ⟨g, hg, rfl⟩ := mem_map.1 hf
  exact Function.link_resolved (h g hg).1 (h g hg).2

/-- **Linking**, in whatever order the names are gone through. -/
theorem Unlinked.link_eq (h : r.Unlinked) (order : List String) :
    r.link c order = ({ r with functions := (r.resolved c).map (markOf fun _ => true) },
      r.functions.filterMap (unresolved? c) ++ r.repetitions c order) := by
  have hnames : (r.functions.map fun f => (f.link c).2).map Function.name = r.functions.map Function.name := by
    rw [map_map]
    exact map_congr_left fun f _ => congrArg (·.name.symbol) (Function.source_link c f)
  have hmarks : (r.resolved c).map (markOf (groupNames order (r.functions.map Function.name)).contains) =
      (r.resolved c).map (markOf fun _ => true) := by
    refine map_congr_left fun x hx => ?_
    have hlisted : x.1.name ∈ r.functions.map Function.name :=
      hnames ▸ mem_map_of_mem (fst_mem_of_mem_withRepeats hx)
    simp [markOf, mem_groupNames.2 hlisted]
  rw [link, linkSignatures_eq fun f hf => (h f hf).1]
  dsimp only
  rw [hnames, markGroups_eq (nodup_groupNames ..) fun f hf _ => (h.resolved f hf).failed]
  exact Prod.ext (congrArg (Registry.mk r.fileId) hmarks) rfl

/-- What is reported is the same in every order of the names. -/
theorem Unlinked.link_perm (h : r.Unlinked) (order : List String) :
    (r.link c order).2.Perm (r.functions.filterMap (unresolved? c) ++ (r.resolved c).filterMap reportOf) := by
  rw [h.link_eq]
  exact (repetitions_perm order).append_left _

theorem Unlinked.link_kept (h : r.Unlinked) (c : Catalog) (order : List String) :
    (r.link c order).1.functions.map Function.kept = r.functions.map Function.kept := by
  have hmarks : Function.kept ∘ markOf (fun _ => true) = Function.kept ∘ Prod.fst := funext fun x => kept_markOf _ x
  have hlinks : Function.kept ∘ (fun f => (f.link c).2) = Function.kept := funext (Function.kept_link c)
  rw [h.link_eq, map_map, hmarks, ← map_map, Registry.resolved, withRepeats_fst, map_map, hlinks]

theorem Unlinked.link_source (h : r.Unlinked) (c : Catalog) (order : List String) :
    (r.link c order).1.functions.map Function.source = r.functions.map Function.source := by
  have hkept := congrArg (List.map Prod.fst) (h.link_kept c order)
  rwa [map_map, map_map] at hkept

theorem resolved_getElem? (i : Nat) : (r.resolved c)[i]? = (r.functions[i]?.map fun f => (f.link c).2).map fun f =>
    (f, f.overload?.any (((r.functions.take i).map fun f => (f.link c).2).filterMap Function.overload?).contains) := by
  have hgeneral : ∀ (functions : List Function) (seen : List Overload) (i : Nat), (withRepeats seen functions)[i]? =
      functions[i]?.map
        fun f => (f, f.overload?.any (seen ++ (functions.take i).filterMap Function.overload?).contains) := by
    intro functions
    induction functions with
    | nil => simp [withRepeats]
    | cons f rest ih =>
      intro seen i
      rcases i with _ | i
      · simp [withRepeats]
      rw [withRepeats, List.getElem?_cons_succ, ih, append_assoc,
        ← filterMap_overload?_singleton, ← filterMap_append]
      rfl
  rw [resolved, hgeneral, List.getElem?_map, ← map_take, nil_append]

/-- What linking makes of each function: it has the types that its definition resolves to, and it can be called exactly
if it has them and no definition before its own is told by the same. -/
theorem Unlinked.link_function? (h : r.Unlinked) (hf : (r.link c order).1.function? i = some f) :
    f.signature = (Function.resolveSignature c f.source).toOption ∧
      (f.failed = false ↔ ∃ o, f.source.overload? c = some o ∧
        ∀ d ∈ (r.functions.map Function.source).take i, d.overload? c ≠ some o) := by
  -- Before its own, the same overloads are seen in definitions as in functions.
  have hseen : ((r.functions.take i).map fun f => (f.link c).2).filterMap Function.overload? =
      ((r.functions.map Function.source).take i).filterMap (·.overload? c) := by
    rw [← map_take, filterMap_map, filterMap_map]
    refine filterMap_congr fun f hf => ?_
    have hresolved := h.resolved (c := c) _ (mem_map_of_mem (mem_of_mem_take hf))
    rw [Function.comp, Function.overload?_eq hresolved.signature, Function.source_link]
    rfl
  rw [h.link_eq, function?, List.getElem?_map, resolved_getElem?, hseen] at hf
  obtain ⟨x, hx, rfl⟩ := Option.map_eq_some_iff.1 hf
  obtain ⟨g, hg, rfl⟩ := Option.map_eq_some_iff.1 hx
  have hresolved : g.Resolved c := h.resolved g (mem_of_getElem? ((List.getElem?_map ..).trans hg))
  rw [markOf_signature, markOf_source, markOf_failed]
  refine ⟨hresolved.signature, ?_⟩
  rw [← Function.overload?_eq hresolved.signature, hresolved.failed, Function.overload?]
  cases g.signature with
  | none => simp
  | some => simp

theorem Unlinked.link_pairwise (h : r.Unlinked) (c : Catalog) (order : List String) :
    (r.link c order).1.functions.Pairwise fun f g => f.failed = false → g.failed = false →
      f.overload? ≠ g.overload? := by
  refine pairwise_iff_getElem.2 fun i j hi hj hlt _ hok hsame => ?_
  obtain ⟨hsig, -⟩ := h.link_function? (List.getElem?_eq_getElem hi)
  obtain ⟨hsig', hfailed⟩ := h.link_function? (List.getElem?_eq_getElem hj)
  obtain ⟨o, htold, hfirst⟩ := hfailed.1 hok
  refine hfirst (r.link c order).1.functions[i].source ?_ ?_
  · rw [← h.link_source c order, ← map_take]
    exact mem_map_of_mem (mem_take_iff_getElem.2 ⟨i, by omega, rfl⟩)
  · rw [← Function.overload?_eq hsig, hsame, Function.overload?_eq hsig', htold]

theorem filterMap_append_perm {α β : Type} {p q both : α → Option β} {l : List α}
    (h : ∀ a ∈ l, p a = none ∧ both a = q a ∨ q a = none ∧ both a = p a) :
    (l.filterMap p ++ l.filterMap q).Perm (l.filterMap both) := by
  induction l with
  | nil => exact .refl _
  | cons a rest ih =>
    obtain ⟨ha, hrest⟩ := forall_mem_cons.1 h
    have ih := ih hrest
    obtain ⟨hnone, hboth⟩ | ⟨hnone, hboth⟩ := ha
    · rw [filterMap_cons_none hnone]
      rcases hq : q a with _ | b
      · simp_all
      rw [filterMap_cons_some hq, filterMap_cons_some (hboth.trans hq)]
      exact perm_middle.trans (ih.cons b)
    cases hp : p a with
    | none => simp_all
    | some b =>
      simp_all

/-- **There is one report for each function that cannot be called.** -/
theorem Unlinked.link_complaints (h : r.Unlinked) (c : Catalog) (order : List String) :
    (r.link c order).2.Perm (((r.link c order).1.functions.filter (·.failed)).map fun f => f.source.complaint c) := by
  have hunresolved : r.functions.filterMap (unresolved? c) = (r.resolved c).filterMap fun x => unresolved? c x.1 := by
    have hsrc : ∀ f : Function, unresolved? c (f.link c).2 = unresolved? c f := fun f => by
      rw [unresolved?, Function.source_link, unresolved?]
    have hfirst :=
      congrArg (List.filterMap (unresolved? c)) (withRepeats_fst [] (r.functions.map fun f => (f.link c).2))
    simp only [filterMap_map, Function.comp_def, hsrc] at hfirst
    exact hfirst.symm
  refine (h.link_perm order).trans ?_
  rw [h.link_eq, hunresolved, ← filterMap_eq_map, filterMap_filter, filterMap_map]
  refine filterMap_append_perm fun x hx => ?_
  have hresolved : x.1.Resolved c := h.resolved x.1 (fst_mem_of_mem_withRepeats hx)
  have hsig := hresolved.signature
  have hfailed := hresolved.failed
  rw [hsig] at hfailed
  simp only [Function.comp, markOf_failed, markOf_source, unresolved?, reportOf, FunctionDefinition.complaint]
  cases hresolve : Function.resolveSignature c x.1.source with
  | ok signature =>
    rw [hresolve] at hsig hfailed
    exact .inl ⟨rfl, by rw [hfailed, hsig]; rfl⟩
  | error d =>
    rw [hresolve] at hsig hfailed
    exact .inr ⟨by rw [hsig]; exact ite_self _, by rw [hfailed]; rfl⟩

end Linking

end Registry

/-! ### Declaring -/

theorem foldl_declare_source (definitions : List FunctionDefinition) (r : Registry) :
    (definitions.foldl Registry.declare r).functions.map Function.source = r.functions.map Function.source ++
      definitions := by
  induction definitions generalizing r with
  | nil => simp
  | cons definition rest ih =>
    rw [foldl_cons, ih, Registry.declare, map_append, append_assoc]
    rfl

theorem foldl_declare_unlinked (fileId : Nat) (definitions : List FunctionDefinition) :
    (definitions.foldl Registry.declare { fileId }).Unlinked := by
  have hkept : ∀ {r : Registry}, r.Unlinked → (definitions.foldl Registry.declare r).Unlinked := by
    induction definitions with
    | nil => exact id
    | cons definition rest ih =>
      refine fun h => ih fun f hf => ?_
      obtain hf | hf := mem_append.1 hf
      · exact h f hf
      · simp_all
  exact hkept (by simp [Registry.Unlinked])

end Lowering
