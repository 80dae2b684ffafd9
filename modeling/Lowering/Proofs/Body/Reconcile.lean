import Lowering.Proofs.Body.Coherent
/-!
# Where branches meet, every variable keeps its value

Branches are brought together variable by variable. One that all branches know by the same operand needs no code. Any
other is *contested*: each branch that does not know it loads it at its end, and a phi takes the value of the branch
that control came from. So the code has one phi for each contested variable, and one load for each branch that does not
know it.

What a branch brings along to the place where branches meet (`Meeting.carries`) is what its variables denote, in
registers and memory that its scope is coherent with.
-/

namespace Lowering

open IR (Argument Code Instruction Operand)

/-! ### Branches of a scope -/

/-- Branches that begin in a scope: each sees every variable of it. -/
structure Branches (s : Scope) (arrivals : List Arrival) : Prop where
  nonempty : arrivals ≠ []
  reaches : ∀ a ∈ arrivals, s.Reaches a.scope
  formed : ∀ a ∈ arrivals, a.scope.Formed
  caching : ∀ a ∈ arrivals, a.scope.caching = s.caching

/-- No variable is known to be a constant number: equal numbers need not be the same. -/
def Scope.NoNumbers (s : Scope) : Prop := ∀ v ∈ s.vars, ∀ x, v.cache ≠ some (.float x)

/-- The states of a variable on the branches. -/
structure States (arrivals : List Arrival) (caching : Bool) (id : Nat) (own : Variable) (states : List Variable) :
    Prop where
  gets : List.Forall₂ (fun a v => a.scope.get? id = some v) arrivals states
  nonempty : states ≠ []
  same : ∀ v ∈ states, own.Same v
  formed : ∀ v ∈ states, v.Formed caching

namespace Branches

variable {s : Scope} {arrivals : List Arrival}

theorem available (h : Branches s arrivals) : ∀ a ∈ arrivals, ∀ v ∈ a.scope.vars, v.Available := by
  intro a ha v hv hcache hstor
  obtain ⟨address, haddr⟩ := (h.formed a ha v hv).stored hcache
  cases hstor.symm.trans haddr

theorem admitted (h : Branches s arrivals) (hnums : ∀ a ∈ arrivals, a.scope.NoNumbers) :
    ∀ a ∈ arrivals, a.scope.Admitted fun _ => False := by
  refine fun a ha v hv => ⟨fun o ho => ?_, (h.formed a ha v hv).dirty⟩
  cases o with
  | float x => exact hnums a ha v hv x ho
  | _ => trivial

end Branches

namespace States

variable {arrivals : List Arrival} {caching : Bool} {id : Nat} {own : Variable} {states : List Variable}

/-- Where branches agree on what is known of a variable, it stays formed. -/
theorem formed_agreed (h : States arrivals caching id own states) (hown : own.Formed caching)
    (hagree : cachesAgree states = true) :
    (own.met states (states.head?.bind Variable.cache)).Formed caching := by
  obtain ⟨first, rest, rfl⟩ := List.exists_cons_of_ne_nil h.nonempty
  have hfirst := h.formed first (.head _)
  have hsame := h.same first (.head _)
  constructor
  case normal => exact hown.normal
  case linear =>
    intro hlin
    exact ⟨(hown.linear hlin).1, (hfirst.linear (by rw [hsame.ty]; exact hlin)).2⟩
  case dirty =>
    intro hdirty
    obtain ⟨v, hv, hdirty⟩ := List.any_eq_true.1 hdirty
    obtain ⟨o, ho⟩ := (h.formed v hv).dirty hdirty
    obtain ⟨hnone, -⟩ | ⟨-, b, -, hb, -⟩ := cachesAgree_eq_true hagree hv
    · grind
    · exact ⟨b, hb⟩
  case uncached =>
    intro hcaching hlin
    exact hfirst.uncached hcaching (by rw [hsame.ty]; exact hlin)

/-- Branches do not agree only where values are kept, or on a linear variable. -/
theorem formed_contested (h : States arrivals caching id own states) (hown : own.Formed caching)
    (hagree : cachesAgree states = false) (o : Operand) : (own.met states (some o)).Formed caching := by
  refine hown.known ?_ o _
  by_contra hkept
  rw [not_or, Bool.not_eq_true, Bool.not_eq_true] at hkept
  have hnone : ∀ v ∈ states, v.cache = none := fun v hv =>
    (h.formed v hv).uncached hkept.2 (by rw [(h.same v hv).ty]; exact hkept.1)
  rcases states with _ | ⟨first, rest⟩
  · cases hagree
  refine Bool.eq_false_iff.1 hagree (List.all_eq_true.2 fun v hv => ?_)
  rw [hnone v hv, hnone first (.head _)]

end States

section Meeting

variable {arrivals : List Arrival} {w0 w : Workspace} {n : Nat} {synced : Synced} {own : Variable}

theorem Meeting.states {states} (h : Meeting arrivals w0 n synced w) (hbranches : Branches w0.scope arrivals)
    (hown : w.scope.get? n = some own) (hstates : List.Forall₂ (fun a v => a.scope.get? n = some v) arrivals states) :
    States arrivals w.scope.caching n own states := by
  refine ⟨hstates, ?_, fun v hv => ?_, fun v hv => ?_⟩
  · rintro rfl
    cases hstates
    exact hbranches.nonempty rfl
  · obtain ⟨a, -, hv⟩ := exists_left (h.states_same hbranches.reaches hown hstates) hv
    exact hv.2
  obtain ⟨a, ha, hv⟩ := exists_left hstates hv
  rw [h.continues.caching, ← hbranches.caching a ha]
  exact (hbranches.formed a ha).get? hv

theorem Meeting.keeps (h : Meeting arrivals w0 n synced w) (hbranches : Branches w0.scope arrivals) :
    w0.scope.Keeps w.scope := by
  induction h with
  | start => exact .refl _
  | agreed h hown hstates hagree ih =>
    exact ih.trans
      (.put hown ⟨rfl, rfl, rfl⟩ fun hformed => (h.states hbranches hown hstates).formed_agreed hformed hagree)
  | contested h hown hstates hagree _ ih =>
    exact ih.trans (.put hown ⟨rfl, rfl, rfl⟩ fun hformed =>
      (h.states hbranches hown hstates).formed_contested hformed hagree _)

end Meeting

/-! ### Which variables need code -/

/-- What a branch knows of a variable. -/
def Arrival.known (a : Arrival) (id : Nat) : Option Operand := (a.scope.get? id).bind Variable.cache

variable {id n last : Nat} {v : Variable} {load : Code} {o : Operand}

theorem Arrival.known_eq {a : Arrival} (h : a.scope.get? id = some v) : a.known id = v.cache := by
  rw [known, h]
  rfl

/-- Branches do not all know a variable by the same operand. -/
def Contested (arrivals : List Arrival) (id : Nat) : Prop :=
  ∃ a ∈ arrivals, ∃ b ∈ arrivals, a.known id ≠ b.known id

instance (arrivals : List Arrival) (id : Nat) : Decidable (Contested arrivals id) :=
  inferInstanceAs (Decidable (∃ a ∈ arrivals, ∃ b ∈ arrivals, a.known id ≠ b.known id))

theorem cachesAgree_iff (hnums : ∀ v ∈ first :: rest, ∀ x, v.cache ≠ some (.float x)) :
    cachesAgree (first :: rest) = true ↔ ∀ v ∈ first :: rest, v.cache = first.cache := by
  constructor
  · intro hagree v hv
    obtain ⟨hnone, hfirst⟩ | ⟨a, b, ha, hb, hab⟩ := cachesAgree_eq_true hagree hv
    · rw [hnone, hfirst]
    obtain rfl | ⟨x, y, rfl, -⟩ := IR.Operand.agrees_eq_true hab
    · rw [ha, hb]
    · exact absurd ha (hnums v hv x)
  intro hsame
  refine List.all_eq_true.2 fun v hv => ?_
  rw [hsame v hv]
  cases hfirst : first.cache with
  | none => rfl
  | some o =>
    simp_all [Operand.agrees]

/-- Branches agree on the variables that are not contested. -/
theorem cachesAgree_iff_not_contested
    (hstates : List.Forall₂ (fun a v => a.scope.get? id = some v) arrivals states)
    (hnums : ∀ v ∈ states, ∀ x, v.cache ≠ some (.float x)) : cachesAgree states = true ↔ ¬ Contested arrivals id := by
  rcases states with _ | ⟨first, rest⟩
  · cases hstates
    simp [cachesAgree, Contested]
  rw [cachesAgree_iff hnums]
  constructor
  · rintro hsame ⟨a, ha, b, hb, hne⟩
    obtain ⟨v, hv, hav⟩ := exists_right hstates ha
    obtain ⟨u, hu, hbu⟩ := exists_right hstates hb
    exact hne (by rw [Arrival.known_eq hav, Arrival.known_eq hbu, hsame v hv, hsame u hu])
  intro hcontested v hv
  obtain ⟨a, ha, hav⟩ := exists_left hstates hv
  obtain ⟨b, hb, hbu⟩ := exists_left hstates (.head _)
  by_contra hne
  exact hcontested ⟨a, ha, b, hb, by rwa [Arrival.known_eq hav, Arrival.known_eq hbu]⟩

/-- The phi of a variable, with a value from each branch. -/
def PhiOf (arrivals : List Arrival) (s : Scope) (id : Nat) (i : Instruction) : Prop :=
  ∃ v register sources, s.get? id = some v ∧ i = .set register (.phi v.ty.irType sources) ∧
    sources.map Prod.fst = arrivals.map Arrival.label

/-- The load of a variable from its storage. -/
def LoadOf (s : Scope) (id : Nat) (i : Instruction) : Prop :=
  ∃ v register address, s.get? id = some v ∧ v.storage = some address ∧
    i = .set register (.load v.ty.storageType address)

/-- The contested variables among the first ones. -/
def contested (arrivals : List Arrival) (n : Nat) : List Nat := (List.range n).filter fun id => Contested arrivals id

theorem contested_succ_of_not (h : ¬ Contested arrivals n) :
    contested arrivals (n + 1) = contested arrivals n := by
  simp [contested, List.range_succ, h]

theorem contested_succ (h : Contested arrivals n) :
    contested arrivals (n + 1) = contested arrivals n ++ [n] := by
  simp [contested, List.range_succ, h]

/-! ### What a branch brings along -/

/-- Variables denote values that belong at their positions. -/
def Standing.denoting (m : IR.Module) (M : Memory) (value : Nat → Scalar) : Standing (·.program = m) M where
  stands id R v := v.Denotes m R M (value id)
  handle := value
  congr h hR := h.congr hR
  known h hdirty ho := h.known hdirty ho
  unknown h hcache := ⟨h.value, fun _ hsome => (by cases hcache ▸ hsome)⟩
  supplies := by
    intro id R v first load o last hx h
    have hvalue := hx.value
    cases h with
    | known hcache =>
      rw [Variable.denoted_of_known hcache] at hvalue
      exact ⟨R, fun _ _ => .nil, .refl _ _, toOption_eq_some.1 hvalue⟩
    | @loaded address hcache hstor =>
      rw [Variable.denoted_of_unknown hcache] at hvalue
      have hload := Variable.load_of_content hstor hvalue
      refine ⟨R.set first (value id), fun site hsite => ?_, .set R first _, Registers.argument_set_self ..⟩
      subst hsite
      exact .fetch hload

/-! ### All variables -/

/-- The code for the first `n` variables. -/
structure Merged (arrivals : List Arrival) (w0 : Workspace) (n : Nat) (synced : Synced) : Prop where
  phis : List.Forall₂ (PhiOf arrivals w0.scope) (contested arrivals n) synced.join
  loads : List.Forall₂ (fun a tail => List.Forall₂ (LoadOf a.scope)
    ((contested arrivals n).filter fun id => (a.known id).isNone) tail) arrivals synced.tails

theorem forall₂_getElem? {α β : Type} {P as bs} (h : List.Forall₂ P as bs) {i : Nat} {a : α} {b : β}
    (ha : as[i]? = some a) (hb : bs[i]? = some b) : P a b := by
  obtain ⟨hi, rfl⟩ := List.getElem?_eq_some_iff.1 ha
  obtain ⟨hi', rfl⟩ := List.getElem?_eq_some_iff.1 hb
  exact h.get hi hi'

section Step

variable {arrivals : List Arrival} {caching : Bool} {w0 : Workspace} {n : Nat} {synced : Synced} {own : Variable}
  {states : List Variable}

theorem States.numbers (h : States arrivals caching n own states) (hnums : ∀ a ∈ arrivals, a.scope.NoNumbers) :
    ∀ v ∈ states, ∀ x, v.cache ≠ some (.float x) := by
  intro v hv
  obtain ⟨a, ha, hget⟩ := exists_left h.gets hv
  exact hnums a ha v (Scope.mem_of_get? hget)

theorem Merged.agreed (h : Merged arrivals w0 n synced) (hnums : ∀ a ∈ arrivals, a.scope.NoNumbers)
    (hstates : States arrivals caching n own states) (hagree : cachesAgree states = true) :
    Merged arrivals w0 (n + 1) synced := by
  have hcontested := (cachesAgree_iff_not_contested hstates.gets (hstates.numbers hnums)).1 hagree
  constructor
  case phis =>
    rw [contested_succ_of_not hcontested]
    exact h.phis
  case loads =>
    rw [contested_succ_of_not hcontested]
    exact h.loads

theorem Merged.contested (h : Merged arrivals w0 n synced) (hnums : ∀ a ∈ arrivals, a.scope.NoNumbers)
    (hown0 : w0.scope.get? n = some own0) (hsame0 : own0.Same own) (hstates : States arrivals caching n own states)
    (hagree : cachesAgree states = false) {fresh last : Nat}
    (harrives : Arrives fresh arrivals states synced.tails tails sources last) :
    Merged arrivals w0 (n + 1) ⟨tails, synced.join ++ [.set last (.phi own.ty.irType sources)]⟩ := by
  have hcontested : Contested arrivals n := by
    by_contra hnot
    rw [(cachesAgree_iff_not_contested hstates.gets (hstates.numbers hnums)).2 hnot] at hagree
    cases hagree
  constructor
  case phis =>
    rw [contested_succ hcontested]
    refine List.rel_append h.phis (.cons ⟨own0, last, sources, hown0, ?_, harrives.labels⟩ .nil)
    rw [hsame0.ty]
  case loads =>
    rw [contested_succ hcontested]
    refine harrives.forall₂ h.loads hstates.gets fun a v tail load o first' last' hloads _ hget hsupplies _ _ _ => ?_
    rw [List.filter_append]
    refine List.rel_append hloads ?_
    have hknown := Arrival.known_eq hget
    cases hsupplies with
    | known hcache =>
      simp [hknown, hcache]
    | @loaded address hcache hstor =>
      rw [List.filter_cons_of_pos (by simp [hknown, hcache])]
      exact .cons ⟨v, first', address, hget, hstor, rfl⟩ .nil

end Step

/-- **Variables that were brought together.** -/
theorem Meeting.merged (h : Meeting arrivals w0 n synced w) (hbranches : Branches w0.scope arrivals)
    (hnums : ∀ a ∈ arrivals, a.scope.NoNumbers) : Merged arrivals w0 n synced := by
  induction h with
  | start hn =>
    obtain rfl := hn.resolve_right hbranches.nonempty
    exact ⟨.nil, List.forall₂_map_right_iff.2 (List.forall₂_same.2 fun a _ => .nil)⟩
  | agreed h hown hstates hagree ih => exact ih.agreed hnums (h.states hbranches hown hstates) hagree
  | contested h hown hstates hagree harrives ih =>
    obtain ⟨own0, hown0, hsame0⟩ := h.origin hown
    exact ih.contested hnums hown0 hsame0 (h.states hbranches hown hstates) hagree harrives

/-! ### Scopes that come from a scope -/

/-- A scope that comes from another: as a copy or a child of it, and by any operations. A branch comes from the scope it
begins in, and so do the branches inside it. -/
inductive Scope.Derives : Scope → Scope → Prop where
  | refl (s : Scope) : Derives s s
  | child {p s : Scope} (h : Derives p s) : Derives p s.child
  | declare {p : Scope} {w w' : Workspace} {ty : TypeRef} {name : Identifier} {result : Nat × Code}
      (h : Derives p w.scope) (hstep : declareVariable ty name w = .ok result w') : Derives p w'.scope
  | parameters {p : Scope} {w w' : Workspace} {ps : List Incoming} {code : Code}
      (h : Derives p w.scope) (hstep : declareParameters ps w = .ok code w') : Derives p w'.scope
  | read {p : Scope} {w w' : Workspace} {id : Nat} {result : Code × Argument}
      (h : Derives p w.scope) (hstep : readVariable id w = .ok result w') : Derives p w'.scope
  | write {p : Scope} {w w' : Workspace} {id : Nat} {value : Argument} {code : Code}
      (h : Derives p w.scope) (hstep : writeVariable id value w = .ok code w') : Derives p w'.scope
  | flush {p : Scope} {w w' : Workspace} {id : Nat} {code : Code}
      (h : Derives p w.scope) (hstep : flushVariable id w = .ok code w') : Derives p w'.scope
  | sync {p : Scope} {w w' : Workspace} {arrivals : List Arrival} {synced : Synced}
      (h : Derives p w.scope) (harrivals : ∀ a ∈ arrivals, Derives w.scope a.scope)
      (hstep : syncVariables arrivals w = .ok synced w') : Derives p w'.scope

namespace Scope

/-- A scope in good order, and one that comes from it. -/
structure Comes (p s : Scope) : Prop where
  formed : s.Formed
  reaches : p.Reaches s
  caching : s.caching = p.caching

variable {s : Scope}

theorem Comes.keeps {p s' : Scope} (h : p.Comes s) (hkeeps : s.Keeps s') : p.Comes s' where
  formed := hkeeps.formed h.formed
  reaches id v hv := by
    obtain ⟨v', hv', hsame⟩ := h.reaches id v hv
    obtain ⟨v'', hv'', hsame'⟩ := hkeeps.continues.vars id v' hv'
    exact ⟨v'', hv'', hsame'.name.trans hsame.name, hsame'.ty.trans hsame.ty, hsame'.storage.trans hsame.storage⟩
  caching := hkeeps.continues.caching.trans h.caching

theorem Comes.branches (hne : arrivals ≠ []) (h : ∀ a ∈ arrivals, s.Comes a.scope) : Branches s arrivals :=
  ⟨hne, fun a ha => (h a ha).reaches, fun a ha => (h a ha).formed, fun a ha => (h a ha).caching⟩

/-- Operations keep a scope in good order, and all variables it began with. -/
theorem Derives.comes {p : Scope} (h : p.Derives s) (hp : p.Formed) : p.Comes s := by
  induction h with
  | refl => exact ⟨hp, fun id v hv => ⟨v, hv, rfl, rfl, rfl⟩, rfl⟩
  | child _ ih => exact ⟨(ih hp).formed, (ih hp).reaches, (ih hp).caching⟩
  | declare _ hstep ih => exact (ih hp).keeps (declareVariable_keeps hstep)
  | parameters _ hstep ih => exact (ih hp).keeps (declareParameters_keeps hstep)
  | read _ hstep ih => exact (ih hp).keeps (readVariable_keeps hstep)
  | write _ hstep ih => exact (ih hp).keeps (writeVariable_keeps hstep)
  | flush _ hstep ih => exact (ih hp).keeps (flushVariable_keeps hstep)
  | @sync p w w' arrivals synced _ _ hstep ih iharrivals =>
    have hw := ih hp
    by_cases hne : arrivals = []
    · subst hne
      cases hstep
      exact hw
    · have hbranches := Comes.branches hne fun a ha => iharrivals a ha hw.formed
      exact hw.keeps (((syncVariables_attains arrivals w).of_ok hstep).keeps hbranches)

theorem formed_nil (caching : Bool) : Scope.Formed { caching } := by
  intro v hv
  cases hv

end Scope

/-- **Where branches meet, every variable denotes what it denoted on the branch that was taken.** `syncVariables` emits
one phi for each variable that is not known by the same operand in all `arrivals` (`contested`), and loads such a
variable at the end of each branch that does not know it. From registers and memory that the scope of a branch `a` is
coherent with, this code leads to ones that the common scope is coherent with. -/
theorem syncVariables_reconcile_branches {caching : Bool} {w : Workspace} (hparent : Scope.Derives { caching } w.scope)
    {arrivals : List Arrival} (hne : arrivals ≠ []) (hlabels : (arrivals.map Arrival.label).Nodup)
    (hderived : ∀ a ∈ arrivals, w.scope.Derives a.scope) (hfresh : ∀ a ∈ arrivals, a.scope.Below w.fresh)
    (hnumbers : ∀ a ∈ arrivals, a.scope.NoNumbers) :
    ∃ synced w', syncVariables arrivals w = .ok synced w' ∧ synced.tails.length = arrivals.length ∧
      List.Forall₂ (PhiOf arrivals w.scope) (contested arrivals w.scope.vars.length) synced.join ∧
      ∀ (i : Nat) a tail, arrivals[i]? = some a → synced.tails[i]? = some tail →
        List.Forall₂ (LoadOf a.scope)
          ((contested arrivals w.scope.vars.length).filter fun id => (a.known id).isNone) tail ∧
        ∀ (m : IR.Module) (R : Registers) (M : Memory), a.scope.Coherent m R M → ∃ R1 R2,
          (∀ site : Site, site.program = m → site.Runs tail R M R1 M) ∧
          (∀ site : Site, site.program = m → site.frame.previous = some a.label → site.Runs synced.join R1 M R2 M) ∧
          w'.scope.Coherent m R2 M ∧
          ∀ id v, w.scope.get? id = some v → ∃ u v' x, a.scope.get? id = some u ∧ w'.scope.get? id = some v' ∧
            v.Same v' ∧ u.denoted m R M = some x ∧ v'.denoted m R2 M = some x := by
  have hbranches := Scope.Comes.branches hne fun a ha =>
    (hderived a ha).comes (hparent.comes (Scope.formed_nil caching)).formed
  obtain ⟨synced, w', hsync, h⟩ := syncVariables_meeting hbranches.reaches hbranches.available
  have hmerged := h.merged hbranches hnumbers
  have hcarries := h.carries (fun _ _ hx => hx.elim) (hbranches.admitted hnumbers) hlabels hbranches.reaches
  refine ⟨synced, w', hsync, h.tails_length, hmerged.phis, fun i a tail ha htail => ?_⟩
  refine ⟨forall₂_getElem? hmerged.loads ha htail, fun m R M hcoherent => ?_⟩
  let value (id : Nat) : Scalar := ((a.scope.get? id).bind fun v => v.denoted m R M).getD (.int 0)
  have hdenotes : ∀ id v, a.scope.get? id = some v → v.Denotes m R M (value id) := by
    intro id v hv
    obtain ⟨x, hx⟩ := hcoherent v (Scope.mem_of_get? hv)
    have hvalue : value id = x := by simp [value, hv, hx.value]
    rwa [hvalue]
  have hmem := List.mem_of_getElem? ha
  obtain ⟨R1, hruns, -, hjoin⟩ :=
    forall₂_getElem? hcarries ha htail (.denoting m M value) hdenotes fun r ⟨v, hv, hr⟩ hid =>
    Nat.not_lt.2 (h.locals (List.mem_of_getElem? htail) r hid).1 ((hfresh a hmem v hv).uses hr)
  obtain ⟨R2, hruns2, -, hvars⟩ := hjoin R1 fun _ _ => rfl
  refine ⟨R1, R2, hruns, hruns2, fun v hv => ?_, fun id v hv => ?_⟩
  · obtain ⟨id, hid, hget⟩ := List.getElem_of_mem hv
    exact ⟨value id, (hvars id v (h.length ▸ hid) (List.getElem?_eq_some_iff.2 ⟨hid, hget⟩)).1⟩
  · obtain ⟨u, hu, -⟩ := hbranches.reaches a hmem id v hv
    obtain ⟨v', hv', hsame⟩ := h.continues.vars id v hv
    have hv'' := hvars id v' (List.getElem?_eq_some_iff.1 hv).1 hv'
    exact ⟨u, v', value id, hu, hv', hsame, (hdenotes id u hu).value, hv''.1.value⟩

/-! ### A variable that is set on one of two branches -/

namespace Fork

/-- A scope with one variable, whose address is in register 0. -/
def parent : Workspace where
  fresh := 1
  scope := { vars := [.declared "x" (.primitive .i32) 0], caching := true }

/-- On the first branch the variable is set, on the second one nothing happens. -/
def arrivals : List Arrival :=
  [⟨7, parent.scope.child.put 0
      ⟨"x", .primitive .i32, some (.register ⟨.int 32, 1⟩ 0), some (.int 5), true⟩⟩,
    ⟨8, parent.scope.child⟩]

def memory : Memory := Memory.empty.grow 4

def registers : Registers := [(0, .int 8)]

theorem derived : ∀ a ∈ arrivals, parent.scope.Derives a.scope := by
  have hwrite : writeVariable 0 ⟨.int 32, .int 5⟩ { parent with scope := parent.scope.child } =
      .ok [] { parent with scope := (parent.scope.child.put 0
        ⟨"x", .primitive .i32, some (.register ⟨.int 32, 1⟩ 0), some (.int 5), true⟩) } := rfl
  have hchild : parent.scope.Derives parent.scope.child := .child (.refl _)
  simp only [arrivals, List.forall_mem_cons]
  exact ⟨.write (w := { parent with scope := parent.scope.child }) hchild hwrite, hchild, by simp⟩

theorem mem_vars (ha : a ∈ arrivals) (hv : v ∈ a.scope.vars) :
    v.storage = some (.register ⟨.int 32, 1⟩ 0) ∧ (v.cache = some (.int 5) ∨ v.cache = none) := by
  simp only [arrivals, List.mem_cons, List.not_mem_nil, or_false] at ha
  rcases ha with rfl | rfl
  · cases List.mem_singleton.1 hv
    exact ⟨rfl, .inl rfl⟩
  · cases List.mem_singleton.1 hv
    exact ⟨rfl, .inr rfl⟩

theorem below : ∀ a ∈ arrivals, a.scope.Below parent.fresh := by
  intro a ha v hv
  obtain ⟨hstor, hcache⟩ := mem_vars ha hv
  constructor
  · intro o ho
    rcases hcache with hcache | hcache
    · cases hcache.symm.trans ho
      intro id hid
      cases hid
    · cases hcache.symm.trans ho
  intro address haddr
  cases hstor.symm.trans haddr
  exact IR.Operand.below_register Nat.one_pos

theorem noNumbers : ∀ a ∈ arrivals, a.scope.NoNumbers := by
  intro a ha v hv x hx
  rcases (mem_vars ha hv).2 with hcache | hcache
  · cases hcache.symm.trans hx
  · cases hcache.symm.trans hx

theorem content_declared : (Variable.declared "x" (.primitive .i32) 0).content {} registers memory = some (.int 0) := by
  decide +kernel

theorem coherent : parent.scope.child.Coherent {} registers memory := by
  intro v hv
  cases List.mem_singleton.1 hv
  exact ⟨.int 0, content_declared, fun _ _ _ => content_declared⟩

end Fork

/-- On the second branch the variable is loaded, and the phi brings the zero that lies in its memory. -/
theorem syncVariables_reconcile_fork : ∃ synced w', syncVariables Fork.arrivals Fork.parent = .ok synced w' ∧
    synced.join.length = 1 ∧ ∃ tail R1 R2 v, synced.tails[1]? = some tail ∧ tail.length = 1 ∧
      (∀ site : Site, site.program = {} → site.Runs tail Fork.registers Fork.memory R1 Fork.memory) ∧
      (∀ site : Site, site.program = {} → site.frame.previous = some 8 →
        site.Runs synced.join R1 Fork.memory R2 Fork.memory) ∧
      w'.scope.get? 0 = some v ∧ v.denoted {} R2 Fork.memory = some (.int 0) := by
  have hdeclare : declareVariable (.primitive .i32) ⟨"x", {}⟩ { scope := { caching := true } } =
      .ok (0, [.set 0 (.alloc (.int 32))]) Fork.parent := rfl
  have hparent : Scope.Derives { caching := true } Fork.parent.scope := .declare (.refl _) hdeclare
  obtain ⟨synced, w', hsync, htails, hphis, hbranch⟩ := syncVariables_reconcile_branches hparent (by decide) (by decide)
    Fork.derived Fork.below Fork.noNumbers
  have hcontested : contested Fork.arrivals Fork.parent.scope.vars.length = [0] := by decide
  obtain ⟨tail, htail⟩ : ∃ tail, synced.tails[1]? = some tail :=
    ⟨_, List.getElem?_eq_getElem (show 1 < synced.tails.length by rw [htails]; decide)⟩
  obtain ⟨hloads, hruns⟩ := hbranch 1 _ _ rfl htail
  obtain ⟨R1, R2, htailRuns, hjoinRuns, -, hvars⟩ := hruns {} _ _ Fork.coherent
  obtain ⟨u, v, x, hu, hv, -, hx, hx'⟩ := hvars 0 _ rfl
  cases hu
  refine ⟨synced, w', hsync, ?_, _, R1, R2, v, htail, ?_, htailRuns, hjoinRuns, hv, ?_⟩
  · rw [← hphis.length_eq, hcontested]
    rfl
  · rw [← hloads.length_eq, hcontested]
    decide
  · rw [hx', ← hx]
    exact Fork.content_declared

end Lowering
