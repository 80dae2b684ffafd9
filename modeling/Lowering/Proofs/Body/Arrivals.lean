import Lowering.Proofs.Body.Writes
/-!
# What bringing branches together comes to

Branches are brought together variable by variable. One that all branches agree on needs no code. For any other, each
branch that does not know its value loads it at its end, and a phi takes the value of the branch that control came from
(`Meeting`). Nothing goes wrong as long as every branch has every variable, with a value that is known or can be loaded.
-/

namespace Lowering

open IR (Argument Code Local Operand)

/-! ### Values that arrive -/

/-- An operand for the value of a variable, and the code that loads it if it is not known. -/
inductive Variable.Supplies (v : Variable) : (first : Nat) → Code → Operand → (last : Nat) → Prop where
  | known {first : Nat} {o : Operand} (hcache : v.cache = some o) : Supplies v first [] o first
  | loaded {first : Nat} {address : Argument} (hcache : v.cache = none) (hstor : v.storage = some address) :
      Supplies v first [.set first (.load v.ty.storageType address)] (.register first) (first + 1)

theorem Variable.Supplies.draws {v : Variable} (h : v.Supplies first load o last) :
    Draws first last (IR.definitions load) := by
  cases h with
  | known => exact .nil le_rfl
  | loaded => exact .one _

theorem arrivingValue_ensures (id : Nat) (v : Variable) (tail : Code) (w : Workspace) :
    Ensures (arrivingValue id v tail) w (fun result w' => ∃ load, result.1 = tail ++ load ∧
      v.Supplies w.fresh load result.2 w'.fresh ∧ w' = { w with fresh := w'.fresh }) fun e _ => e.IsInternal ∧
      ¬ v.Available := by
  unfold arrivingValue
  split
  · next o hcache => exact .pure ⟨[], (List.append_nil _).symm, .known hcache, rfl⟩
  · next hcache hstor => exact .throw ⟨trivial, fun h => h hcache hstor⟩
  · next address hcache hstor => exact .bind (.fresh (.pure ⟨_, rfl, .loaded hcache hstor, rfl⟩))

/-- The values of a variable at the ends of branches. -/
inductive Arrives : (first : Nat) → List Arrival → List Variable → List Code → List Code → List (Local × Operand) →
    (last : Nat) → Prop where
  | nil (first : Nat) : Arrives first [] [] [] [] [] first
  | cons {first middle last : Nat} {a : Arrival} {arrivals : List Arrival} {v : Variable} {states : List Variable}
      {tail load : Code} {tails tails' : List Code} {o : Operand} {sources : List (Local × Operand)}
      (hsupplies : v.Supplies first load o middle) (h : Arrives middle arrivals states tails tails' sources last) :
      Arrives first (a :: arrivals) (v :: states) (tail :: tails) ((tail ++ load) :: tails')
        ((a.label, o) :: sources) last

variable {arrivals : List Arrival} {w : Workspace}

theorem arrivingValues_ensures (id : Nat)
    (hstates : states.length = arrivals.length) (htails : tails.length = arrivals.length) (w : Workspace) :
    Ensures (arrivingValues id arrivals states tails) w
      (fun result w' => Arrives w.fresh arrivals states tails result.1 result.2 w'.fresh ∧
        w' = { w with fresh := w'.fresh })
      fun e _ => e.IsInternal ∧ ∃ v ∈ states, ¬ v.Available := by
  induction arrivals generalizing states tails w with
  | nil =>
    cases List.length_eq_zero_iff.1 hstates
    cases List.length_eq_zero_iff.1 htails
    exact .pure ⟨.nil _, rfl⟩
  | cons a arrivals ih =>
    obtain ⟨v, states, rfl⟩ := List.exists_cons_of_length_eq_add_one hstates
    obtain ⟨tail, tails, rfl⟩ := List.exists_cons_of_length_eq_add_one htails
    refine .bind ((arrivingValue_ensures id v tail w).mono (fun result w1 _ hres => ?_) fun _ _ _ he =>
      ⟨he.1, v, .head _, he.2⟩)
    obtain ⟨tail', o⟩ := result
    obtain ⟨load, rfl, hsupplies, hw1⟩ := hres
    refine .bind ((ih (Nat.succ.inj hstates) (Nat.succ.inj htails) w1).mono (fun rest w2 _ hrest => .pure ?_)
      fun _ _ _ ⟨he, u, hu, hunavailable⟩ => ⟨he, u, List.mem_cons_of_mem _ hu, hunavailable⟩)
    refine ⟨.cons hsupplies hrest.1, ?_⟩
    rw [hrest.2, hw1]

namespace Arrives

variable {first last : Nat} {arrivals : List Arrival} {states : List Variable} {tails tails' : List Code}
  {sources : List (Local × Operand)} (h : Arrives first arrivals states tails tails' sources last)
include h

theorem draws :
    ∃ ids, (IR.definitions tails'.flatten).Perm (IR.definitions tails.flatten ++ ids) ∧ Draws first last ids := by
  induction h with
  | nil => exact ⟨[], .refl _, .nil le_rfl⟩
  | @cons _ _ _ _ _ _ _ tail load _ _ _ _ hsupplies _ ih =>
    obtain ⟨ids, hperm, hdraws⟩ := ih
    refine ⟨IR.definitions load ++ ids, List.perm_iff_count.2 fun x => ?_, hsupplies.draws.append hdraws⟩
    grind [IR.definitions_append]

theorem le : first ≤ last := by
  obtain ⟨_, -, hle, -⟩ := h.draws
  exact hle

theorem labels : sources.map Prod.fst = arrivals.map Arrival.label := by
  induction h with
  | nil => rfl
  | cons _ _ ih => simp_all

theorem length : tails'.length = arrivals.length := by
  induction h with
  | nil => rfl
  | cons _ _ ih => simp_all

theorem forall₂ (hP : List.Forall₂ P arrivals tails) (hQ : List.Forall₂ Q arrivals states)
    (hstep : ∀ a v tail load o first' last', P a tail → tail ∈ tails → Q a v → v.Supplies first' load o last' →
      first ≤ first' → last' ≤ last → (a.label, o) ∈ sources → P' a (tail ++ load)) :
    List.Forall₂ P' arrivals tails' := by
  induction h with
  | nil => exact .nil
  | cons hsupplies h ih =>
    cases hP with
    | cons hp hP =>
      cases hQ with
      | cons hq hQ =>
        refine .cons (hstep _ _ _ _ _ _ _ hp (.head _) hq hsupplies le_rfl h.le (.head _))
          (ih hP hQ fun a v tail load o first' last' hp' htail hq' hsupplies' hfirst hlast hsrc => ?_)
        exact hstep a v tail load o first' last' hp' (.tail _ htail) hq' hsupplies'
          (hsupplies.draws.1.trans hfirst) hlast (.tail _ hsrc)

end Arrives

/-! ### Variables that were brought together -/

/-- A variable where branches meet. It has to be written back if a branch did not do so. -/
def Variable.met (own : Variable) (states : List Variable) (cache : Option Operand) : Variable :=
  { own with cache, dirty := states.any Variable.dirty }

/-- The first `n` variables of a workspace were brought together. If no branch arrives, nothing happens. -/
inductive Meeting (arrivals : List Arrival) (w0 : Workspace) : (n : Nat) → Synced → Workspace → Prop where
  | start {n : Nat} (hn : n = 0 ∨ arrivals = []) : Meeting arrivals w0 n ⟨arrivals.map fun _ => [], []⟩ w0
  | agreed {n : Nat} {synced : Synced} {w : Workspace} {own : Variable} {states : List Variable}
      (h : Meeting arrivals w0 n synced w) (hown : w.scope.get? n = some own)
      (hstates : List.Forall₂ (fun a v => a.scope.get? n = some v) arrivals states)
      (hagree : cachesAgree states = true) : Meeting arrivals w0 (n + 1) synced
        { w with scope := w.scope.put n (own.met states (states.head?.bind Variable.cache)) }
  | contested {n : Nat} {synced : Synced} {w : Workspace} {own : Variable} {states : List Variable} {tails : List Code}
      {sources : List (Local × Operand)} {last : Nat}
      (h : Meeting arrivals w0 n synced w) (hown : w.scope.get? n = some own)
      (hstates : List.Forall₂ (fun a v => a.scope.get? n = some v) arrivals states)
      (hagree : cachesAgree states = false)
      (harrives : Arrives w.fresh arrivals states synced.tails tails sources last) :
      Meeting arrivals w0 (n + 1) ⟨tails, synced.join ++ [.set last (.phi own.ty.irType sources)]⟩
        { w with fresh := last + 1, scope := w.scope.put n (own.met states (some (.register last))) }

/-- Every variable of a scope is still there on a branch. -/
def Scope.Reaches (s s' : Scope) : Prop := ∀ id v, s.get? id = some v → ∃ v', s'.get? id = some v' ∧ v.Same v'

namespace Meeting

variable {arrivals : List Arrival} {w0 w : Workspace} {n : Nat} {synced : Synced} (h : Meeting arrivals w0 n synced w)
include h

theorem continues : w0.scope.Continues w.scope := by
  induction h with
  | start => exact .refl _
  | agreed _ hown _ _ ih | contested _ hown _ _ _ ih => exact ih.trans (.put hown ⟨rfl, rfl, rfl⟩)

theorem length : w.scope.vars.length = w0.scope.vars.length := by
  induction h with
  | start => rfl
  | agreed _ _ _ _ ih | contested _ _ _ _ _ ih => exact (List.length_set ..).trans ih

theorem tails_length : synced.tails.length = arrivals.length := by
  induction h with
  | start => exact List.length_map ..
  | agreed _ _ _ _ ih => exact ih
  | contested _ _ _ _ harrives => exact harrives.length

theorem draws : Draws w0.fresh w.fresh (IR.definitions (synced.tails.flatten ++ synced.join)) := by
  induction h with
  | start => simpa using Draws.nil (Nat.le_refl w0.fresh)
  | agreed _ _ _ _ ih => exact ih
  | contested _ _ _ _ harrives ih =>
    obtain ⟨ids, hperm, hdraws⟩ := harrives.draws
    refine (ih.append (hdraws.append (.one _))).perm (List.perm_iff_count.2 fun x => ?_)
    grind [IR.definitions_append, IR.definitions_set, IR.definitions_nil]

theorem origin {id own} (hown : w.scope.get? id = some own) :
    ∃ own0, w0.scope.get? id = some own0 ∧ own0.Same own := by
  have hid : id < w0.scope.vars.length := h.length ▸ (List.getElem?_eq_some_iff.1 hown).1
  have hown0 : w0.scope.get? id = some w0.scope.vars[id] := List.getElem?_eq_getElem hid
  obtain ⟨_, hown', hsame⟩ := h.continues.vars id _ hown0
  simp_all

theorem states_same (hreach : ∀ a ∈ arrivals, w0.scope.Reaches a.scope) {id own} (hown : w.scope.get? id = some own)
    (hstates : List.Forall₂ (fun a v => a.scope.get? id = some v) arrivals states) :
    List.Forall₂ (fun a v => a.scope.get? id = some v ∧ own.Same v) arrivals states := by
  obtain ⟨own0, hown0, hsame⟩ := h.origin hown
  refine forall₂_imp_of_mem hstates fun a ha v _ hv => ⟨hv, ?_⟩
  obtain ⟨v', hv', hsame'⟩ := hreach a ha id _ hown0
  cases hv.symm.trans hv'
  exact ⟨hsame'.name.trans hsame.name.symm, hsame'.ty.trans hsame.ty.symm, hsame'.storage.trans hsame.storage.symm⟩

end Meeting

/-! ### Bringing variables together -/

/-- A branch has no value for a variable. -/
def Arrival.Lacks (a : Arrival) (id : Nat) : Prop := ∀ v, a.scope.get? id = some v → ¬ v.Available

theorem states_ensures (arrivals : List Arrival) (id : Nat) (w : Workspace) :
    Ensures (arrivals.mapM fun arrival => match arrival.scope.get? id with
      | some v => pure v
      | none => Work.abort (.missingVariable id)) w
      (fun states w' => w' = w ∧ List.Forall₂ (fun a v => a.scope.get? id = some v) arrivals states)
      fun e _ => e.IsInternal ∧ ∃ a ∈ arrivals, a.scope.get? id = none := by
  induction arrivals with
  | nil => exact .pure ⟨rfl, .nil⟩
  | cons a arrivals ih =>
    rw [List.mapM_cons]
    rcases hv : a.scope.get? id with _ | v
    · exact .bind (.throw ⟨trivial, a, .head _, hv⟩)
    simp only [pure_bind]
    exact .bind (ih.mono (fun states w' _ hstates => .pure ⟨hstates.1, .cons hv hstates.2⟩)
      fun _ _ _ ⟨he, b, hb, hnone⟩ => ⟨he, b, List.mem_cons_of_mem _ hb, hnone⟩)

/-- **Bringing one more variable together.** -/
theorem syncVariable_ensures (h : Meeting arrivals w0 n synced w) (hn : n < w0.scope.vars.length) :
    Ensures (syncVariable arrivals synced n) w (Meeting arrivals w0 (n + 1))
      fun e _ => e.IsInternal ∧ ∃ a ∈ arrivals, a.Lacks n := by
  unfold syncVariable
  refine .bind ((states_ensures arrivals n w).mono (fun states w' _ hstates => ?_) fun _ _ _ ⟨he, a, ha, hnone⟩ =>
    ⟨he, a, ha, fun v hv => by cases hnone.symm.trans hv⟩)
  obtain ⟨rfl, hstates⟩ := hstates
  obtain ⟨own, hown⟩ : ∃ own, w'.scope.get? n = some own := ⟨_, List.getElem?_eq_getElem (h.length ▸ hn)⟩
  refine .bind ((variableAt_ensures n w').mono (fun v w' _ hv => ?_) fun _ _ _ hv => by cases hown.symm.trans hv.2)
  obtain ⟨hv, rfl⟩ := hv
  cases hown.symm.trans hv
  dsimp only
  split
  · next hagree => exact .bind (.updateScope (.pure (.agreed h hown hstates hagree)))
  rename_i hagree
  refine .bind ((arrivingValues_ensures n hstates.length_eq.symm h.tails_length w').mono (fun result w1 _ hres => ?_)
    fun _ _ _ ⟨he, v, hv, hunavailable⟩ => ?_)
  · obtain ⟨tails, sources⟩ := result
    obtain ⟨harrives, hw1⟩ := hres
    have hcontested := h.contested hown hstates (Bool.eq_false_iff.2 hagree) harrives
    rw [hw1]
    exact .bind (.fresh (.bind (.updateScope (.pure hcontested))))
  obtain ⟨a, ha, hget⟩ := exists_left hstates hv
  refine ⟨he, a, ha, fun u hu => ?_⟩
  simp_all

theorem syncVariables_fold (h : Meeting arrivals w0 start synced w) (count : Nat)
    (hcount : start + count ≤ w0.scope.vars.length) :
    Ensures ((List.range' start count).foldlM (syncVariable arrivals) synced) w (Meeting arrivals w0 (start + count))
      fun e _ => e.IsInternal ∧ ∃ id < w0.scope.vars.length, ∃ a ∈ arrivals, a.Lacks id := by
  induction count generalizing start synced w with
  | zero => exact .pure h
  | succ count ih =>
    rw [List.range'_succ, List.foldlM_cons]
    refine .bind ((syncVariable_ensures h (by omega)).mono (fun synced' w' _ h' => ?_) fun _ _ _ he =>
      ⟨he.1, start, by omega, he.2⟩)
    grind

/-- **Bringing the variables of a workspace together.** -/
theorem syncVariables_ensures (arrivals : List Arrival) (w : Workspace) :
    Ensures (syncVariables arrivals) w (Meeting arrivals w w.scope.vars.length)
      fun e _ => e.IsInternal ∧ ∃ id < w.scope.vars.length, ∃ a ∈ arrivals, a.Lacks id := by
  unfold syncVariables
  split
  · next hempty => exact .pure (.start (.inr (List.isEmpty_iff.1 hempty)))
  refine .bind (.get ?_)
  rw [List.range_eq_range']
  have hfold := syncVariables_fold (.start (.inl rfl) : Meeting arrivals w 0 _ w) w.scope.vars.length (by omega)
  rwa [Nat.zero_add] at hfold

theorem syncVariables_attains (arrivals : List Arrival) (w : Workspace) :
    Attains (syncVariables arrivals) w (Meeting arrivals w w.scope.vars.length) :=
  (syncVariables_ensures arrivals w).attains

/-- Branches that have all variables can be brought together. -/
theorem syncVariables_meeting (hreach : ∀ a ∈ arrivals, w.scope.Reaches a.scope)
    (havailable : ∀ a ∈ arrivals, ∀ v ∈ a.scope.vars, v.Available) :
    ∃ synced w', syncVariables arrivals w = .ok synced w' ∧ Meeting arrivals w w.scope.vars.length synced w' := by
  have hensures := syncVariables_ensures arrivals w
  obtain ⟨synced, w', hsync⟩ := hensures.exists_ok fun _ _ ⟨_, id, hid, a, ha, hlacks⟩ => by
    obtain ⟨v, hv, -⟩ := hreach a ha id _ (List.getElem?_eq_getElem hid)
    exact hlacks v hv (havailable a ha v (Scope.mem_of_get? hv))
  exact ⟨synced, w', hsync, hensures.of_ok hsync⟩

end Lowering
