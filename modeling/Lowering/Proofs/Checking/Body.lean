import Lowering.Function.Compile
import Lowering.Proofs.Checking.Mirrors
/-!
# Lowering a body finds the same problems on paths that look alike

Two paths look alike if they have the same variables in sight and the same problems reported, and control has left the
function on both or on neither (`Path.sketch`). What is known of the values of variables may differ. Statement by
statement they go on to look alike, or the same problem stops the lowering on both (`lowerStatement_steady`).
-/

namespace Lowering

open IR (Local)

/-- What comes of two steps: results that `Q` relates or the same problem, and states that look alike to `view`. In one
of them a promise of the lowering may be broken. -/
inductive Agree {σ τ α : Type} (view : σ → τ) (Q : α → α → Prop) :
    EStateM.Result Failure σ α → EStateM.Result Failure σ α → Prop where
  | ok {a b : α} {s s' : σ} (hview : view s = view s') (h : Q a b) : Agree view Q (.ok a s) (.ok b s')
  | error (d : Diagnostic) {s s' : σ} (hview : view s = view s') :
      Agree view Q (.error (.diagnostic d) s) (.error (.diagnostic d) s')
  | left (e : InternalError) (s : σ) (r : EStateM.Result Failure σ α) : Agree view Q (.error (.internal e) s) r
  | right (r : EStateM.Result Failure σ α) (e : InternalError) (s : σ) : Agree view Q r (.error (.internal e) s)

/-- Steps that agree in states that look alike. -/
def Steady {σ τ α : Type} (view : σ → τ) (Q : α → α → Prop) (x y : EStateM Failure σ α) : Prop :=
  ∀ s s', view s = view s' → Agree view Q (x s) (y s')

namespace Steady

variable {σ τ α β : Type} {view : σ → τ} {x y : EStateM Failure σ α} {Q : α → α → Prop}
  {f g : α → EStateM Failure σ β} {R : β → β → Prop}

theorem pure (h : Q a b) : Steady view Q (Pure.pure a) (Pure.pure b) := fun _ _ hview => .ok hview h

theorem reject (cause : Cause) (span : Span) :
    Steady view Q (throw (.error cause span)) (throw (.error cause span)) :=
  fun _ _ hview => .error _ hview

theorem promised {p q : Prop} [Decidable p] [Decidable q] {e : InternalError} {f g : PUnit → EStateM Failure σ α}
    (h : Steady view Q (f ⟨⟩) (g ⟨⟩)) :
    Steady view Q (if p then throw (.internal e) >>= f else f ⟨⟩) (if q then throw (.internal e) >>= g else g ⟨⟩) := by
  split
  · exact fun s _ _ => .left e s _
  split
  · exact fun _ s _ => .right _ e s
  · exact h

theorem guarded {p : Prop} [Decidable p] {cause : Cause} {span : Span} {f g : PUnit → EStateM Failure σ α}
    (h : Steady view Q (f ⟨⟩) (g ⟨⟩)) :
    Steady view Q (if p then throw (.error cause span) >>= f else f ⟨⟩)
      (if p then throw (.error cause span) >>= g else g ⟨⟩) := by
  split
  · exact fun _ _ hview => .error _ hview
  · exact h

theorem bind (hx : Steady view Q x y) (hf : ∀ a b, Q a b → Steady view R (f a) (g b)) :
    Steady view R (x >>= f) (y >>= g) := by
  intro s s' hview
  have hboth := hx s s' hview
  show Agree view R (EStateM.bind x f s) (EStateM.bind y g s')
  unfold EStateM.bind
  generalize x s = r at hboth ⊢
  generalize y s' = r' at hboth ⊢
  cases hboth with
  | ok hview h => exact hf _ _ h _ _ hview
  | error d hview => exact .error d hview
  | left e s => exact .left e s _
  | right r e s => exact .right _ e s

theorem of_view {ρ : Type} {P : α → ρ → Prop} (answer : τ → EStateM.Result Diagnostic τ ρ)
    (h : ∀ s, Ensures x s (fun a s' => ∃ t, answer (view s) = .ok t (view s') ∧ P a t)
      fun e s' => ∀ d, e = .diagnostic d → answer (view s) = .error d (view s'))
    (hQ : ∀ a b t, P a t → P b t → Q a b) : Steady view Q x x := by
  intro s s' hview
  have hx := h s
  have hy := h s'
  rw [hview] at hx
  unfold Ensures at hx hy
  generalize x s = r at hx ⊢
  generalize x s' = r' at hy ⊢
  cases r with
  | error e s =>
    cases e with
    | internal e => exact .left e s _
    | diagnostic d =>
      have hanswer := hx d rfl
      cases r' with
      | ok b s' =>
        obtain ⟨t, hanswer', -⟩ := hy
        cases hanswer.symm.trans hanswer'
      | error e s' =>
        cases e with
        | internal e => exact .right _ e s'
        | diagnostic d' =>
          obtain ⟨rfl, hs⟩ := EStateM.Result.error.inj (hanswer.symm.trans (hy d' rfl))
          exact .error d hs
  | ok a s =>
    obtain ⟨t, hanswer, ht⟩ := hx
    rcases r' with ⟨b, s'⟩ | ⟨e, s'⟩
    · obtain ⟨t', hanswer', ht'⟩ := hy
      obtain ⟨rfl, hs⟩ := EStateM.Result.ok.inj (hanswer.symm.trans hanswer')
      exact .ok hs (hQ a b t ht ht')
    cases e with
    | internal e => exact .right _ e s'
    | diagnostic d => cases hanswer.symm.trans (hy d rfl)

theorem answers {ρ : Type} {x : Work α} {P : α → ρ → Prop} {question : Outline → Except Diagnostic ρ}
    (h : ∀ o, Answers x o (question o) P) (hQ : ∀ a b t, P a t → P b t → Q a b) : Steady Workspace.outline Q x x := by
  refine of_view (fun o => (MonadExcept.ofExcept (question o) : EStateM Diagnostic Outline ρ) o)
    (fun w => (h _ w rfl).mono (fun a w' _ ha => ?_) fun e w' _ he d hd => ?_) hQ
  · obtain ⟨hw, t, ht, hP⟩ := ha
    exact ⟨t, by rw [ht, hw]; rfl, hP⟩
  · obtain ⟨hw, hd, -⟩ := he d hd
    rw [hd, hw]
    rfl

theorem unseen (hx : Unseen view x) (hy : Unseen view y) : Steady view (fun _ _ => True) x y := by
  intro s s' hview
  have hx := hx s
  have hy := hy s'
  unfold Ensures at hx hy
  generalize x s = r at hx ⊢
  generalize y s' = r' at hy ⊢
  cases r with
  | error e s =>
    cases e with
    | internal e => exact .left e s _
    | diagnostic => exact hx.elim
  | ok a s =>
    cases r' with
    | error e s' =>
      cases e with
      | internal e => exact .right _ e s'
      | diagnostic => exact hy.elim
    | ok b s' => exact .ok (hx.trans (hview.trans hy.symm)) trivial

theorem look {f g : σ → EStateM Failure σ α} (h : ∀ s s', view s = view s' → Steady view Q (f s) (g s')) :
    Steady view Q (get >>= f) (get >>= g) :=
  fun s s' hview => h s s' hview s s' hview

theorem bind_unseen (hx : Steady view Q x y) (hf : ∀ a, Unseen view (f a)) (hg : ∀ b, Unseen view (g b)) :
    Steady view (fun _ _ => True) (x >>= f) (y >>= g) :=
  hx.bind fun a b _ => .unseen (hf a) (hg b)

theorem unseen_bind (hx : Unseen view x) (hy : Unseen view y) (hf : ∀ a b, Steady view R (f a) (g b)) :
    Steady view R (x >>= f) (y >>= g) :=
  (unseen hx hy).bind fun a b _ => hf a b

theorem ofWork {x y : Work α} (h : Steady Workspace.outline Q x y) :
    Steady Path.sketch Q (Build.ofWork x) (Build.ofWork y) := by
  intro path path' hsketch
  have hafter {w w' : Workspace} (hview : w.outline = w'.outline) :
      ({ path with toWorkspace := w } : Path).sketch = ({ path' with toWorkspace := w' } : Path).sketch := by
    simp_all [Path.sketch, Workspace.outline]
  have hboth := h _ _ (congrArg Sketch.outline hsketch)
  unfold Build.ofWork
  generalize x path.toWorkspace = r at hboth ⊢
  generalize y path'.toWorkspace = r' at hboth ⊢
  cases hboth with
  | ok hview h => exact .ok (hafter hview) h
  | error d hview => exact .error d (hafter hview)
  | left e w => exact .left e _ _
  | right r e w => exact .right _ e _

end Steady

section Statements

variable {ctx : Context}

theorem lowerUse_steady (e : Expr) (expected : Option TypeRef) : Steady Workspace.outline (fun r r' => r.ty = r'.ty)
    (lowerOperand ctx e expected) (lowerOperand ctx e expected) :=
  .answers (fun _ => lowerOperand_answers e expected) fun _ _ _ h h' => h.trans h'.symm

theorem resolve_steady (ty : TypeName) : Steady Workspace.outline Eq
    (Work.check (ctx.catalog.resolveValue [] ty)) (Work.check (ctx.catalog.resolveValue [] ty)) :=
  .answers (fun _ => .check_map (Catalog.resolveValue_blames _) (id_map _)) fun _ _ _ h h' => h.trans h'.symm

theorem locate_steady (p : Place) : Steady Workspace.outline (fun l l' => l.ty = l'.ty)
    (do Work.check ((← get).scope.locate ctx.catalog p)) (do Work.check ((← get).scope.locate ctx.catalog p)) := by
  have hanswers (o : Outline) : Answers (do Work.check ((← get).scope.locate ctx.catalog p)) o (o.typeOf ctx.catalog p)
      fun l ty => l.ty = ty := by
    refine .look fun w hw => .check_map (w.scope.locate_blames _ _) ?_
    rw [locate_outline, hw]
  exact .answers hanswers fun _ _ _ h h' => h.trans h'.symm

theorem declareVariable_steady (ty : TypeRef) (name : Identifier) :
    Steady Workspace.outline (fun _ _ => True) (declareVariable ty name) (declareVariable ty name) := by
  refine .of_view (P := fun _ (_ : Unit) => True) (fun o =>
    if o.owns name.symbol then .error (.error (.duplicateVariable name.symbol) name.span) o
    else if ty.isVoid then .error (.error (.invalidVariableType ty) name.span) o
    else .ok () (o.push name.symbol ty)) (fun w => ?_) fun _ _ _ _ _ => trivial
  rw [show w.outline.owns name.symbol = w.scope.owns name.symbol from owns_outline name.symbol]
  refine (declareVariable_ensures ty name _).mono (fun _ w _ h => ?_) fun e w _ h => ?_
  · obtain ⟨howns, hvoid, -, rfl⟩ := h
    refine ⟨(), ?_, trivial⟩
    rw [if_neg (Bool.eq_false_iff.1 howns), if_neg (Bool.eq_false_iff.1 hvoid), Workspace.outline, Workspace.outline,
      outline_push]
    unfold Variable.declared
    split <;> rfl
  obtain ⟨rfl, ⟨howns, rfl⟩ | ⟨howns, hvoid, rfl⟩⟩ := h
  · rintro d ⟨⟩
    rw [if_pos howns]
  · rintro d ⟨⟩
    rw [if_neg (Bool.eq_false_iff.1 howns), if_pos hvoid]

theorem declareParameter_steady (p : Incoming) :
    Steady Workspace.outline (fun _ _ => True) (declareParameter p) (declareParameter p) := by
  refine .of_view (P := fun _ (_ : Unit) => True) (fun o =>
    if o.owns p.name.symbol then .error (.error (.duplicateVariable p.name.symbol) p.name.span) o
    else .ok () (o.push p.name.symbol p.ty)) (fun w => ?_) fun _ _ _ _ _ => trivial
  rw [show w.outline.owns p.name.symbol = w.scope.owns p.name.symbol from owns_outline p.name.symbol]
  refine (declareParameter_ensures p _).mono (fun _ w _ h => ?_) fun e w _ h => ?_
  · obtain ⟨howns, -, rfl⟩ := h
    refine ⟨(), ?_, trivial⟩
    rw [if_neg (Bool.eq_false_iff.1 howns), Workspace.outline, Workspace.outline, outline_push]
    grind [Incoming.toVariable]
  obtain ⟨rfl, howns, rfl⟩ := h
  rintro d ⟨⟩
  rw [if_pos howns]

theorem declareParameters_steady (incoming : List Incoming) :
    Steady Workspace.outline (fun _ _ => True) (declareParameters incoming) (declareParameters incoming) := by
  induction incoming with
  | nil => exact .pure trivial
  | cons p rest ih =>
    exact (declareParameter_steady p).bind fun _ _ _ => ih.bind_unseen (fun _ => .pure _) fun _ => .pure _

theorem storeAt_unseen (l : Location) (value : Ready) : Unseen Workspace.outline (storeAt ctx l value) := by
  unfold storeAt
  split
  · exact .bind (writeVariable_unseen _ _) fun _ => .pure _
  · split
    · exact .bind (writeVariable_unseen _ _) fun _ => .pure _
    split
    · exact .pure _
    · exact .bind (readVariable_unseen _) fun _ => .bind (copyStructure_unseen _ _ _) fun _ => .pure _
  refine .bind (walkTo_unseen _ _ _) fun _ => ?_
  dsimp only
  split
  · exact .bind (copyStructure_unseen _ _ _) fun _ => .pure _
  · exact .pure _

theorem setReturned_steady : Steady Path.sketch (fun _ _ => True) setReturned setReturned := by
  intro path path' hsketch
  refine .ok ?_ trivial
  simp_all [Path.sketch]

theorem report_steady (d : Diagnostic) : Steady Path.sketch (fun _ _ => True) (Build.report d) (Build.report d) := by
  intro path path' hsketch
  refine .ok ?_ trivial
  simp_all [Path.sketch]

theorem lowerReturn_steady (e : Option Expr) (span : Span) :
    Steady Path.sketch (fun _ _ => True) (lowerReturn ctx e span) (lowerReturn ctx e span) := by
  unfold lowerReturn
  dsimp only
  rcases e with _ | e
  · dsimp only
    split
    · exact .reject _ _
    · exact setReturned_steady.bind_unseen (fun _ => .pure _) fun _ => .pure _
  refine (lowerUse_steady e none).ofWork.bind fun value value' hty => .promised ?_
  rw [hty]
  refine .guarded ?_
  split
  · exact .unseen_bind (.ofWork (copyStructure_unseen _ _ _)) (.ofWork (copyStructure_unseen _ _ _)) fun _ _ =>
      .unseen_bind (.pure _) (.pure _) fun _ _ => setReturned_steady.bind_unseen (fun _ => .pure _) fun _ => .pure _
  · exact .unseen_bind (.pure _) (.pure _) fun _ _ => setReturned_steady.bind_unseen (fun _ => .pure _) fun _ => .pure _

theorem lowerCallStatement_unseen (l : Lowered) : Unseen Workspace.outline (match l.output with
    | .compound (.call returnType callee arguments) => pure (l.code ++ [.call returnType callee arguments] ++ l.epilog)
    | _ => pure (l.code ++ l.epilog) : Work IR.Code) := by
  split <;> exact .pure _

/-! Branches. -/

theorem branch_steady (h : Steady Path.sketch (fun _ _ => True) body body') (start start' : Local) :
    Steady Path.sketch (fun b b' => b.returned = b'.returned) (branch start body) (branch start' body') := by
  intro path path' hsketch
  have hinner : ({ path with scope := path.scope.child, label := start, returned := false } : Path).sketch =
      ({ path' with scope := path'.scope.child, label := start', returned := false } : Path).sketch := by
    simp only [Path.sketch, outline_child, Sketch.mk.injEq] at hsketch ⊢
    simp only [hsketch, and_self]
  have hbody := h _ _ hinner
  show Agree _ _ (EStateM.bind body _ _) (EStateM.bind body' _ _)
  unfold EStateM.bind
  generalize body { path with scope := path.scope.child, label := start, returned := false } = r at hbody ⊢
  generalize body' { path' with scope := path'.scope.child, label := start', returned := false } = r' at hbody ⊢
  cases hbody with
  | ok hbody =>
    simp only [Path.sketch, Sketch.mk.injEq] at hsketch hbody
    exact .ok (by simp only [Path.sketch, hsketch, hbody]) hbody.2.1
  | error d hbody => exact .error d hbody
  | left e path => exact .left e path _
  | right r e path => exact .right _ e path

theorem joinOne_unseen (condition : Ready) (positive : Branch) : Unseen Path.sketch (joinOne condition positive) := by
  refine .bind (.ofWork .fresh) fun _ => .bind .get fun _ => .bind (.ofWork (syncVariables_unseen _)) fun _ => ?_
  exact .bind (.modify fun _ => rfl) fun _ => .pure _

theorem joinTwo_steady {condition condition' : Ready} {positive positive' negative negative' : Branch}
    (hpositive : positive.returned = positive'.returned) (hnegative : negative.returned = negative'.returned) :
    Steady Path.sketch (fun _ _ => True) (joinTwo condition positive negative)
      (joinTwo condition' positive' negative') := by
  refine .unseen_bind (.ofWork .fresh) (.ofWork .fresh) fun _ _ =>
    .unseen_bind (.ofWork (syncVariables_unseen _)) (.ofWork (syncVariables_unseen _)) fun _ _ => ?_
  dsimp only
  rw [hpositive, hnegative]
  split
  · exact setReturned_steady.bind_unseen (fun _ => .pure _) fun _ => .pure _
  · exact .unseen (.bind (.modify fun _ => rfl) fun _ => .pure _) (.bind (.modify fun _ => rfl) fun _ => .pure _)

mutual

/-- **A statement is lowered alike on paths that look alike.** -/
theorem lowerStatement_steady : ∀ statement : Statement,
    Steady Path.sketch (fun _ _ => True) (lowerStatement ctx statement) (lowerStatement ctx statement)
  | .declare ty name _ => by
    rw [lowerStatement]
    refine .ofWork ((resolve_steady ty).bind fun ty _ hty => hty ▸ ?_)
    exact (declareVariable_steady ty name).bind_unseen (fun _ => .pure _) fun _ => .pure _
  | .assign target value span => by
    rw [lowerStatement]
    refine .ofWork ((lowerUse_steady value none).bind fun value value' hvalue => ?_)
    refine (locate_steady target).bind fun location location' hty => ?_
    dsimp only
    rw [hvalue, hty]
    exact .guarded (.unseen (storeAt_unseen _ _) (storeAt_unseen _ _))
  | .declareAssign ty name value span => by
    rw [lowerStatement]
    refine .ofWork ((lowerUse_steady value none).bind fun value value' hvalue =>
      (resolve_steady ty).bind fun ty _ hty => hty ▸ ?_)
    dsimp only
    rw [hvalue]
    refine .guarded ((declareVariable_steady ty name).bind_unseen ?_ ?_)
    · exact fun _ => .bind (storeAt_unseen _ _) fun _ => .pure _
    · exact fun _ => .bind (storeAt_unseen _ _) fun _ => .pure _
  | .ret value span => by
    rw [lowerStatement]
    exact lowerReturn_steady value span
  | .call call => by
    rw [lowerStatement]
    have hcall : Steady Workspace.outline (fun _ _ => True) (lowerCall ctx call) (lowerCall ctx call) :=
      .answers (fun _ => lowerCall_answers call) fun _ _ _ _ _ => trivial
    exact .ofWork (hcall.bind_unseen lowerCallStatement_unseen lowerCallStatement_unseen)
  | .cond _ _ (clause :: _) _ _ => by
    rw [lowerStatement]
    exact .reject _ _
  | .cond condition body [] otherwise _ => by
    rw [lowerStatement]
    refine (lowerUse_steady condition _).ofWork.bind fun condition condition' _ => .promised ?_
    refine .unseen_bind (.ofWork .fresh) (.ofWork .fresh) fun start start' => ?_
    refine (branch_steady (lowerBlock_steady body) start start').bind fun positive positive' hpositive => ?_
    refine (lowerOtherwise_steady otherwise).bind fun negative negative' hnegative => ?_
    cases hnegative with
    | none => exact .unseen (joinOne_unseen _ _) (joinOne_unseen _ _)
    | some hnegative => exact joinTwo_steady hpositive hnegative

theorem lowerOtherwise_steady : ∀ otherwise : Option Block,
    Steady Path.sketch (Option.Rel fun b b' => b.returned = b'.returned) (lowerOtherwise ctx otherwise)
      (lowerOtherwise ctx otherwise)
  | none => by
    rw [lowerOtherwise]
    exact .pure .none
  | some block => by
    rw [lowerOtherwise]
    refine .unseen_bind (.ofWork .fresh) (.ofWork .fresh) fun start start' => ?_
    exact (branch_steady (lowerBlock_steady block) start start').bind fun _ _ h => .pure (.some h)

theorem lowerBlock_steady : ∀ block : Block,
    Steady Path.sketch (fun _ _ => True) (lowerBlock ctx block) (lowerBlock ctx block)
  | ⟨statements, _⟩ => by
    rw [lowerBlock]
    exact lowerStatements_steady statements

theorem lowerStatements_steady : ∀ statements : List Statement,
    Steady Path.sketch (fun _ _ => True) (lowerStatements ctx statements) (lowerStatements ctx statements)
  | [] => by
    rw [lowerStatements]
    exact .pure trivial
  | statement :: rest => by
    rw [lowerStatements]
    refine .look fun path path' hsketch => ?_
    rw [show path.returned = path'.returned from congrArg Sketch.returned hsketch]
    split
    · exact (report_steady _).bind_unseen (fun _ => .pure _) fun _ => .pure _
    · exact (lowerStatement_steady statement).bind fun _ _ _ =>
        (lowerStatements_steady rest).bind_unseen (fun _ => .pure _) fun _ => .pure _

end

/-- **A function is lowered alike**, whatever is known of the values of variables. -/
theorem lowerEntry_steady (entry : Local) (incoming : List Incoming) (body : Block) :
    Steady Path.sketch (fun _ _ => True) (lowerEntry ctx entry incoming body) (lowerEntry ctx entry incoming body) := by
  have hbody : Steady Path.sketch (fun _ _ => True) (lowerBody ctx body) (lowerBody ctx body) := by
    refine (lowerBlock_steady body).bind fun _ _ _ => .look fun path path' hsketch => ?_
    rw [show path.returned = path'.returned from congrArg Sketch.returned hsketch]
    exact .guarded (.pure trivial)
  exact (declareParameters_steady incoming).ofWork.bind fun _ _ _ =>
    hbody.bind_unseen (fun _ => .pure _) fun _ => .pure _

end Statements

end Lowering
