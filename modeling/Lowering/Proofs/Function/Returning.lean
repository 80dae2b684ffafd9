import Lowering.Proofs.Checking.Body
import Lowering.Proofs.Function.Compile
/-!
# Where a body returns, and what stands behind that

Whether a block returns on every way through it is plain from its statements (`Block.surelyReturns`), and so is the code
that is never reached: the statements behind the first one that surely returns. Lowering finds out just that
(`return_analysis`). What is never reached is warned about and not lowered: without it (`Block.trim`) the same is
emitted.
-/

namespace Lowering

open IR (Code Local)

/-! ### Sure returns -/

mutual

/-- The statement is a return, or a conditional that returns on both of its branches. -/
def Statement.surelyReturns : Statement → Bool
  | .ret _ _ => true
  | .cond _ body _ (some otherwise) _ => body.surelyReturns && otherwise.surelyReturns
  | _ => false

/-- One of the statements of the block surely returns. -/
def Block.surelyReturns : Block → Bool
  | ⟨statements, _⟩ => Statement.someReturns statements

def Statement.someReturns : List Statement → Bool
  | [] => false
  | statement :: rest => statement.surelyReturns || Statement.someReturns rest

end

mutual

/-- The places in a statement where code begins that is never reached, in the order of the text. -/
def Statement.deadStarts : Statement → List Span
  | .cond _ body _ none _ => body.deadStarts
  | .cond _ body _ (some otherwise) _ => body.deadStarts ++ otherwise.deadStarts
  | _ => []

def Block.deadStarts : Block → List Span
  | ⟨statements, _⟩ => Statement.allDeadStarts statements

/-- In a row of statements that is the one behind the first that surely returns. -/
def Statement.allDeadStarts : List Statement → List Span
  | [] => []
  | statement :: rest => statement.deadStarts ++
    if statement.surelyReturns then (rest.head?.map Statement.span).toList else Statement.allDeadStarts rest

end

mutual

/-- The statement without the code in it that is never reached. -/
def Statement.trim : Statement → Statement
  | .cond condition body clauses none span => .cond condition body.trim clauses none span
  | .cond condition body clauses (some otherwise) span =>
    .cond condition body.trim clauses (some otherwise.trim) span
  | statement => statement

def Block.trim : Block → Block
  | ⟨statements, span⟩ => ⟨Statement.trimAll statements, span⟩

def Statement.trimAll : List Statement → List Statement
  | [] => []
  | statement :: rest => statement.trim :: if statement.surelyReturns then [] else Statement.trimAll rest

end

/-! ### Leaving out what is never reached -/

/-- Any failure but the one that a body comes to its end. -/
def Failure.IsPlain : Failure → Prop
  | .diagnostic d => d.IsPlain
  | .internal _ => True

theorem Failure.IsInternal.isPlain {e : Failure} (h : e.IsInternal) : e.IsPlain := by
  cases e with
  | diagnostic => exact h.elim
  | internal => trivial

theorem Failure.IsPlain.error (h : cause.isPlain = true) (span : Span) :
    Failure.IsPlain (.diagnostic (.error cause span)) :=
  ⟨rfl, h⟩

/-- Whatever stops the step, it is not that a body comes to its end. -/
def Work.Plain {α : Type} (x : Work α) : Prop := ∀ w, Ensures x w (fun _ _ => True) fun e _ => e.IsPlain

namespace Work.Plain

variable {α β : Type} {x : Work α}

theorem bind {f : α → Work β} (hx : Plain x) (hf : ∀ a, Plain (f a)) : Plain (x >>= f) :=
  fun w => .bind ((hx w).mono (fun a w' _ _ => hf a w') fun _ _ _ he => he)

theorem look {f : Workspace → Work α} (h : ∀ w, Plain (f w)) : Plain (get >>= f) := fun w => h w w

theorem guarded {p : Prop} [Decidable p] {e : Failure} (he : e.IsPlain) {f : PUnit → Work α} (h : Plain (f ⟨⟩)) :
    Plain (if p then throw e >>= f else f ⟨⟩) := by
  split
  · exact fun _ => he
  · exact h

theorem check {answer : Except Diagnostic α} (h : Blames answer) : Plain (Work.check answer) := by
  intro w
  cases answer with
  | ok => exact trivial
  | error d => exact h d rfl

theorem unseen (h : Unseen Workspace.outline x) : Plain x :=
  fun w => (h w).mono (fun _ _ _ _ => trivial) fun _ _ _ he => he.isPlain

theorem answers {question : Outline → Except Diagnostic β} (h : ∀ o, Answers x o (question o) Q) : Plain x :=
  fun w => (h _ w rfl).mono (fun _ _ _ _ => trivial) fun e _ _ he => by
    cases e with
    | diagnostic d => exact (he d rfl).2.2
    | internal => trivial

end Work.Plain

namespace Build

variable {α β : Type}

/-- Begun where control has left the function or not, as `before` says, `x` comes to an end as `after` says, and reports
that the code at `dead` is never reached. `y` does the same except that it reports nothing. Neither stops because the
body comes to its end. -/
def Prunes (before after : Bool) (dead : List Span) (Q : α → Prop) (x y : Build α) : Prop :=
  ∀ path : Path, path.returned = before → ∀ reports, Ensures x path
    (fun a path' => (Q a ∧ path'.returned = after ∧ path'.reports = path.reports ++ dead.map (.warning .deadCode)) ∧
      y { path with reports } = .ok a { path' with reports })
    fun e path' => e.IsPlain ∧ y { path with reports } = .error e { path' with reports }

/-- Nothing of that concerns the step. -/
def Blind (x : Build α) : Prop := Prunes false false [] (fun _ => True) x x

namespace Prunes

variable {before between after : Bool} {dead dead' : List Span} {Q : α → Prop} {R : β → Prop} {x y : Build α}
  {f g : α → Build β}

theorem pure {a : α} (h : Q a) : Prunes before before [] Q (Pure.pure a) (Pure.pure a) :=
  fun _ hpath _ => ⟨⟨h, hpath, (List.append_nil _).symm⟩, rfl⟩

theorem throw (h : e.IsPlain) : Prunes before after dead Q (MonadExcept.throw e) (MonadExcept.throw e) :=
  fun _ _ _ => ⟨h, rfl⟩

theorem bind (hx : Prunes before between dead Q x y) (hf : ∀ a, Q a → Prunes between after dead' R (f a) (g a)) :
    Prunes before after (dead ++ dead') R (x >>= f) (y >>= g) := by
  intro path hpath reports
  refine .bind ((hx path hpath reports).mono (fun a path' _ ha => ?_) fun e path' _ he => ?_)
  · obtain ⟨⟨hQ, hreturned, hreports⟩, hy⟩ := ha
    rw [bind_of_ok hy]
    refine (hf a hQ path' hreturned reports).mono (fun b path'' _ hb => ?_) fun _ _ _ he => he
    rwa [hreports, List.append_assoc, ← List.map_append] at hb
  · exact ⟨he.1, bind_of_error he.2 g⟩

theorem map (h : Prunes before after dead Q x y) (f : α → β) : Prunes before after dead (fun _ => True)
    (x >>= fun a => Pure.pure (f a)) (y >>= fun a => Pure.pure (f a)) := by
  rw [← dead.append_nil]
  exact h.bind fun _ _ => .pure trivial

theorem after_blind (hx : Blind x) (hf : ∀ a, Prunes false after dead R (f a) (g a)) :
    Prunes false after dead R (x >>= f) (x >>= g) := by
  show Prunes false after ([] ++ dead) R _ _
  exact bind hx fun a _ => hf a

/-- A step that is only taken if nothing forbids it. -/
theorem guarded {p : Prop} [Decidable p] {e : Failure} (he : e.IsPlain) {f g : PUnit → Build α}
    (h : Prunes before after dead Q (f ⟨⟩) (g ⟨⟩)) :
    Prunes before after dead Q (if p then MonadExcept.throw e >>= f else f ⟨⟩)
      (if p then MonadExcept.throw e >>= g else g ⟨⟩) := by
  split
  · exact throw he
  · exact h

/-- A step that is only taken where control is in the function. -/
theorem reached (h : Prunes false after dead Q x y) (z z' : Build α) : Prunes false after dead Q
    (get >>= fun path : Path => if path.returned then z else x)
    (get >>= fun path : Path => if path.returned then z' else y) := by
  intro path hpath reports
  have hskip (z x : Build α) (reports : List Diagnostic) :
      (get >>= fun path : Path => if path.returned then z else x) { path with reports } = x { path with reports } := by
    show (if path.returned = true then z else x) _ = _
    rw [if_neg (by simp [hpath])]
  unfold Ensures
  rw [show (get >>= fun path : Path => if path.returned then z else x) path = x path from hskip z x path.reports,
    hskip z' y]
  exact h path hpath reports

theorem setReturned : Prunes before true [] (fun _ => True) Lowering.setReturned Lowering.setReturned :=
  fun _ _ _ => ⟨⟨trivial, rfl, (List.append_nil _).symm⟩, rfl⟩

end Prunes

namespace Blind

variable {x y : Build α}

theorem pure (a : α) : Blind (Pure.pure a) := Prunes.pure trivial

theorem bind {f : α → Build β} (hx : Blind x) (hf : ∀ a, Blind (f a)) : Blind (x >>= f) :=
  Prunes.bind hx fun a _ => hf a

theorem look {f : Path → Build α} (h : ∀ path reports, f { path with reports } = f path) (hf : ∀ path, Blind (f path)) :
    Blind (get >>= f) := by
  intro path hpath reports
  have hget : (get >>= f) { path with reports } = f path { path with reports } := by
    show f _ _ = _
    rw [h]
  rw [hget]
  exact hf path path hpath reports

theorem ofWork {work : Work α} (h : work.Plain) : Blind (Build.ofWork work) := by
  intro path hpath reports
  have hplain := h path.toWorkspace
  unfold Ensures Build.ofWork at *
  dsimp only
  cases hwork : work path.toWorkspace with
  | ok => simp [hpath]
  | error =>
    rw [hwork] at hplain
    exact ⟨hplain, rfl⟩

theorem unseen {work : Work α} (h : Unseen Workspace.outline work) : Blind (Build.ofWork work) :=
  .ofWork (.unseen h)

end Blind

end Build

open Build (Blind Prunes)

section Steps

variable {ctx : Context}

theorem lowerOperand_plain (e : Expr) (expected : Option TypeRef) : Work.Plain (lowerOperand ctx e expected) :=
  .answers fun _ => lowerOperand_answers e expected

theorem declareVariable_plain (ty : TypeRef) (name : Identifier) : Work.Plain (declareVariable ty name) :=
  fun w => (declareVariable_ensures ty name w).mono (fun _ _ _ _ => trivial) fun e _ _ he => by
    obtain ⟨-, ⟨-, rfl⟩ | ⟨-, -, rfl⟩⟩ := he <;> exact .error rfl _

theorem declareParameters_plain (incoming : List Incoming) : Work.Plain (declareParameters incoming) := by
  induction incoming with
  | nil => exact .unseen (.pure _)
  | cons p rest ih =>
    refine .bind (fun w => (declareParameter_ensures p w).mono (fun _ _ _ _ => trivial) fun e _ _ he => ?_)
      fun _ => .bind ih fun _ => .unseen (.pure _)
    rw [he.2.2]
    exact .error rfl _

/-! ### Statements -/

theorem lowerReturn_prunes (e : Option Expr) (span : Span) :
    Prunes false true [] (fun _ => True) (lowerReturn ctx e span) (lowerReturn ctx e span) := by
  unfold lowerReturn
  dsimp only
  cases e with
  | none => exact .guarded (.error rfl _) (Prunes.setReturned.map _)
  | some e =>
    refine .after_blind (.ofWork (lowerOperand_plain e none)) fun value =>
      .guarded (e := .internal _) trivial (.guarded (.error rfl _) ?_)
    split
    · refine .after_blind (.unseen (copyStructure_unseen _ _ _)) fun _ => .after_blind (.pure _) fun _ => ?_
      exact Prunes.setReturned.map _
    · exact .after_blind (.pure _) fun _ => Prunes.setReturned.map _

theorem branch_prunes {Q : Code → Prop} (h : Prunes false after dead Q x y) (start : Local) :
    Prunes false false dead (fun b : Branch => b.returned = after) (branch start x) (branch start y) := by
  intro path hpath reports
  let enter (code : Code) : Build Branch := do
    let inner : Path ← get
    set { path with fresh := inner.fresh, copied := inner.copied, reports := inner.reports }
    return ⟨start, code, inner.label, inner.returned, inner.scope⟩
  have hbranch : branch start y { path with reports } =
      (y >>= enter) { path with scope := path.scope.child, label := start, returned := false, reports } := rfl
  have hbody := h { path with scope := path.scope.child, label := start, returned := false } rfl reports
  refine .bind (.get (.bind (.set (.bind (hbody.mono (fun code inner _ hcode => ?_) fun e inner _ he => ?_)))))
  · obtain ⟨⟨-, hreturned, hreports⟩, hy⟩ := hcode
    refine .bind (.get (.bind (.set (.pure ⟨⟨hreturned, hpath, hreports⟩, ?_⟩))))
    rw [hbranch, bind_of_ok hy]
    rfl
  · exact ⟨he.1, hbranch.trans (bind_of_error he.2 _)⟩

theorem joinOne_blind (condition : Ready) (positive : Branch) : Blind (joinOne condition positive) := by
  refine .bind (.unseen .fresh) fun _ => .look (fun _ _ => rfl) fun _ =>
    .bind (.unseen (syncVariables_unseen _)) fun _ => ?_
  exact fun path hpath _ => ⟨⟨trivial, hpath, (List.append_nil _).symm⟩, rfl⟩

theorem joinTwo_prunes (condition : Ready) (positive negative : Branch) :
    Prunes false (positive.returned && negative.returned) [] (fun _ => True) (joinTwo condition positive negative)
      (joinTwo condition positive negative) := by
  refine .after_blind (.unseen .fresh) fun _ => .after_blind (.unseen (syncVariables_unseen _)) fun _ => ?_
  dsimp only
  cases positive.returned && negative.returned with
  | true => exact Prunes.setReturned.map _
  | false => exact fun path hpath _ => ⟨⟨trivial, hpath, (List.append_nil _).symm⟩, rfl⟩

/-- Where control has left the function, the next statement is reported and nothing is lowered. -/
theorem lowerStatements_returned (statements : List Statement) :
    Prunes true true (statements.head?.map Statement.span).toList (fun _ => True) (lowerStatements ctx statements)
      (lowerStatements ctx []) := by
  intro path hpath reports
  cases statements with
  | nil =>
    rw [lowerStatements]
    exact Prunes.pure trivial path hpath reports
  | cons s rest =>
    rw [lowerStatements, lowerStatements]
    show Ensures (fun path' => (if path.returned = true then _ else _ : Build Code) path') path _ _
    rw [if_pos hpath]
    exact ⟨⟨trivial, hpath, rfl⟩, rfl⟩

mutual

/-- What is emitted for a statement is what is emitted for it without the code that is never reached. -/
theorem lowerStatement_prunes : ∀ s : Statement,
    Prunes false s.surelyReturns s.deadStarts (fun _ => True) (lowerStatement ctx s) (lowerStatement ctx s.trim)
  | .declare ty name _ => by
    rw [lowerStatement]
    exact Blind.ofWork (.bind (.check (Catalog.resolveValue_blames _)) fun _ =>
      .bind (declareVariable_plain _ _) fun _ => .unseen (.pure _))
  | .assign target value _ => by
    rw [lowerStatement]
    exact Blind.ofWork (.bind (lowerOperand_plain _ _) fun _ => .look fun w =>
      .bind (.check (w.scope.locate_blames _ _)) fun _ => .guarded (.error rfl _) (.unseen (storeAt_unseen _ _)))
  | .declareAssign ty name value _ => by
    rw [lowerStatement]
    refine Blind.ofWork (.bind (lowerOperand_plain _ _) fun _ => .bind (.check (Catalog.resolveValue_blames _)) ?_)
    exact fun _ => .guarded (.error rfl _) (.bind (declareVariable_plain _ _) fun _ =>
      .unseen (.bind (storeAt_unseen _ _) fun _ => .pure _))
  | .ret value _ => by
    rw [lowerStatement]
    exact lowerReturn_prunes _ _
  | .call c => by
    rw [lowerStatement]
    exact Blind.ofWork (.bind (.answers fun _ => lowerCall_answers c) fun l => .unseen (lowerCallStatement_unseen l))
  | .cond _ _ (clause :: _) none _ | .cond _ _ (clause :: _) (some _) _ => by
    rw [lowerStatement, Statement.trim, lowerStatement]
    exact .throw (.error rfl _)
  | .cond condition body [] none span => by
    rw [Statement.trim, lowerStatement, lowerStatement, Statement.deadStarts]
    show Prunes _ false _ _ _ _
    refine .after_blind (.ofWork (lowerOperand_plain _ _)) fun _ =>
      .guarded (e := .internal _) trivial (.after_blind (.unseen .fresh) fun start => ?_)
    rw [← body.deadStarts.append_nil, lowerOtherwise]
    exact (branch_prunes (lowerBlock_prunes body) start).bind fun positive _ => joinOne_blind _ _
  | .cond condition body [] (some otherwise) span => by
    rw [Statement.trim, lowerStatement, lowerStatement, Statement.deadStarts, Statement.surelyReturns]
    refine .after_blind (.ofWork (lowerOperand_plain _ _)) fun _ =>
      .guarded (e := .internal _) trivial (.after_blind (.unseen .fresh) fun start => ?_)
    refine (branch_prunes (lowerBlock_prunes body) start).bind fun positive hpositive => ?_
    simp only [lowerOtherwise, bind_assoc, bind_map_left]
    refine .after_blind (.unseen .fresh) fun start => ?_
    rw [← otherwise.deadStarts.append_nil]
    refine (branch_prunes (lowerBlock_prunes otherwise) start).bind fun negative hnegative => ?_
    rw [← hpositive, ← hnegative]
    exact joinTwo_prunes _ _ _

theorem lowerBlock_prunes : ∀ block : Block,
    Prunes false block.surelyReturns block.deadStarts (fun _ => True) (lowerBlock ctx block) (lowerBlock ctx block.trim)
  | ⟨statements, _⟩ => by
    rw [Block.trim, lowerBlock, lowerBlock]
    exact lowerStatements_prunes statements

theorem lowerStatements_prunes : ∀ statements : List Statement,
    Prunes false (Statement.someReturns statements) (Statement.allDeadStarts statements) (fun _ => True)
      (lowerStatements ctx statements) (lowerStatements ctx (Statement.trimAll statements))
  | [] => by
    rw [Statement.trimAll, lowerStatements]
    exact .pure trivial
  | s :: rest => by
    have hs := lowerStatement_prunes s
    rw [lowerStatements, Statement.trimAll, lowerStatements, Statement.someReturns, Statement.allDeadStarts]
    refine .reached (hs.bind fun code _ => ?_) _ _
    cases s.surelyReturns with
    | true => exact (lowerStatements_returned rest).map _
    | false => exact (lowerStatements_prunes rest).map _

end

end Steps

/-! ### Functions -/

/-- The error that a body comes to its end without a return. -/
def Block.missingReturn (body : Block) : Failure := .diagnostic (.error .missingReturn (.point body.span.stop))

theorem Block.trim_span (body : Block) : body.trim.span = body.span := by
  cases body
  rw [trim]

section

variable (ctx : Context) (entry : Local) (incoming : List Incoming) {path : Path}

/-- The function up to the end of its body. -/
def lowerParts (body : Block) : Build Code := do
  let parameters ← declareParameters incoming
  let code ← lowerBlock ctx body
  return .label entry :: parameters ++ code

theorem lowerEntry_eq (body : Block) : lowerEntry ctx entry incoming body =
    lowerParts ctx entry incoming body >>= fun code => get >>= fun path : Path =>
      if path.returned then pure code else throw body.missingReturn := by
  unfold lowerEntry lowerBody lowerParts
  simp only [bind_assoc, pure_bind]
  refine bind_congr fun _ => bind_congr fun _ => bind_congr fun path => ?_
  cases path.returned <;> rfl

/-- **A whole body.** It is left on every way through it, or this is the error, if there is no other. -/
theorem lowerEntry_prunes (body : Block) (hpath : path.returned = false) (hreports : path.reports = []) :
    Ensures (lowerEntry ctx entry incoming body) path
      (fun code path' => (body.surelyReturns = true ∧ path'.reports = body.deadStarts.map (.warning .deadCode)) ∧
        lowerEntry ctx entry incoming body.trim path = .ok code { path' with reports := [] })
      fun e path' => (e.IsPlain ∨
          e = body.missingReturn ∧ body.surelyReturns = false ∧
            path'.reports = body.deadStarts.map (.warning .deadCode)) ∧
        lowerEntry ctx entry incoming body.trim path = .error e { path' with reports := [] } := by
  have hparts : Prunes false body.surelyReturns body.deadStarts (fun _ => True) (lowerParts ctx entry incoming body)
      (lowerParts ctx entry incoming body.trim) :=
    .after_blind (.ofWork (declareParameters_plain incoming)) fun _ => (lowerBlock_prunes body).map _
  have hends := hparts path hpath []
  rw [show ({ path with reports := [] } : Path) = path by rw [← hreports], hreports] at hends
  have hsame : body.trim.missingReturn = body.missingReturn := by
    rw [Block.missingReturn, body.trim_span]
    rfl
  rw [lowerEntry_eq, lowerEntry_eq, hsame]
  refine .bind (hends.mono (fun code path' _ hcode => ?_) fun e path' _ he => ?_)
  · obtain ⟨⟨-, hreturned, hreports⟩, hy⟩ := hcode
    rw [bind_of_ok hy]
    -- What is left is to look whether control has left the function, in both bodies alike.
    have hlook (last : Path) : (get >>= fun path : Path =>
        if path.returned then pure code else throw body.missingReturn : Build Code) last =
        if last.returned then .ok code last else .error body.missingReturn last := by
      show (if last.returned then pure code else throw body.missingReturn : Build Code) last = _
      cases last.returned <;> rfl
    unfold Ensures
    rw [hlook, hlook]
    cases hsure : body.surelyReturns with
    | true =>
      rw [if_pos (hreturned.trans hsure), if_pos (hreturned.trans hsure)]
      exact ⟨⟨rfl, hreports⟩, rfl⟩
    | false =>
      rw [if_neg (by simp_all), if_neg (by simp_all)]
      exact ⟨.inr ⟨rfl, rfl, hreports⟩, rfl⟩
  · exact ⟨.inl he.1, bind_of_error he.2 _⟩

end

/-- The function with another body. -/
def Function.withBody (f : Function) (body : Block) : Function :=
  { f with source := { f.source with body := some body } }

/-- A function comes to nothing for a reason in its parameters or statements, or its body alone decides. -/
theorem compileFunction_trim (catalog : Catalog) (registry : Registry) (options : Options) (f : Function)
    (body : Block) :
    let compiled := compileFunction catalog registry options (f.withBody body)
    compiled.procedure = (compileFunction catalog registry options (f.withBody body.trim)).procedure ∧
      ((∃ e, compiled.procedure = .error e ∧ e.IsPlain) ∨
        compiled.reports = body.deadStarts.map (.warning .deadCode) ∧
          if body.surelyReturns then ∃ p, compiled.procedure = .ok p
          else compiled.procedure = .error body.missingReturn) := by
  intro compiled
  cases hsignature : f.linkedSignature with
  | error e =>
    have hcompile (body : Block) : compileFunction catalog registry options (f.withBody body) =
        { procedure := .error (.internal e) } := by
      simp only [compileFunction, show (f.withBody body).linkedSignature = .error e from hsignature]
      rfl
    subst compiled
    rw [hcompile, hcompile]
    exact ⟨rfl, .inl ⟨_, rfl, trivial⟩⟩
  | ok types =>
    have hentry := lowerEntry_prunes ⟨catalog, registry, types.returnType, (f.interface types).returnSlot⟩
      (f.interface types).next (f.interface types).incoming body
      (show ((f.interface types).start options).returned = false from rfl) rfl
    have hlinked (body : Block) : (f.withBody body).linkedSignature = .ok types := hsignature
    cases hlower : (f.withBody body).lower catalog registry options types body with
    | ok code path =>
      obtain ⟨⟨hsure, hreports⟩, hy⟩ := hentry.of_ok hlower
      subst compiled
      rw [compileFunction_of_ok rfl (hlinked _) rfl hlower, compileFunction_of_ok rfl (hlinked _) rfl hy, if_pos hsure]
      refine ⟨rfl, ?_⟩
      cases hok : assemble (f.withBody body) ((f.withBody body).interface types) false code with
      | ok p => exact .inr ⟨hreports, p, rfl⟩
      | error e =>
        refine .inl ⟨e, rfl, ?_⟩
        unfold assemble at hok
        split at hok
        · cases hok
        · cases hok
          trivial
    | error e path =>
      obtain ⟨hends, hy⟩ := hentry.of_error hlower
      subst compiled
      rw [compileFunction_of_error rfl (hlinked _) rfl hlower, compileFunction_of_error rfl (hlinked _) rfl hy]
      refine ⟨rfl, ?_⟩
      obtain hplain | ⟨rfl, hsure, hreports⟩ := hends
      · exact .inl ⟨e, rfl, hplain⟩
      · rw [if_neg (by simp [hsure])]
        exact .inr ⟨hreports, rfl⟩

/-- **Return analysis is exact, and dead code does nothing.** Let `compileFunction` compile `f` with `body`. Any other
statements in the place of those that are never reached, which is to say a body with the same `trim`, give the same
procedure or the same error. If nothing else is wrong, the function fails with `missingReturn`, at the end of its body,
exactly if the body does not surely return, and `deadCode` is warned of once for each block with a statement behind the
first one that surely returns, at that statement and in the order of lowering. -/
theorem return_analysis (catalog : Catalog) (registry : Registry) (options : Options) (f : Function) (body : Block) :
    let compiled := compileFunction catalog registry options (f.withBody body)
    (∀ body', body'.trim = body.trim →
      (compileFunction catalog registry options (f.withBody body')).procedure = compiled.procedure) ∧
    ((∀ e, compiled.procedure = .error e → ∃ span, e = .diagnostic (.error .missingReturn span)) →
      (compiled.procedure = .error (.diagnostic (.error .missingReturn (.point body.span.stop))) ↔
        body.surelyReturns = false) ∧
      compiled.reports = body.deadStarts.map (.warning .deadCode)) := by
  intro compiled
  obtain ⟨htrim, hends⟩ := compileFunction_trim catalog registry options f body
  refine ⟨fun body' hsame => ?_, fun hother => ?_⟩
  · rw [(compileFunction_trim catalog registry options f body').1, hsame, ← htrim]
  obtain ⟨e, herr, hplain⟩ | ⟨hreports, hends⟩ := hends
  · obtain ⟨span, rfl⟩ := hother e herr
    cases hplain.2
  refine ⟨?_, hreports⟩
  cases hsure : body.surelyReturns with
  | true =>
    rw [hsure] at hends
    obtain ⟨p, hok⟩ := hends
    exact iff_of_false (fun h => by cases hok.symm.trans h) (by simp)
  | false =>
    rw [hsure] at hends
    exact iff_of_true hends rfl

/-- A function of a truth value. -/
def chooserFunction : Function where
  source := { name := "choose", parameters := [⟨"c", "bool", {}⟩], returnType := "i32", body := none, exported := true }
  represent := "choose"
  signature := some ⟨[.primitive .bool], .primitive .i32⟩

def returnOf (n : Int64) (span : Span) : Statement := .ret (some (.constant ⟨.integer n, {}⟩)) span

/-- A conditional whose first block returns and goes on behind that. -/
def chooser (otherwise : Option Block) : Statement :=
  .cond (.place "c") ⟨[returnOf 1 ⟨0, 1⟩, returnOf 2 ⟨1, 2⟩], ⟨0, 2⟩⟩ [] otherwise ⟨0, 3⟩

/-- Both blocks return, and a statement stands behind the conditional. -/
def closedBody : Block := ⟨[chooser (some ⟨[returnOf 3 ⟨2, 3⟩], ⟨2, 3⟩⟩), returnOf 4 ⟨3, 4⟩], ⟨0, 4⟩⟩

/-- The way past the only block comes to the end of the body. -/
def openBody : Block := ⟨[chooser none], ⟨0, 4⟩⟩

theorem return_analysis_chooser :
    let compiled := fun body => compileFunction { fileId := 0 } { fileId := 0 } {} (chooserFunction.withBody body)
    (∃ p, (compiled closedBody).procedure = .ok p ∧ (compiled closedBody.trim).procedure = .ok p) ∧
    (compiled closedBody).reports = [.warning .deadCode ⟨1, 2⟩, .warning .deadCode ⟨3, 4⟩] ∧
    (compiled openBody).procedure = .error (.diagnostic (.error .missingReturn ⟨4, 4⟩)) ∧
    (compiled openBody).reports = [.warning .deadCode ⟨1, 2⟩] := by
  intro compiled
  have hok : (compiled closedBody).procedure.isOk = true := by decide +kernel
  have hnone :
      ∀ e, (compiled openBody).procedure = .error e → ∃ span, e = .diagnostic (.error .missingReturn span) := by
    intro e he
    cases he
    exact ⟨_, rfl⟩
  obtain ⟨hsame, hclosed⟩ := return_analysis { fileId := 0 } { fileId := 0 } {} chooserFunction closedBody
  obtain ⟨-, hopen⟩ := return_analysis { fileId := 0 } { fileId := 0 } {} chooserFunction openBody
  obtain ⟨hmissing, hreports⟩ := hopen hnone
  cases hcompiled : (compiled closedBody).procedure with
  | error => simp [hcompiled, Except.isOk, Except.toBool] at hok
  | ok p =>
    have hother :
        ∀ e, (compiled closedBody).procedure = .error e → ∃ span, e = .diagnostic (.error .missingReturn span) :=
      fun e he => by cases hcompiled.symm.trans he
    exact ⟨⟨p, rfl, (hsame closedBody.trim rfl).trans hcompiled⟩, (hclosed hother).2, hmissing.2 rfl, hreports⟩

end Lowering
