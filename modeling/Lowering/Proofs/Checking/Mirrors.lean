import Lowering.Proofs.Body.Arrivals
import Lowering.Proofs.Checking.Expression
/-!
# Lowering makes exactly the checks

Emitting code reads values and learns them, writes values back and brings branches together, and the checks see nothing
of all that (`Unseen`): names and types of variables stay as they are, and nothing is reported. So an expression is
lowered to the end, or stopped by a problem, exactly as its checks say (`lowerExpr_answers`), unless a promise of the
lowering is broken. Which values are known, and what has to be written back, has no part in it.
-/

namespace Lowering

open List
open IR (Argument Code)

/-! ### What the checks see -/

/-- The variables of a scope as the checks see them. -/
def Scope.outline (s : Scope) : Outline := ⟨s.vars.map fun v => (v.name, v.ty), s.inherited⟩

/-- What the checks see of a path: the variables in sight, whether control has left the function, and the problems that
were reported on the way, in order. -/
structure Sketch where
  outline : Outline
  returned : Bool
  reports : List Diagnostic

def Path.sketch (path : Path) : Sketch := ⟨path.scope.outline, path.returned, path.reports⟩

variable {id : Nat}

section Outlines

variable {s : Scope}

theorem outline_push (v : Variable) : (s.push v).outline = s.outline.push v.name v.ty := by
  simp [Scope.outline, Scope.push, Outline.push]

theorem outline_child : s.child.outline = s.outline.child := by
  simp [Scope.outline, Scope.child, Outline.child]

theorem outline_put (hv : s.get? id = some v) (hname : v'.name = v.name) (hty : v'.ty = v.ty) :
    (s.put id v').outline = s.outline := by
  obtain ⟨hid, rfl⟩ := List.getElem?_eq_some_iff.1 hv
  rw [← length_map fun v : Variable => (v.name, v.ty)] at hid
  have hsame : (v'.name, v'.ty) = (s.vars.map fun v => (v.name, v.ty))[id] := by simp_all
  show (⟨(s.vars.set id v').map _, s.inherited⟩ : Outline) = ⟨s.vars.map _, _⟩
  rw [map_set, hsame, set_getElem_self]

theorem owns_outline (name : String) : s.outline.owns name = s.owns name := by
  simp only [Scope.outline, Outline.owns, Scope.owns, ← map_drop, any_map]
  rfl

theorem lookup_eq_findIdx? (vars : List Variable) (name : String) :
    (vars.map fun v => (v.name, v.ty)).lookup name =
      ((vars.findIdx? fun v => v.name == name).bind (vars[·]?)).map Variable.ty := by
  induction vars with
  | nil => rfl
  | cons v rest ih =>
    grind

theorem find?_outline (name : String) : s.outline.find? name = ((s.find? name).bind s.get?).map Variable.ty := by
  rw [Outline.find?, Scope.outline, ← map_reverse, lookup_eq_findIdx?, Scope.find?]
  cases h : s.vars.reverse.findIdx? fun v => v.name == name with
  | none => rfl
  | some fromEnd =>
    obtain ⟨hlt, -⟩ := List.findIdx?_eq_some_iff_getElem.1 h
    grind [Scope.get?]

theorem locate_outline (c : Catalog) (p : Place) : Location.ty <$> s.locate c p = s.outline.typeOf c p := by
  unfold Scope.locate Outline.typeOf Scope.lookup
  rw [find?_outline]
  rcases hfind : s.find? p.name.symbol with _ | id
  · rfl
  obtain ⟨v, hv, -⟩ := Scope.find?_eq_some hfind
  simp only [hv, Option.bind_some, Option.map_some, bind, Except.bind]
  cases c.follow v.ty p.accesses with
  | error | ok => rfl

end Outlines

/-! ### Steps that the checks do not see -/

/-- The step leaves everything that can be seen by `view` as it is, and does not stop for a problem with the program. -/
def Unseen {σ τ α : Type} (view : σ → τ) (x : EStateM Failure σ α) : Prop :=
  ∀ s, Ensures x s (fun _ s' => view s' = view s) fun e _ => e.IsInternal

/-- The variables of a workspace as the checks see them. -/
def Workspace.outline (w : Workspace) : Outline := w.scope.outline

namespace Unseen

section General

variable {σ τ α β : Type} {view : σ → τ} {x : EStateM Failure σ α}

theorem pure (a : α) : Unseen view (Pure.pure a : EStateM Failure σ α) := fun _ => rfl

theorem bind {f : α → EStateM Failure σ β} (hx : Unseen view x) (hf : ∀ a, Unseen view (f a)) : Unseen view (x >>= f) :=
  fun s => Ensures.bind ((hx s).mono
    (fun a s' _ hs' => (hf a s').mono (fun _ _ _ h => h.trans hs') fun _ _ _ h => h) fun _ _ _ h => h)

theorem get : Unseen view (MonadState.get : EStateM Failure σ σ) := fun _ => rfl

theorem modify (h : ∀ s, view (f s) = view s) : Unseen view (modify f : EStateM Failure σ PUnit) := h

end General

variable {α : Type}

theorem fresh : Unseen Workspace.outline Work.fresh := fun _ => rfl

theorem noteCopy : Unseen Workspace.outline Work.noteCopy := fun _ => rfl

theorem abort (e : InternalError) : Unseen Workspace.outline (Work.abort e : Work α) := fun _ => trivial

theorem ofWork {x : Work α} (hx : Unseen Workspace.outline x) : Unseen Path.sketch (Build.ofWork x) :=
  fun path => .ofWork ((hx path.toWorkspace).mono
    (fun _ _ _ h => congrArg (Sketch.mk · path.returned path.reports) h) fun _ _ _ he => he)

end Unseen

/-! ### Code for values -/

theorem readVariable_unseen (id : Nat) : Unseen Workspace.outline (readVariable id) := by
  intro w
  refine (readVariable_ensures id w).mono (fun _ w' _ h => ?_) fun _ _ _ he => he.1
  obtain ⟨v, hv, ⟨_, _, _, rfl⟩ | ⟨_, _, _, _, rfl⟩⟩ := h
  · rfl
  simp only [Workspace.outline]
  split
  · exact outline_put hv rfl rfl
  · rfl

theorem writeVariable_unseen (id : Nat) (value : Argument) : Unseen Workspace.outline (writeVariable id value) := by
  intro w
  refine (writeVariable_ensures id value w).mono (fun _ w' _ h => ?_) fun _ _ _ he => he.1
  obtain ⟨v, hv, ⟨_, _, rfl⟩ | ⟨_, _, _, ⟨_, _, rfl⟩ | ⟨_, _, rfl⟩⟩⟩ := h
  all_goals exact outline_put hv rfl rfl

theorem flushVariable_unseen (id : Nat) : Unseen Workspace.outline (flushVariable id) := by
  intro w
  refine (flushVariable_ensures id w).mono (fun _ w' _ h => ?_) fun _ _ _ he => he.1
  obtain ⟨v, hv, ⟨_, _, _, _, _, _, rfl⟩ | ⟨_, rfl⟩⟩ := h
  · exact outline_put hv rfl rfl
  · rfl

theorem accessField_unseen (c : Catalog) (ref : StructureRef) (index : Nat) (base : Argument) (reading : Bool) :
    Unseen Workspace.outline (accessField c ref index base reading) := by
  unfold accessField
  split
  · split
    · refine .bind .fresh fun _ => ?_
      split
      · exact .bind .fresh fun _ => .pure _
      · exact .pure _
    · exact .abort _
  · exact .abort _

theorem walkSteps_unseen (c : Catalog) (reading : Bool) (steps : List Step) :
    ∀ base, Unseen Workspace.outline (walkSteps c reading base steps) := by
  induction steps with
  | nil => exact fun _ => .pure _
  | cons step rest ih =>
    exact fun _ => .bind (accessField_unseen _ _ _ _ _) fun _ => .bind (ih _) fun _ => .pure _

theorem walkTo_unseen (c : Catalog) (l : Location) (reading : Bool) : Unseen Workspace.outline (walkTo c l reading) :=
  .bind (readVariable_unseen _) fun _ => .bind (walkSteps_unseen _ _ _ _) fun _ => .pure _

theorem copyStructure_unseen (ref : StructureRef) (destination source : Argument) :
    Unseen Workspace.outline (copyStructure ref destination source) :=
  .bind .noteCopy fun _ => .bind .fresh fun _ => .bind .fresh fun _ => .bind .fresh fun _ => .pure _

theorem cloneStructure_unseen (ref : StructureRef) (source : Argument) :
    Unseen Workspace.outline (cloneStructure ref source) :=
  .bind .fresh fun _ => .bind (copyStructure_unseen _ _ _) fun _ => .pure _

theorem passValue_unseen (argument : Ready) : Unseen Workspace.outline (passValue argument) := by
  unfold passValue
  split
  · exact .pure _
  · exact .bind (cloneStructure_unseen _ _) fun _ => .pure _
  · exact .pure _

theorem Meeting.outline (h : Meeting arrivals w n synced w') : w'.outline = w.outline := by
  induction h with
  | start => rfl
  | agreed _ hown _ _ ih | contested _ hown _ _ _ ih => exact (outline_put hown (by rfl) (by rfl)).trans ih

theorem syncVariables_unseen (arrivals : List Arrival) : Unseen Workspace.outline (syncVariables arrivals) :=
  fun w => (syncVariables_ensures arrivals w).mono (fun _ _ _ hmeeting => hmeeting.outline) fun _ _ _ he => he.1

/-! ### Expressions -/

/-- The step answers a question about the variables in sight: it comes to an end if there is an answer, which `Q`
relates to the result, and stops with the problem, a plain error, if there is none. -/
def Answers {α β : Type} (x : Work α) (o : Outline) (answer : Except Diagnostic β) (Q : α → β → Prop) : Prop :=
  ∀ w : Workspace, w.outline = o → Ensures x w (fun a w' => w'.outline = o ∧ ∃ b, answer = .ok b ∧ Q a b)
    fun e w' => ∀ d, e = .diagnostic d → w'.outline = o ∧ answer = .error d ∧ d.IsPlain

namespace Answers

variable {α β γ δ : Type} {x : Work α} {o : Outline} {answer : Except Diagnostic β} {Q : α → β → Prop}

theorem pure (h : Q a b) : Answers (Pure.pure a) o (Pure.pure b) Q := fun _ hw => ⟨hw, b, rfl, h⟩

theorem reject {span : Span} (h : cause.isPlain = true) :
    Answers (Work.reject cause span) o (.error (.error cause span)) Q := by
  rintro w hw d ⟨⟩
  exact ⟨hw, rfl, rfl, h⟩

theorem bind {f : α → Work γ} {g : β → Except Diagnostic δ} (hx : Answers x o answer Q)
    (hf : ∀ a b, answer = .ok b → Q a b → Answers (f a) o (g b) R) : Answers (x >>= f) o (answer >>= g) R := by
  intro w hw
  refine .bind ((hx w hw).mono (fun a w' _ h => ?_) fun e w' _ h d he => ?_)
  · obtain ⟨hw', b, rfl, hQ⟩ := h
    exact hf a b rfl hQ w' hw'
  · obtain ⟨hw', rfl, hd⟩ := h d he
    exact ⟨hw', rfl, hd⟩

theorem unseen_bind (hy : Unseen Workspace.outline y) {f : γ → Work α} (hf : ∀ c, Answers (f c) o answer Q) :
    Answers (y >>= f) o answer Q :=
  fun w hw => .bind ((hy w).mono (fun c w' _ hw' => hf c w' (hw'.trans hw)) fun e _ _ he d hd => by
    subst hd
    exact he.elim)

theorem of_unseen (hx : Unseen Workspace.outline x) (h : ∀ a, Q a b) : Answers x o (.ok b) Q :=
  fun w hw => (hx w).mono (fun a _ _ hw' => ⟨hw'.trans hw, b, rfl, h a⟩) fun e _ _ he d hd => by
    subst hd
    exact he.elim

theorem look (hf : ∀ w, w.scope.outline = o → Answers (f w) o answer Q) : Answers (MonadState.get >>= f) o answer Q :=
  fun w hw => .bind (.get (hf w hw w hw))

theorem check (hblames : Blames result)
    (h : (∃ a b, result = .ok a ∧ answer = .ok b ∧ Q a b) ∨ ∃ d, result = .error d ∧ answer = .error d) :
    Answers (Work.check result) o answer Q := by
  intro w hw
  obtain ⟨a, b, rfl, rfl, hQ⟩ | ⟨d, rfl, rfl⟩ := h
  · exact ⟨hw, b, rfl, hQ⟩
  · rintro _ ⟨⟩
    exact ⟨hw, rfl, hblames d rfl⟩

theorem check_map {g : α → β} (hblames : Blames result) (h : g <$> result = answer) :
    Answers (Work.check result) o answer fun a b => g a = b := by
  subst h
  cases result with
  | ok a => exact check hblames (.inl ⟨a, g a, rfl, rfl, rfl⟩)
  | error d => exact check hblames (.inr ⟨d, rfl, rfl⟩)

end Answers

/-- Whether a lowered expression gives nothing. -/
def Lowered.isVoid (l : Lowered) : Bool :=
  match l.output with
  | .bare _ => false
  | .compound value => value.resultType.isVoid

/-- A lowered expression of a type: only a call may give nothing. -/
structure Lowered.Of (e : Expr) (l : Lowered) (ty : TypeRef) : Prop where
  type : l.ty = ty
  void : l.isVoid = (e.isCall && ty.isVoid)

section Expressions

variable {c : Catalog} {r : Registry} {o : Outline} {ctx : Context} {es : List Expr}

theorem Lowered.Of.ready {l : Lowered} {ty : TypeRef} (h : l.Of e ty) :
    Answers (l.ready e.span) o (e.operandType ty) fun r ty => r.ty = ty := by
  have hvoid := h.void
  unfold Lowered.ready Expr.operandType
  unfold Lowered.isVoid at hvoid
  split
  · next argument houtput =>
    rw [houtput] at hvoid
    rw [← hvoid]
    exact .pure h.type
  rename_i value houtput
  rw [houtput] at hvoid
  simp only [hvoid]
  split
  · exact .reject rfl
  · exact .unseen_bind .fresh fun _ => .pure h.type

theorem lowerConstant_answers (constant : Constant) :
    Answers (lowerConstant constant) o constant.type (Lowered.Of (.constant constant)) := by
  obtain ⟨value, span⟩ := constant
  cases value with
  | integer n =>
    unfold lowerConstant Constant.type
    dsimp only
    split
    · exact .reject rfl
    · exact .pure ⟨rfl, rfl⟩
  | float | boolean => exact .pure ⟨rfl, rfl⟩
  | string => exact .unseen_bind .fresh fun _ => .unseen_bind .fresh fun _ => .pure ⟨rfl, rfl⟩

theorem lowerPlace_answers (p : Place) :
    Answers (lowerPlace ctx p) o (o.typeOf ctx.catalog p) (Lowered.Of (.place p)) := by
  refine .look fun w hw => ?_
  have hlocate := locate_outline (s := w.scope) ctx.catalog p
  rw [hw] at hlocate
  rw [← bind_pure (o.typeOf ctx.catalog p)]
  refine (Answers.check_map (w.scope.locate_blames _ _) hlocate).bind fun l ty _ hty => ?_
  exact .unseen_bind (walkTo_unseen ctx.catalog l true) fun result => .pure ⟨hty, rfl⟩

/-! Operations. -/

theorem TypeRef.irType_isVoid {t : TypeRef} (h : t.isLinear = false) : t.irType.isVoid = t.isVoid := by
  rw [TypeRef.irType_of_not_linear h]
  obtain ⟨head, depth⟩ := t
  cases head with
  | primitive kind => cases depth <;> cases kind <;> rfl
  | struct => simp [TypeRef.storageType, IR.Ty.isVoid, TypeRef.isVoid, TypeRef.primitive?]

theorem Primitive.isVoid_of_isNumeric (h : kind.isNumeric = true) :
    kind.irType.isVoid = false ∧ (TypeRef.primitive kind).isVoid = false := by
  cases kind <;> first | exact ⟨rfl, rfl⟩ | cases h

theorem arithmetic_answers (operator : ArithmeticOperator) (lhs rhs : Expr) (span : Span) (left right : Ready) :
    Answers (Work.check (arithmetic operator left right span)) o (operator.type left.ty right.ty span)
      (Lowered.Of (.arithmetic operator lhs rhs span)) := by
  refine .check (arithmetic_blames _ _ _ _) ?_
  unfold arithmetic ArithmeticOperator.type
  rcases operandType "arithmetic" left.ty right.ty span with d | kind
  · exact .inr ⟨d, rfl, rfl⟩
  simp only [bind, Except.bind]
  cases hnum : kind.isNumeric with
  | true => exact .inl ⟨_, _, rfl, rfl, rfl, (Primitive.isVoid_of_isNumeric hnum).1⟩
  | false => exact .inr ⟨_, rfl, rfl⟩

theorem comparison_answers (operator : CompareOperator) (lhs rhs : Expr) (span : Span) (left right : Ready) :
    Answers (Work.check (comparison operator left right span)) o (operator.type left.ty right.ty span)
      (Lowered.Of (.compare operator lhs rhs span)) := by
  refine .check (comparison_blames _ _ _ _) ?_
  unfold comparison CompareOperator.type
  rcases operandType "comparison" left.ty right.ty span with d | kind
  · exact .inr ⟨d, rfl, rfl⟩
  simp only [bind, Except.bind]
  cases operator.predicate? kind with
  | some => exact .inl ⟨_, _, rfl, rfl, rfl, rfl⟩
  | none => exact .inr ⟨_, rfl, rfl⟩

theorem expectBool_answers (operand : Ready) (span : Span) :
    Answers (Work.check (operand.expectBool span)) o (operand.ty.expectBool span) fun _ _ => True := by
  refine .check (operand.expectBool_blames _) ?_
  unfold Ready.expectBool TypeRef.expectBool
  split
  · simp
  · simp

/-! Calls. -/

/-- A variable that is an argument is there. -/
def Outline.Declares (o : Outline) (e : Expr) : Prop :=
  ∀ name span, e = .place ⟨name, [], span⟩ → ∃ ty, o.find? name.symbol = some ty

theorem flushArgument_answers {e : Expr} (he : o.Declares e) :
    Answers (flushArgument e) o (.ok ()) fun _ _ => True := by
  unfold flushArgument
  split
  · next name span =>
    refine .look fun w hw => ?_
    obtain ⟨ty, hty⟩ := he name span rfl
    rw [← hw, find?_outline] at hty
    obtain ⟨v, hv, -⟩ := Option.map_eq_some_iff.1 hty
    obtain ⟨id, hid, -⟩ := Option.bind_eq_some_iff.1 hv
    have hlook : w.scope.lookup name = .ok id := by rw [Scope.lookup, hid]
    rw [hlook]
    exact .of_unseen (flushVariable_unseen id) fun _ => trivial
  · exact .pure trivial

theorem passValues_answers (arguments : List Ready) : ∀ {es}, (∀ e ∈ es, o.Declares e) →
    Answers (passValues arguments es) o (.ok ()) fun _ _ => True := by
  induction arguments with
  | nil => exact fun _ => .pure trivial
  | cons argument arguments ih =>
    intro es hes
    match es with
    | [] => exact .pure trivial
    | e :: es =>
      obtain ⟨he, hes⟩ := forall_mem_cons.1 hes
      rw [passValues]
      refine .unseen_bind (passValue_unseen argument) fun _ => ?_
      refine (flushArgument_answers he).bind (g := fun _ => .ok ()) fun _ _ _ _ => ?_
      exact (ih hes).bind (g := fun _ => .ok ()) fun _ _ _ _ => .pure trivial

theorem callFunction_answers {f : Function} {signature : Signature} (hsig : f.signature = some signature)
    (arguments : List Ready) (hes : ∀ e ∈ es, o.Declares e) (call : Call) :
    Answers (callFunction f arguments es) o (.ok signature.returnType) (Lowered.Of (.call call)) := by
  unfold callFunction Function.linkedSignature
  simp only [hsig]
  refine (passValues_answers arguments hes).bind (g := fun _ => .ok signature.returnType) fun _ _ _ _ => ?_
  split
  · next hlin => exact .unseen_bind .fresh fun _ => .pure ⟨rfl, (TypeRef.isVoid_of_isLinear hlin).symm⟩
  · next hlin => exact .pure ⟨rfl, TypeRef.irType_isVoid (by simpa using hlin)⟩

theorem convert_of (operand : Ready) (htgt : target.isNumeric = true) (call : Call) :
    (convert operand source target).Of (.call call) (.primitive target) where
  type := rfl
  void := by
    obtain ⟨hvoid, hvoid'⟩ := Primitive.isVoid_of_isNumeric htgt
    rw [hvoid', Bool.and_false]
    unfold convert Lowered.isVoid
    cases source.conversion target with
    | some => exact hvoid
    | none => rfl

theorem applyCall_answers (name : String) (arguments : List Ready) (hes : ∀ e ∈ es, o.Declares e) (span : Span)
    (call : Call) :
    Answers (applyCall ctx name arguments es span) o (ctx.registry.resultType name (arguments.map Ready.ty) span)
      (Lowered.Of (.call call)) := by
  unfold applyCall Registry.resultType
  rcases hfind : ctx.registry.find name (arguments.map Ready.ty) with _ | callee
  · simp only [hfind]
    exact .reject rfl
  obtain ⟨id, f, rfl, -, -, haccepts⟩ | ⟨source, target, rfl, htypes, -, htgt, -⟩ := Registry.find_cases hfind
  · obtain ⟨-, signature, hsig, -⟩ := Function.accepts_iff.1 haccepts
    simp only [hfind, hsig]
    exact callFunction_answers hsig arguments hes call
  obtain ⟨operand, rfl, -⟩ := map_eq_singleton_iff.1 htypes
  simp only [hfind]
  exact .pure (convert_of operand htgt call)

theorem declares_of_checkOperands {types : List TypeRef} (h : checkOperands c r o es = .ok types) :
    ∀ e ∈ es, o.Declares e := by
  induction es generalizing types with
  | nil => simp
  | cons e es ih =>
    rw [checkOperands] at h
    obtain ⟨ty, hty, h⟩ := bind_eq_ok h
    obtain ⟨_, -, h⟩ := bind_eq_ok h
    obtain ⟨rest, hrest, -⟩ := bind_eq_ok h
    refine forall_mem_cons.2 ⟨?_, ih hrest⟩
    rintro name span rfl
    grind [checkExpr, Outline.typeOf]

mutual

/-- **Lowering an expression makes the checks of the expression.** -/
theorem lowerExpr_answers : ∀ e : Expr,
    Answers (lowerExpr ctx e) o (checkExpr ctx.catalog ctx.registry o e) (Lowered.Of e)
  | .constant constant => by
    rw [lowerExpr, checkExpr]
    exact lowerConstant_answers constant
  | .place p => by
    rw [lowerExpr, checkExpr]
    exact lowerPlace_answers p
  | .call call => by
    rw [lowerExpr, checkExpr]
    exact lowerCall_answers call
  | .arithmetic operator lhs rhs span => by
    rw [lowerExpr, checkExpr]
    refine (lowerExpr_answers lhs).bind fun _ _ _ hl => hl.ready.bind fun left _ _ hleft => ?_
    refine (lowerExpr_answers rhs).bind fun _ _ _ hl => hl.ready.bind fun right _ _ hright => ?_
    subst hleft hright
    exact arithmetic_answers operator lhs rhs span left right
  | .compare operator lhs rhs span => by
    rw [lowerExpr, checkExpr]
    refine (lowerExpr_answers lhs).bind fun _ _ _ hl => hl.ready.bind fun left _ _ hleft => ?_
    refine (lowerExpr_answers rhs).bind fun _ _ _ hl => hl.ready.bind fun right _ _ hright => ?_
    subst hleft hright
    exact comparison_answers operator lhs rhs span left right
  | .logical operator lhs rhs span => by
    rw [lowerExpr, checkExpr]
    refine (lowerExpr_answers lhs).bind fun _ _ _ hl => hl.ready.bind fun left _ _ hleft => ?_
    subst hleft
    refine (expectBool_answers left lhs.span).bind fun _ _ _ _ => ?_
    refine (lowerExpr_answers rhs).bind fun _ _ _ hl => hl.ready.bind fun right _ _ hright => ?_
    subst hright
    exact (expectBool_answers right rhs.span).bind fun _ _ _ _ => .pure ⟨rfl, rfl⟩
  | .not operand span => by
    rw [lowerExpr, checkExpr]
    refine (lowerExpr_answers operand).bind fun _ _ _ hl => hl.ready.bind fun value _ _ hvalue => ?_
    subst hvalue
    exact (expectBool_answers value operand.span).bind fun _ _ _ _ => .pure ⟨rfl, rfl⟩

theorem lowerCall_answers : ∀ call : Call,
    Answers (lowerCall ctx call) o (checkCall ctx.catalog ctx.registry o call) (Lowered.Of (.call call))
  | ⟨⟨name, [], inner⟩, es, span⟩ => by
    rw [lowerCall, checkCall]
    refine (lowerOperands_answers es).bind fun arguments types htypes hargs => ?_
    subst hargs
    exact applyCall_answers name.symbol arguments (declares_of_checkOperands htypes) span _
  | ⟨⟨name, access :: accesses, inner⟩, es, span⟩ => by
    rw [lowerCall, checkCall]
    exact .reject rfl

theorem lowerOperands_answers : ∀ es : List Expr,
    Answers (lowerOperands ctx es) o (checkOperands ctx.catalog ctx.registry o es)
      fun rs types => rs.map Ready.ty = types
  | [] => by
    rw [lowerOperands, checkOperands]
    exact .pure rfl
  | e :: es => by
    rw [lowerOperands, checkOperands]
    refine (lowerExpr_answers e).bind fun _ _ _ hl => hl.ready.bind fun operand ty _ hoperand => ?_
    refine (lowerOperands_answers es).bind fun operands types _ hoperands => .pure ?_
    simp_all

end

theorem lowerOperand_answers (e : Expr) (expected : Option TypeRef) :
    Answers (lowerOperand ctx e expected) o (checkOperand ctx.catalog ctx.registry o e expected)
      fun r ty => r.ty = ty := by
  unfold lowerOperand checkOperand
  refine (lowerExpr_answers e).bind fun l ty _ hl => ?_
  unfold Lowered.expect
  rcases expected with _ | expected
  · exact hl.ready
  dsimp only
  rw [hl.type]
  split
  · exact .reject rfl
  · exact hl.ready

end Expressions

end Lowering
