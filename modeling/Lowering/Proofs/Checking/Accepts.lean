import Lowering.Proofs.Checking.Mirrors
import Lowering.Proofs.Types.Embedding
import Lowering.Proofs.Unit.Compile
/-!
# Which expressions are accepted, and at which type

Against types and functions that were linked, and with variables that were declared, an expression is lowered exactly if
the rules give it a type (`lowerOperand_accepts`). The type is the only one, and what is known of the values of
variables has no part in it.
-/

namespace Lowering


/-! ### What bodies are lowered against -/

/-- Types as linking leaves them. -/
def Catalog.IsLinked (c : Catalog) : Prop := ∃ c0 : Catalog, c0.Built ∧ c = c0.link.1

/-- Functions as linking leaves them. -/
def Registry.IsLinked (c : Catalog) (r : Registry) : Prop :=
  ∃ fileId definitions order, r = ((List.foldl Registry.declare { fileId } definitions).link c order).1

variable {c : Catalog} {r : Registry}

theorem Catalog.IsLinked.sound (h : c.IsLinked) : c.Sound ∧ c.Settled := by
  obtain ⟨c0, hbuilt, rfl⟩ := h
  obtain ⟨hsound, -⟩ := hbuilt.sound_fresh
  obtain ⟨hsound, -, hsettled⟩ := Catalog.link_settles hsound
  exact ⟨hsound, hsettled⟩

theorem Registry.IsLinked.sound (hc : c.IsLinked) (h : r.IsLinked c) : r.Sound c := by
  obtain ⟨fileId, definitions, order, rfl⟩ := h
  exact Registry.link_sound hc.sound.1 hc.sound.2 (foldl_declare_unlinked _ _)

theorem Registry.IsLinked.unambiguous (h : r.IsLinked c) : r.Unambiguous := by
  obtain ⟨fileId, definitions, order, rfl⟩ := h
  have hunlinked := foldl_declare_unlinked fileId definitions
  refine (hunlinked.link_pairwise c order).imp fun hapart hname types haccepts => ?_
  by_contra haccepts'
  obtain ⟨hok, htold⟩ := Function.accepts_iff_overload?.1 (Bool.and_eq_true_iff.2 ⟨beq_iff_eq.2 hname, haccepts⟩)
  obtain ⟨hok', htold'⟩ := Function.accepts_iff_overload?.1
    (Bool.and_eq_true_iff.2 ⟨beq_self_eq_true _, Bool.not_eq_false _ |>.mp haccepts'⟩)
  exact hapart hok hok' (htold.trans htold'.symm)

/-! ### Variables that were declared -/

/-- Variables that declarations lead to, of types that can be written, also in branches. The value of a parameter
arrives in a register. -/
inductive Workspace.Declared (c : Catalog) : Workspace → Prop where
  | start (fresh : IR.Local) (caching : Bool) : Declared c { fresh, scope := { caching } }
  | declare {w w' : Workspace} {written : TypeName} {ty : TypeRef} {name : Identifier} {result : Nat × IR.Code}
      (hw : Declared c w) (hty : c.resolveValue [] written = .ok ty)
      (hrun : declareVariable ty name w = .ok result w') : Declared c w'
  | parameter {w w' : Workspace} {p : Parameter} {ty : TypeRef} {register : IR.Local} {code : IR.Code}
      (hw : Declared c w) (hty : Function.resolveParameter c p = .ok ty) (hregister : register < w.fresh)
      (hrun : declareParameter ⟨p.name, ty, .register ty.irType register⟩ w = .ok code w') : Declared c w'
  | branch {w : Workspace} (hw : Declared c w) : Declared c { w with scope := w.scope.child }

section Verdicts

variable {ctx : Context} {env : IR.Setting}

theorem Workspace.Declared.sound (hctx : ctx.Sound env) (hallots : ∀ ty, env.allots ty) {w : Workspace}
    (h : w.Declared ctx.catalog) : ∃ Γ, w.Sound ctx.catalog Γ := by
  induction h with
  | start => exact ⟨[], by simp, by simp⟩
  | @declare w w' written ty name result _ hty hrun ih =>
    obtain ⟨Γ, hsound⟩ := ih
    have husable := hctx.catalog.resolveValue_usable hctx.settled hty
    have hperforms := declareVariable_performs hsound husable ⟨hctx.storageType_sized husable, hallots _⟩ name
    exact ⟨_, (hperforms.of_ok hrun).1.sound⟩
  | @parameter w w' p ty register code _ hty hregister hrun ih =>
    obtain ⟨Γ, hsound⟩ := ih
    obtain ⟨hty, hvoid⟩ := Function.resolveParameter_eq_ok hty
    have husable := hctx.catalog.resolveValue_usable hctx.settled hty
    -- The register of the parameter was drawn before.
    have hw : w.Sound ctx.catalog ((register, ty.irType) :: Γ) :=
      ⟨fun v hv => (hsound.vars v hv).mono (List.subset_cons_self ..), List.forall_mem_cons.2 ⟨hregister, hsound.ahead⟩⟩
    have hincoming : (⟨p.name, ty, .register ty.irType register⟩ : Incoming).Sound ctx.catalog
        ((register, ty.irType) :: Γ) := ⟨husable, hvoid, .head _, rfl⟩
    have hperforms := declareParameter_performs hw hincoming fun _ => ⟨hctx.storageType_sized husable, hallots _⟩
    exact ⟨_, (hperforms.of_ok hrun).sound⟩
  | branch _ ih =>
    obtain ⟨Γ, hsound⟩ := ih
    exact ⟨Γ, hsound.vars, hsound.ahead⟩

/-! ### Verdicts -/

mutual

/-- The result of the function that an expression is in has no part in it. -/
theorem lowerExpr_result (returnType : TypeRef) (slot : Option IR.Argument) : ∀ e : Expr,
    lowerExpr { ctx with returnType, returnSlot := slot } e = lowerExpr ctx e
  | .constant _ => by rw [lowerExpr, lowerExpr]
  | .place _ => by rfl
  | .call call => by rw [lowerExpr, lowerExpr, lowerCall_result returnType slot call]
  | .arithmetic _ lhs rhs _ => by
    rw [lowerExpr, lowerExpr, lowerExpr_result returnType slot lhs, lowerExpr_result returnType slot rhs]
  | .compare _ lhs rhs _ => by
    rw [lowerExpr, lowerExpr, lowerExpr_result returnType slot lhs, lowerExpr_result returnType slot rhs]
  | .logical _ lhs rhs _ => by
    rw [lowerExpr, lowerExpr, lowerExpr_result returnType slot lhs, lowerExpr_result returnType slot rhs]
  | .not operand _ => by rw [lowerExpr, lowerExpr, lowerExpr_result returnType slot operand]

theorem lowerCall_result (returnType : TypeRef) (slot : Option IR.Argument) : ∀ call : Call,
    lowerCall { ctx with returnType, returnSlot := slot } call = lowerCall ctx call
  | ⟨⟨_, [], _⟩, es, _⟩ => by rw [lowerCall, lowerOperands_result returnType slot es]; rfl
  | ⟨⟨_, _ :: _, _⟩, _, _⟩ => by rw [lowerCall, lowerCall]

theorem lowerOperands_result (returnType : TypeRef) (slot : Option IR.Argument) : ∀ es : List Expr,
    lowerOperands { ctx with returnType, returnSlot := slot } es = lowerOperands ctx es
  | [] => by rfl
  | e :: es => by
    rw [lowerOperands, lowerOperands, lowerExpr_result returnType slot e, lowerOperands_result returnType slot es]

end

/-- What becomes of an expression that is used as an operand: its type, or what stops its lowering. -/
def verdict (ctx : Context) (path : Path) (e : Expr) : Except Failure TypeRef :=
  match lowerOperand ctx e none path.toWorkspace with
  | .ok r _ => .ok r.ty
  | .error failure _ => .error failure

/-- The answer of a check as a verdict. -/
def verdictOf : Except Diagnostic TypeRef → Except Failure TypeRef
  | .ok ty => .ok ty
  | .error d => .error (.diagnostic d)

theorem verdict_eq (hctx : ctx.Sound env) (hpath : path.Sound ctx.catalog Γ) (e : Expr) :
    verdict ctx path e = verdictOf (checkOperand ctx.catalog ctx.registry path.scope.outline e none) := by
  have hanswers : Answers (lowerOperand ctx e none) path.scope.outline _ _ := lowerOperand_answers e none
  have hanswers := hanswers path.toWorkspace rfl
  have hsecures := lowerOperand_emits hctx hpath e none
  unfold verdict
  split
  · next r path' hrun =>
    obtain ⟨-, ty, hanswer, hty⟩ := hanswers.of_ok hrun
    rw [hanswer, hty]
    rfl
  · next failure path' hrun =>
    cases failure with
    | internal => exact (hsecures.of_error hrun).elim
    | diagnostic d =>
      rw [(hanswers.of_error hrun d rfl).2.1]
      rfl

end Verdicts

theorem Context.sound_of_isLinked (hc : c.IsLinked) (hr : r.IsLinked c) :
    ∃ env : IR.Setting, (∀ ty, env.allots ty) ∧ Context.Sound env ⟨c, r, .primitive .void, none⟩ := by
  have hvoid : c.Usable (.primitive .void) := by
    constructor <;> (intro _ h; cases h)
  exact ⟨_, fun _ => trivial,
    surroundingsOf_sound hc.sound.1 hc.sound.2 (hr.sound hc) (IR.Surroundings.free_permits _ r) rfl _ none hvoid⟩

/-- **Exactly the expressions that the rules give a type are accepted.** `lowerOperand` succeeds on `e` with type `ty`
(`verdict`) if and only if `HasType` gives it that type, which is the only one; and the verdict is the same on every
`path'` with the same variables in sight, whatever is known of their values. -/
theorem lowerOperand_accepts {ctx : Context} (hcatalog : ctx.catalog.IsLinked)
    (hregistry : ctx.registry.IsLinked ctx.catalog) {path : Path} (hdeclared : path.Declared ctx.catalog) (e : Expr) :
    (∀ ty, verdict ctx path e = .ok ty ↔ HasType ctx.catalog ctx.registry path.scope.outline e ty) ∧
    (∀ ty ty', HasType ctx.catalog ctx.registry path.scope.outline e ty →
      HasType ctx.catalog ctx.registry path.scope.outline e ty' → ty = ty') ∧
    ∀ path' Γ, path'.Sound ctx.catalog Γ → path'.scope.outline = path.scope.outline →
      verdict ctx path' e = verdict ctx path e := by
  obtain ⟨env, hallots, hctx⟩ := Context.sound_of_isLinked hcatalog hregistry
  obtain ⟨Γ, hpath⟩ := hdeclared.sound hctx hallots
  have hverdict : ∀ (path' : Path) Γ, path'.Sound ctx.catalog Γ →
      verdict ctx path' e = verdictOf (checkOperand ctx.catalog ctx.registry path'.scope.outline e none) := by
    intro path' Γ hpath'
    rw [← verdict_eq hctx hpath' e, verdict, verdict, lowerOperand, lowerOperand,
      ← lowerExpr_result (.primitive .void) none e]
  have hrules :=
    fun ty => checkOperand_eq_ok_iff (c := ctx.catalog) (o := path.scope.outline) hregistry.unambiguous e ty
  refine ⟨fun ty => ?_, fun ty ty' h h' => ?_, fun path' Γ' hpath' houtline => ?_⟩
  · rw [hverdict path Γ hpath, ← hrules ty]
    cases checkOperand ctx.catalog ctx.registry path.scope.outline e none <;> simp [verdictOf]
  · exact Except.ok.inj (((hrules ty).2 h).symm.trans ((hrules ty').2 h'))
  · rw [hverdict path Γ hpath, hverdict path' Γ' hpath', houtline]

/-- Pairs of a number and a truth value. -/
def pairTypes : Catalog :=
  match Catalog.declare { fileId := 0 }
    (Catalog.plainDefinition "Pair" [("number", 0, "i32"), ("choice", 0, "bool")]) with
  | .ok c => c.link.1
  | .error _ => { fileId := 0 }

/-- A function from truth values to numbers. -/
def pairFunctions : Registry :=
  Registry.link (Registry.declare { fileId := 0 } {
    name := "pick"
    parameters := [⟨"choice", "bool", {}⟩]
    returnType := "i32"
    body := none
    external := true }) pairTypes [] |>.1

def pairPath : Path where
  fresh := 1
  scope :=
    { vars := [⟨"p", ⟨.struct ⟨0, "Pair", "struct.Pair.0"⟩, 1⟩, none, some (.register 0), false⟩], caching := true }
  label := 0

/-- The number of a pair and what `pick` gives for its truth value have a sum. -/
theorem lowerOperand_accepts_pair : pairTypes.IsLinked ∧ pairFunctions.IsLinked pairTypes ∧
    pairPath.Declared pairTypes ∧
      verdict ⟨pairTypes, pairFunctions, .primitive .void, none⟩ pairPath
        (.arithmetic .add (.place ⟨"p", [.field "number"], {}⟩)
          (.call ⟨"pick", [.place ⟨"p", [.field "choice"], {}⟩], {}⟩) {}) =
        .ok (.primitive .i32) := by
  have hbuilt := Catalog.Built.declare (.empty 0)
    (show Catalog.declare _ (Catalog.plainDefinition "Pair" [("number", 0, "i32"), ("choice", 0, "bool")]) = _ from rfl)
  have hcatalog : pairTypes.IsLinked := ⟨_, hbuilt, rfl⟩
  have hregistry : pairFunctions.IsLinked pairTypes := ⟨0, [_], [], rfl⟩
  have hresolve : pairTypes.resolveValue [] "Pair" = .ok ⟨.struct ⟨0, "Pair", "struct.Pair.0"⟩, 1⟩ := by
    rfl
  have hdeclared : pairPath.Declared pairTypes :=
    .declare (.start 0 true) hresolve (show declareVariable _ "p" _ = .ok (0, _) _ from rfl)
  refine ⟨hcatalog, hregistry, hdeclared, ((lowerOperand_accepts hcatalog hregistry hdeclared _).1 _).2 ?_⟩
  exact (checkOperand_eq_ok_iff hregistry.unambiguous _ _).1 rfl

end Lowering
