import Lowering.Proofs.Meaning.Literals
import Lowering.Proofs.Simulation.Calls
/-!
# The code of operations evaluates them

`Ready.Evaluates` says what code for an operand does: run where the variables of the workspace stand for those of an
environment, it comes out where the evaluation of the expression does, with its value in the operand. What is known of
variables may have changed on the way, but not what they stand for.

Constants need no code and places only code to go there. An operation has the code of its operands first, and then one
instruction that computes the result (`Evaluates.compound`).
-/

namespace Lowering

open IR (Code Operand)
open Meaning

variable {k : Scene} {w w' w'' : Workspace} {e : Expr} {l : Lowered} {value : IR.Value}
  {kind : Primitive} {lhs rhs : Expr} {a b : Ready}

/-- An operand gives a value. A structure that is nobody else's was made since memory had the size `low`. -/
structure Ready.Gives (c : Catalog) (env : Env) (r : Ready) (low : Nat) (R : Registers) (M : Memory) (x : Value) :
    Prop where
  ty : r.ty = x.ty
  fits : x.Fits c
  argument : r.argument.ty = x.ty.irType
  value : ∃ a, R.argument r.argument = .ok (x.handle a) ∧
    (x.isStruct = true → M.Holds a x ∧ (r.provenance = .temporary → low ≤ a))
  owned : ∀ id, r.provenance = .ownedBy id → ∃ name, env.at? id = some (name, x)

/-- An operand whose code evaluates an expression. -/
structure Ready.Evaluates (k : Scene) (w w' : Workspace) (r : Ready) (e : Expr) : Prop where
  epilog : r.epilog = []
  temporary : r.provenance = .temporary ↔ ∀ p, e ≠ .place p
  admitted : w.scope.Admitted k.numbers → r.argument.value.Admitted k.numbers
  simulates : ∀ {site : Site} {rest : Code} {env : Env} {place : Nat → Nat} {R : Registers} {M : Memory},
    k.Hosts site → w.scope.Holds k.catalog R M place env → M.Proper → R.Blank w.fresh w'.fresh →
      site.Simulates (k.setting.evalExpr env e) r.code rest R M fun x R' M' =>
        Quiet env place w.fresh w'.fresh R M R' M' ∧ w'.scope.Holds k.catalog R' M' place env ∧
          r.Gives k.catalog env M.size R' M' x

/-- A lowered expression, whose value is put into an operand. -/
def Lowered.Evaluates (k : Scene) (w w' : Workspace) (l : Lowered) (e : Expr) : Prop :=
  ∀ span, Attains (l.ready span) w' fun r w'' =>
    w.Steady k.numbers w'' ∧ r.Evaluates k w w'' e

/-- Lowering an expression, and then putting its value into an operand. -/
def Evaluates (k : Scene) (w : Workspace) (e : Expr) (x : Work Lowered) : Prop :=
  Attains x w fun l w' => l.Evaluates k w w' e

theorem Evaluates.ready_bind {x} (h : Evaluates k w e x) (span : Span) {β : Type} {f : Ready → Work β} {Q}
    (hf : ∀ r w', w.Steady k.numbers w' → r.Evaluates k w w' e →
      Attains (f r) w' Q) :
    Attains (x >>= fun l => l.ready span >>= f) w Q :=
  Attains.bind (h.mono fun _ _ _ hl => .bind ((hl span).mono fun r w' _ hr => hf r w' hr.1 hr.2))

theorem Evaluates.bare (hout : l.output = .bare argument) (hsteady : w.Steady k.numbers w')
    (h : Ready.Evaluates k w w' ⟨l.code, argument, l.ty, l.provenance, l.epilog⟩ e) :
    l.Evaluates k w w' e := by
  intro span
  unfold Lowered.ready
  rw [hout]
  exact .pure ⟨hsteady, h⟩

/-! ### Constants and places -/

theorem lowerConstant_evaluates (c : Constant) (h : c.value.Admitted k.numbers) :
    Evaluates k w (.constant c) (lowerConstant c) := by
  -- A constant needs no code, so all there is to see is what it is as an operand.
  have hconstant {t : Primitive} {o : Operand} {x : Value} (ho : o.Admitted k.numbers) (hx : x.Fits k.catalog)
      (hty : x.ty = .primitive t) (hoperand : ∀ R : Registers, R.argument ⟨t.irType, o⟩ = .ok x.scalar)
      (heval : ∀ env, k.setting.evalExpr env (.constant c) = pure x) :
      Lowered.Evaluates k w w ⟨[], .bare ⟨t.irType, o⟩, .primitive t, .temporary, []⟩ (.constant c) := by
    have hscalar : x.isStruct = false := by rw [← Value.isLinear_ty, hty]; rfl
    refine Evaluates.bare rfl (.refl ..) ⟨rfl, ⟨fun _ _ h => (by cases h), fun _ => rfl⟩, fun _ => ho, ?_⟩
    intro site rest env place R M hsite hholds hM hblank
    rw [heval]
    refine .pure ⟨.refl env place _ _ R hM, hholds, hty.symm, hx, by rw [hty]; rfl, ⟨0, ?_, ?_⟩, nofun⟩
    · rw [Value.handle_scalar hscalar]
      exact hoperand R
    · simp [hscalar]
  unfold lowerConstant
  cases hvalue : c.value with
  | integer n =>
    dsimp only
    split
    · exact .reject
    rename_i hrange
    have hn : Primitive.i32.InRange n.toInt := by
      show n.toInt.bmod 4294967296 = n.toInt
      exact Int.bmod_eq_of_le (by omega) (by omega)
    exact .pure (hconstant (o := .int n.toInt) trivial (.integer (.inl rfl) hn) rfl (fun _ => rfl)
      fun env => by rw [Setting.evalExpr, hvalue]; rfl)
  | float x =>
    rw [hvalue] at h
    exact .pure (hconstant h (.float rfl rfl) rfl (fun _ => rfl) fun env => by rw [Setting.evalExpr, hvalue]; rfl)
  | boolean b =>
    exact .pure (hconstant (o := .bool b) trivial (.boolean b) rfl (fun _ => rfl)
      fun env => by rw [Setting.evalExpr, hvalue]; rfl)
  | string s =>
    rw [hvalue] at h
    exact h.elim

theorem lowerPlace_evaluates (hk : k.Sound) (p : Place) : Evaluates k w (.place p) (lowerPlace k.ctx p) := by
  refine .bind (.get (.bind (.check fun l hl => ?_)))
  refine .bind ((walkTo_simulates k.catalog k.numbers l true).mono fun result w' _ hres => ?_)
  obtain ⟨hsteady, hadmitted, hwalk⟩ := hres
  obtain ⟨v, hv, hfind, hfollow⟩ := Scope.locate_eq_ok hl
  refine .pure (Evaluates.bare rfl hsteady ⟨rfl, ?_, hadmitted, ?_⟩)
  · grind
  intro site rest env place R M hsite hholds hM hblank
  obtain ⟨v', x, hv', -, hx, hvar, hget, -⟩ := hholds.find? hfind
  cases hv.symm.trans hv'
  rw [hvar.ty] at hfollow
  obtain ⟨distance, u, hreach⟩ := reaches_of_follow hk.laid.sound hvar.fits hfollow
  have heval : k.setting.evalExpr env (.place p) = pure u := by
    rw [Setting.evalExpr, Setting.read, hget]
    show Eval.ofOption (x.at? k.catalog p.accesses) = pure u
    rw [hreach.read]
    rfl
  rw [heval]
  obtain ⟨R', hruns, hquiet, hholds', hty, hvalue⟩ := hwalk (hk.laidIn hsite) hholds hx hM hreach.goes hblank
  refine .of_runs hruns rfl ⟨hquiet, hholds', hreach.ty.symm, hreach.fits, hty, ⟨_, hvalue, fun hstruct => ?_⟩, ?_⟩
  · have hroot := hreach.goes.isStruct hstruct
    have hstored := (hvar.linear (by rw [hvar.ty, Value.isLinear_ty, hroot])).2.1
    refine ⟨(hreach.goes.holds hstored).1, fun hprovenance => ?_⟩
    grind
  intro id hid
  split at hid
  · next hsteps =>
    cases hid
    obtain ⟨-, rfl⟩ := hreach.goes.of_isEmpty hsteps
    exact ⟨_, hx⟩
  · cases hid

/-! ### Operations -/

/-- A value that depends on registers only comes to an answer. -/
def IR.Value.Answers (m : IR.Module) (R : Registers) (value : IR.Value) (answer : Except EvalError Scalar) : Prop :=
  ∀ (frame : Frame) (M : Memory), frame.registers = R → evaluate m frame value M =
    match answer with
    | .ok s => .ok (.done s) M
    | .error e => .error e M

theorem Site.Simulates.compute {site : Site} (hvalue : value.Answers site.program R answer)
    (hagrees : Agrees Value.scalar y answer) (hQ : ∀ z, y = .ok z → Q z (R.set r z.scalar) M) :
    site.Simulates (Eval.ofExcept y) [.set r value] rest R M Q := by
  cases y with
  | ok z =>
    cases hagrees
    exact .of_runs (.set fun rest => hvalue _ M rfl) rfl (hQ z rfl)
  | error stop =>
    cases stop with
    | fails e =>
      cases hagrees
      have hfails : site.Fails [.set r value] R M e := .set fun rest => hvalue _ M rfl
      exact .of_fails hfails
    | stuck => exact hagrees.elim

/-- A value computes what an operation on values comes to, which is of a type. -/
def IR.Value.Computes (k : Scene) (R : Registers) (value : IR.Value) (t : TypeRef) (y : Except Stop Meaning.Value) :
    Prop :=
  (∃ answer, value.Answers k.program R answer ∧ Agrees Meaning.Value.scalar y answer) ∧
    ∀ z, y = .ok z → z.Fits k.catalog ∧ z.ty = t

/-- **A value that one instruction computes** from operands that were evaluated before. -/
theorem Evaluates.compound {α : Type} (hout : l.output = .compound value) (hepilog : l.epilog = [])
    (hprovenance : l.provenance = .temporary) (hplace : ∀ p, e ≠ .place p) (hlin : l.ty.isLinear = false)
    (htype : value.resultType = l.ty.irType) (hsteady : w.Steady k.numbers w') {x : Env → Eval α} {f}
    (heval : ∀ env, k.setting.evalExpr env e = x env >>= f)
    (hsim : ∀ {site rest env place R M},
      k.Hosts site → w.scope.Holds k.catalog R M place env → M.Proper → R.Blank w.fresh w'.fresh →
        site.Simulates (x env) l.code rest R M fun a R' M' =>
          Quiet env place w.fresh w'.fresh R M R' M' ∧ w'.scope.Holds k.catalog R' M' place env ∧
            ∃ y, f a = Eval.ofExcept y ∧ value.Computes k R' l.ty y) : l.Evaluates k w w' e := by
  intro span
  unfold Lowered.ready
  rw [hout]
  dsimp only
  split
  · exact .reject
  refine .bind (.fresh (.pure ⟨hsteady.trans (.of_scope rfl (Nat.le_succ _)), hepilog, ?_, fun _ => trivial, ?_⟩))
  · exact ⟨fun _ => hplace, fun _ => hprovenance⟩
  intro site rest env place R M hsite hholds hM hblank
  have hlast : (w'.fresh : Nat) ≤ w'.fresh + 1 := Nat.le_succ _
  rw [heval]
  refine (hsim hsite hholds hM (hblank.mono le_rfl hlast)).bind fun a R' M' hpost => ?_
  obtain ⟨hquiet, hholds', y, hy, ⟨answer, hanswers, hagrees⟩, hfits⟩ := hpost
  rw [← hsite.program] at hanswers
  rw [hy]
  refine .compute hanswers hagrees fun z hz => ?_
  obtain ⟨hz, hty⟩ := hfits z hz
  have hscalar : z.isStruct = false := by rw [← Value.isLinear_ty, hty, hlin]
  have hnone : R'.get? w'.fresh = none := by
    rw [hquiet.changes _ fun h => Nat.lt_irrefl _ h.2]
    exact hblank _ hsteady.fresh (Nat.lt_succ_self _)
  have hset : Quiet env place w'.fresh (w'.fresh + 1) R' M' (R'.set w'.fresh z.scalar) M' :=
    .set le_rfl (Nat.lt_succ_self _) hnone hquiet.proper _
  refine ⟨hquiet.append hset hsteady.fresh hlast, hholds'.mono hset.le le_rfl fun _ _ => rfl, hty.symm, hz, ?_,
    ⟨0, ?_, ?_⟩, ?_⟩
  · rw [hty]
    exact htype
  · rw [Value.handle_scalar hscalar]
    exact Registers.argument_set_self ..
  · simp [hscalar]
  · simp [*]

theorem Ready.Gives.operand {r : Ready} (h : r.Gives c env low R M x) (hR : R.Le R')
    (hty : r.ty = .primitive kind) : R'.operand kind.irType r.argument.value = .ok x.scalar := by
  have hx : x.ty = .primitive kind := h.ty.symm.trans hty
  obtain ⟨a, hvalue, -⟩ := h.value
  have hscalar : x.isStruct = false := by rw [← Value.isLinear_ty, hx]; rfl
  rw [Value.handle_scalar hscalar] at hvalue
  have := hR.argument hvalue
  rw [Registers.argument, h.argument, hx] at this
  exact this

theorem binary_answers {m R operator mode ty lhs rhs a b} (ha : R.operand ty lhs = .ok a)
    (hb : R.operand ty rhs = .ok b) :
    (IR.Value.binary operator mode ty lhs rhs).Answers m R (evalBinary operator mode ty a b) := by
  rintro frame M rfl
  refine (Effect.lift_bind ha _ M).trans ((Effect.lift_bind hb _ M).trans ?_)
  cases evalBinary operator mode ty a b <;> rfl

section Binary

variable (hsteady : w.Steady k.numbers w') (ha : a.Evaluates k w w' lhs)
  (hsteady' : w'.Steady k.numbers w'') (hb : b.Evaluates k w' w'' rhs)
include hsteady ha hsteady' hb

/-- **An operation on two operands.** -/
theorem Ready.combine_evaluates {result : Primitive} (hta : a.ty = .primitive kind) (htb : b.ty = .primitive kind)
    (htype : value.resultType = result.irType) {g : Value → Value → Except Stop Value} (hplace : ∀ p, e ≠ .place p)
    (heval : ∀ env, k.setting.evalExpr env e = do
      let x ← k.setting.evalExpr env lhs
      let y ← k.setting.evalExpr env rhs
      Eval.ofExcept (g x y))
    (hvalue : ∀ {R x y}, x.Fits k.catalog → y.Fits k.catalog → x.ty = .primitive kind →
      y.ty = .primitive kind → R.operand kind.irType a.argument.value = .ok x.scalar →
      R.operand kind.irType b.argument.value = .ok y.scalar → value.Computes k R (.primitive result) (g x y)) :
    (a.combine b value (.primitive result)).Evaluates k w w'' e := by
  refine Evaluates.compound (x := fun env => do
      let x ← k.setting.evalExpr env lhs
      let y ← k.setting.evalExpr env rhs
      return (x, y)) (f := fun p => Eval.ofExcept (g p.1 p.2)) rfl ?_ rfl hplace rfl htype
        (hsteady.trans hsteady') ?_ ?_
  · simp [Ready.combine, ha.epilog, hb.epilog]
  · simp_all
  intro site rest env place R M hsite hholds hM hblank
  refine (ha.simulates hsite hholds hM (hblank.mono le_rfl hsteady'.fresh)).bind fun x R' M' hx => ?_
  obtain ⟨hquiet, hholds', hgives⟩ := hx
  have hblank' : R'.Blank w'.fresh w''.fresh :=
    (hblank.mono hsteady.fresh le_rfl).changes hquiet.changes (.inr le_rfl)
  refine (hb.simulates hsite hholds' hquiet.proper hblank').bind_pure fun y R'' M'' hy => ?_
  obtain ⟨hquiet', hholds'', hgives'⟩ := hy
  refine .pure ⟨hquiet.append hquiet' hsteady.fresh hsteady'.fresh, hholds'', _, rfl, ?_⟩
  exact hvalue hgives.fits hgives'.fits (hgives.ty.symm.trans hta) (hgives'.ty.symm.trans htb)
    (hgives.operand hquiet'.le hta) (hgives'.operand (.refl _) htb)

theorem arithmetic_evaluates {span : Span}
    (h : Lowering.arithmetic operator a b span = .ok l) :
    l.Evaluates k w w'' (.arithmetic operator lhs rhs span) := by
  obtain ⟨kind, hkind, h⟩ := bind_eq_ok h
  obtain ⟨hta, htb⟩ := operandType_eq_ok hkind
  split at h
  · cases h
  rename_i hnum
  cases h
  rw [hta]
  refine Ready.combine_evaluates hsteady ha hsteady' hb hta htb rfl (g := Meaning.arithmetic operator)
    (fun _ h => by cases h) (fun env => by rw [Setting.evalExpr]) (fun hx hy htx hty hlhs hrhs => ?_)
  refine ⟨⟨_, binary_answers hlhs hrhs, evalBinary_agrees operator (by simpa using hnum) hx hy htx hty⟩, fun z hz => ?_⟩
  obtain ⟨hfits, htype⟩ := arithmetic_fits hx hz
  exact ⟨hfits, htype.trans htx⟩

theorem comparison_evaluates {span : Span}
    (h : Lowering.comparison operator a b span = .ok l) :
    l.Evaluates k w w'' (.compare operator lhs rhs span) := by
  obtain ⟨kind, hkind, h⟩ := bind_eq_ok h
  obtain ⟨hta, htb⟩ := operandType_eq_ok hkind
  split at h
  · next predicate hpred =>
    cases h
    refine Ready.combine_evaluates hsteady ha hsteady' hb hta htb rfl (g := Meaning.comparison operator)
      (fun _ h => by cases h) (fun env => by rw [Setting.evalExpr]) (fun {R x y} hx hy htx hty hlhs hrhs => ?_)
    obtain ⟨truth, hres, hagrees⟩ := evalCompare_agrees hpred hx hy htx hty
    rw [hres]
    refine ⟨⟨.ok (.ofBool (evalCompare predicate kind.irType x.scalar y.scalar)), ?_, ?_⟩, fun z hz => ?_⟩
    · rintro frame M rfl
      exact (Effect.lift_bind hlhs _ M).trans ((Effect.lift_bind hrhs _ M).trans rfl)
    · rw [hagrees]
      rfl
    · cases hz
      exact ⟨.boolean truth, rfl⟩
  · cases h

theorem logical_evaluates (operator : LogicalOperator) (span : Span) (hta : a.ty = .primitive .bool)
    (htb : b.ty = .primitive .bool) :
    (Lowering.logical operator a b).Evaluates k w w'' (.logical operator lhs rhs span) := by
  unfold Lowering.logical
  rw [hta]
  refine Ready.combine_evaluates hsteady ha hsteady' hb hta htb rfl (g := Meaning.logical operator)
    (fun _ h => by cases h) (fun env => by rw [Setting.evalExpr]) (fun hx hy htx hty hlhs hrhs => ?_)
  obtain ⟨truth, hres, hagrees⟩ := logical_agrees operator hx hy htx hty
  have hanswers := @binary_answers k.program _ operator.irOperator .unsigned .bool _ _ _ _ hlhs hrhs
  rw [hagrees] at hanswers
  rw [hres]
  refine ⟨⟨_, hanswers, rfl⟩, fun z hz => ?_⟩
  cases hz
  exact ⟨.boolean truth, rfl⟩

end Binary

section Unary

variable {operand : Expr} (hsteady : w.Steady k.numbers w')
  (ha : a.Evaluates k w w' operand)
include hsteady ha

/-- **An operation on one operand.** -/
theorem Ready.apply_evaluates {result : Primitive} (hta : a.ty = .primitive kind)
    (htype : value.resultType = result.irType) {f : Value → Eval Value} (hplace : ∀ p, e ≠ .place p)
    (heval : ∀ env, k.setting.evalExpr env e = k.setting.evalExpr env operand >>= f)
    (hvalue : ∀ {R x}, x.Fits k.catalog → x.ty = .primitive kind → a.argument.ty = kind.irType →
      R.operand kind.irType a.argument.value = .ok x.scalar →
        ∃ y, f x = Eval.ofExcept y ∧ value.Computes k R (.primitive result) y) :
    Lowered.Evaluates k w w' ⟨a.code, .compound value, .primitive result, .temporary, a.epilog⟩ e := by
  refine Evaluates.compound rfl ha.epilog rfl hplace rfl htype hsteady heval ?_
  intro site rest env place R M hsite hholds hM hblank
  refine (ha.simulates hsite hholds hM hblank).mono fun x R' M' hx => ?_
  obtain ⟨hquiet, hholds', hgives⟩ := hx
  have htx : x.ty = .primitive kind := hgives.ty.symm.trans hta
  exact ⟨hquiet, hholds', hvalue hgives.fits htx (by rw [hgives.argument, htx]; rfl) (hgives.operand (.refl _) hta)⟩

theorem negation_evaluates (span : Span) (hta : a.ty = .primitive .bool) :
    (Lowering.negation a).Evaluates k w w' (.not operand span) := by
  unfold Lowering.negation
  rw [hta]
  refine Ready.apply_evaluates hsteady ha hta rfl (fun _ h => by cases h) (fun env => by rw [Setting.evalExpr])
    (fun hx htx _ hoperand => ⟨_, rfl, ?_⟩)
  obtain ⟨truth, hres, hagrees⟩ := negation_agrees hx htx
  have hanswers := @binary_answers k.program _ .xor .unsigned .bool _ (.bool true) _ _ hoperand rfl
  rw [hagrees] at hanswers
  rw [hres]
  refine ⟨⟨_, hanswers, rfl⟩, fun z hz => ?_⟩
  cases hz
  exact ⟨.boolean truth, rfl⟩

end Unary

end Lowering
