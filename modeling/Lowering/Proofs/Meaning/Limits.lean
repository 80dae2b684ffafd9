import Lowering.Proofs.Machine.Progress
import Lowering.Proofs.Meaning.Evaluate
/-!
# Limits make no difference to what a program means, until they are reached

An evaluation with less memory, or with calls that may nest less deep, goes like the one with more of it, or it fails
for want of it (`Approximates`). This is said once of all the steps of an evaluation (`Setting.Approximates`), for any
limits whose steps that take memory and whose calls go together. So a call means one thing only (`Means.unique`), and a
limited call gives that, unless it stops for its limits (`callWithin_means`).

On the way it turns out that evaluations do not fail as broken code does.
-/

namespace Lowering.Meaning

/-- A reason to stop that does not tell of broken code. -/
def Stop.isExpected : Stop → Bool
  | fails e => !e.isStuck
  | stuck => true

/-- An evaluation goes like another one, or fails with one of certain failures. What the two have taken goes together by
`taken`. -/
def Approximates {α : Type} (taken : Nat → Nat → Prop) (strained : EvalError → Prop) (x y : Eval α) : Prop :=
  ∀ used used', taken used used' → Ensures x used (fun a u => ∃ u', y used' = .ok a u' ∧ taken u u') fun stop _ =>
    stop.isExpected = true ∧ ((∃ e, stop = .fails e ∧ strained e) ∨ ∃ u', y used' = .error stop u')

section Approximates

variable {α β : Type} {taken : Nat → Nat → Prop} {strained : EvalError → Prop} {a b : Value}

namespace Approximates

variable {x y : Eval α} {f g : α → Eval β}

theorem pure (a : α) : Approximates taken strained (Pure.pure a) (Pure.pure a) := fun _ used' h => ⟨used', rfl, h⟩

theorem throw (h : stop.isExpected = true) :
    Approximates taken strained (MonadExcept.throw stop : Eval α) (MonadExcept.throw stop) :=
  fun _ used' _ => ⟨h, .inr ⟨used', rfl⟩⟩

theorem bind (h : Approximates taken strained x y) (hf : ∀ a, Approximates taken strained (f a) (g a)) :
    Approximates taken strained (x >>= f) (y >>= g) := by
  intro used used' htaken
  refine Ensures.bind ((h used used' htaken).mono (fun a u _ hok => ?_) fun stop u _ hstop => ?_)
  · obtain ⟨u', hy, htaken'⟩ := hok
    have hbind : (y >>= g) used' = g a u' := by
      show EStateM.bind y g used' = _
      rw [EStateM.bind, hy]
    rw [hbind]
    exact hf a u u' htaken'
  refine ⟨hstop.1, hstop.2.imp_right fun ⟨u', hy⟩ => ⟨u', ?_⟩⟩
  show EStateM.bind y g used' = _
  rw [EStateM.bind, hy]

theorem map (h : Approximates taken strained x y) (f : α → β) : Approximates taken strained (f <$> x) (f <$> y) :=
  h.bind fun a => .pure (f a)

theorem ofOption (o : Option α) : Approximates taken strained (Eval.ofOption o) (Eval.ofOption o) := by
  cases o with
  | none => exact .throw rfl
  | some a => exact .pure a

theorem ofExcept {o : Except Stop α} (h : ∀ stop, o = .error stop → stop.isExpected = true) :
    Approximates taken strained (Eval.ofExcept o) (Eval.ofExcept o) := by
  cases o with
  | error stop => exact .throw (h stop rfl)
  | ok a => exact .pure a

end Approximates

/-! ### Operations -/

theorem isExpected_arithmetic (stop : Stop) (h : arithmetic operator a b = .error stop) : stop.isExpected = true := by
  unfold arithmetic at h
  split at h
  · split at h
    · cases operator <;> simp only [integerArithmetic] at h <;> (try split at h) <;> cases h <;> rfl
    · cases h
      rfl
  · split at h <;> cases h
    rfl
  · cases h
    rfl

theorem isExpected_comparison (stop : Stop) (h : comparison operator a b = .error stop) : stop.isExpected = true := by
  unfold comparison at h
  split at h
  iterate 2
    · split at h <;> cases h
      rfl
  · cases operator <;> cases h <;> rfl
  · cases h
    rfl

theorem isExpected_logical (stop : Stop) (h : logical operator a b = .error stop) : stop.isExpected = true := by
  unfold logical at h
  split at h
  · cases operator <;> cases h
  · cases h
    rfl

theorem isExpected_negation (stop : Stop) (h : negation a = .error stop) : stop.isExpected = true := by
  cases a <;> cases h <;> rfl

theorem isExpected_conversion (stop : Stop) (h : conversion target a = .error stop) : stop.isExpected = true := by
  unfold conversion at h
  split at h
  iterate 2
    · split at h <;> cases h
  · cases h
    rfl

end Approximates

/-! ### Evaluations -/

/-- A setting with limits that are more narrow than those of another one. -/
structure Setting.Approximates (taken : Nat → Nat → Prop) (strained : EvalError → Prop) (s t : Setting) : Prop where
  catalog : t.catalog = s.catalog
  registry : t.registry = s.registry
  reserve : ∀ ty, Meaning.Approximates taken strained (s.reserve ty) (t.reserve ty)
  call : ∀ f arguments, Meaning.Approximates taken strained (s.call f arguments) (t.call f arguments)

namespace Setting.Approximates

variable {taken : Nat → Nat → Prop} {strained : EvalError → Prop} {s t : Setting} (h : s.Approximates taken strained t)
include h

theorem pass (e : Expr) (v : Value) : Meaning.Approximates taken strained (s.pass e v) (t.pass e v) := by
  unfold Setting.pass
  split
  · split
    · exact h.reserve v.ty
    · exact .pure ()
  · exact .pure ()

theorem apply (name : String) (arguments : List Value) :
    Meaning.Approximates taken strained (s.apply name arguments) (t.apply name arguments) := by
  unfold Setting.apply
  rw [h.registry]
  split
  · exact (Meaning.Approximates.ofExcept isExpected_conversion).map some
  · refine (Meaning.Approximates.ofOption _).bind fun types => ?_
    split
    · exact (h.reserve _).bind fun _ => h.call _ _
    · exact h.call _ _
  · exact .throw rfl

mutual

theorem evalExpr (env : Env) :
    ∀ e : Expr, Meaning.Approximates taken strained (s.evalExpr env e) (t.evalExpr env e)
  | .constant c => by
    rw [Setting.evalExpr, Setting.evalExpr]
    cases c.value with
    | string => exact .throw rfl
    | _ => exact .pure _
  | .place p => by
    rw [Setting.evalExpr, Setting.evalExpr, Setting.read, Setting.read, h.catalog]
    exact (Meaning.Approximates.ofOption _).bind fun v => .ofOption _
  | .call c => (evalCall env c).bind fun result => .ofOption result
  | .arithmetic operator lhs rhs span =>
    (evalExpr env lhs).bind fun a => (evalExpr env rhs).bind fun b => .ofExcept isExpected_arithmetic
  | .compare operator lhs rhs span =>
    (evalExpr env lhs).bind fun a => (evalExpr env rhs).bind fun b => .ofExcept isExpected_comparison
  | .logical operator lhs rhs span =>
    (evalExpr env lhs).bind fun a => (evalExpr env rhs).bind fun b => .ofExcept isExpected_logical
  | .not operand span => (evalExpr env operand).bind fun a => .ofExcept isExpected_negation

theorem evalCall (env : Env) :
    ∀ c : Call, Meaning.Approximates taken strained (s.evalCall env c) (t.evalCall env c)
  | ⟨⟨name, [], _⟩, es, _⟩ => (evalArguments env es).bind fun arguments => h.apply name.symbol arguments
  | ⟨⟨_, _ :: _, _⟩, _, _⟩ => .throw rfl

theorem evalArguments (env : Env) : ∀ es : List Expr,
    Meaning.Approximates taken strained (s.evalArguments env es) (t.evalArguments env es)
  | [] => .pure _
  | e :: es =>
    (evalExpr env e).bind fun v => (h.pass e v).bind fun _ => (evalArguments env es).bind fun _ => .pure _

end

theorem typeOf (ty : TypeName) : Meaning.Approximates taken strained (s.typeOf ty) (t.typeOf ty) := by
  rw [Setting.typeOf, Setting.typeOf, h.catalog]
  exact .ofOption _

theorem write (env : Env) (p : Place) (new : Value) :
    Meaning.Approximates taken strained (s.write env p new) (t.write env p new) := by
  rw [Setting.write, Setting.write, h.catalog]
  exact (Meaning.Approximates.ofOption _).bind fun v => (Meaning.Approximates.ofOption _).bind fun v => .pure _

omit h

mutual

theorem evalStatement (h : s.Approximates taken strained t) (env : Env) : ∀ statement : Statement,
    Meaning.Approximates taken strained (s.evalStatement env statement) (t.evalStatement env statement)
  | .declare ty name _ => by
    rw [Setting.evalStatement, Setting.evalStatement, h.catalog]
    exact (h.typeOf ty).bind
      fun t => (Meaning.Approximates.ofOption _).bind fun v => (h.reserve t).bind fun _ => .pure _
  | .declareAssign ty name e _ =>
    (h.typeOf ty).bind fun t => (h.reserve t).bind fun _ => (h.evalExpr env e).bind fun v => .pure _
  | .assign target e _ => (h.evalExpr env e).bind fun v => (h.write env target v).map _
  | .ret none _ => .pure _
  | .ret (some e) _ => (h.evalExpr env e).bind fun v => .pure _
  | .call c => (h.evalCall env c).bind fun _ => .pure _
  | .cond condition body [] otherwise _ => by
    refine (h.evalExpr env condition).bind fun v => ?_
    split
    · exact (evalBlock h env body).map _
    · exact (evalOtherwise h env otherwise).map _
    · exact .throw rfl
  | .cond _ _ (_ :: _) _ _ => .throw rfl

theorem evalOtherwise (h : s.Approximates taken strained t) (env : Env) : ∀ otherwise : Option Block,
    Meaning.Approximates taken strained (s.evalOtherwise env otherwise) (t.evalOtherwise env otherwise)
  | none => .pure _
  | some block => evalBlock h env block

theorem evalBlock (h : s.Approximates taken strained t) (env : Env) : ∀ block : Block,
    Meaning.Approximates taken strained (s.evalBlock env block) (t.evalBlock env block)
  | ⟨statements, _⟩ => evalStatements h env statements

theorem evalStatements (h : s.Approximates taken strained t) (env : Env) : ∀ statements : List Statement,
    Meaning.Approximates taken strained (s.evalStatements env statements) (t.evalStatements env statements)
  | [] => .pure _
  | statement :: rest => by
    refine (evalStatement h env statement).bind fun flow => ?_
    cases flow with
    | next env => exact evalStatements h env rest
    | returned => exact .pure _

end

include h

theorem enter (env : Env) (parameters : List Parameter) (values : List Value) :
    Meaning.Approximates taken strained (s.enter env parameters values) (t.enter env parameters values) := by
  induction parameters generalizing env values with
  | nil =>
    cases values with
    | nil => exact .pure _
    | cons v values => exact .throw rfl
  | cons p parameters ih =>
    rcases values with _ | ⟨v, values⟩
    · exact .throw rfl
    rw [Setting.enter_cons, Setting.enter_cons]
    refine Meaning.Approximates.bind ?_ fun _ => ih _ values
    split
    · exact h.reserve v.ty
    · exact .pure _

/-- **Bodies** go like with other limits. -/
theorem evalBody (f : Function) (body : Block) (arguments : List Value) :
    Meaning.Approximates taken strained (s.evalBody f body arguments) (t.evalBody f body arguments) := by
  refine (h.enter [] _ arguments).bind fun env => (h.evalBlock env body).bind fun flow => ?_
  cases flow with
  | returned => exact .pure _
  | next => exact .throw rfl

end Setting.Approximates

/-! ### Calls -/

section Calls

variable {c : Catalog} {r : Registry} {taken : Nat → Nat → Prop} {strained : EvalError → Prop}

/-- **Calls** go like with other limits, and like calls that may nest deeper. -/
theorem callWithin_approximates {limit limit'}
    (hreserve : ∀ call call' ty, Approximates taken strained (Setting.reserve ⟨c, r, limit, call⟩ ty)
      (Setting.reserve ⟨c, r, limit', call'⟩ ty)) {more}
    (hmore : more = 0 ∨ strained .callDepth) (levels : Nat) (f : Function) (arguments : List Value) :
    Approximates taken strained (callWithin c r limit levels f arguments)
      (callWithin c r limit' (levels + more) f arguments) := by
  induction levels generalizing f arguments with
  | zero =>
    unfold callWithin
    rcases hbody : f.source.body with _ | body
    · exact .throw (by split <;> rfl)
    obtain rfl | hstrained := hmore
    · exact .throw rfl
    · exact fun _ _ _ => ⟨rfl, .inl ⟨_, rfl, hstrained⟩⟩
  | succ levels ih =>
    rw [Nat.succ_add]
    unfold callWithin
    rcases hbody : f.source.body with _ | body
    · exact .throw (by split <;> rfl)
    have hsettings : Setting.Approximates taken strained ⟨c, r, limit, callWithin c r limit levels⟩
      ⟨c, r, limit', callWithin c r limit' (levels + more)⟩ := ⟨rfl, rfl, hreserve _ _, ih⟩
    exact hsettings.evalBody f body arguments

theorem reserve_unlimited_approximates (call call' : Function → List Value → Eval (Option Value)) (t : TypeRef) :
    Approximates (fun _ _ => True) strained (Setting.reserve ⟨c, r, none, call⟩ t)
      (Setting.reserve ⟨c, r, none, call'⟩ t) := by
  intro used used' _
  unfold Ensures
  rw [Setting.reserve_unlimited rfl, Setting.reserve_unlimited rfl]
  cases c.sizeOf? t with
  | none => exact ⟨rfl, .inr ⟨used', rfl⟩⟩
  | some => exact ⟨_, rfl, trivial⟩

/-- Taking memory comes to the same without a limit, unless the limit is reached. No type is so large that the count
would overflow first. -/
theorem reserve_limited_approximates
    (hsizes : ∀ t size, c.sizeOf? t = some size → limit + 1 + size < 0x10000000000000000)
    (call call' : Function → List Value → Eval (Option Value)) (t : TypeRef) :
    Approximates (fun used _ => used ≤ limit + 1) (· = .outOfMemory) (Setting.reserve ⟨c, r, some limit, call⟩ t)
      (Setting.reserve ⟨c, r, none, call'⟩ t) := by
  intro used used' hused
  have hfree := @Setting.reserve_unlimited ⟨c, r, none, call'⟩ rfl t used'
  unfold Ensures
  rw [hfree]
  rcases hsize : c.sizeOf? t with _ | size
  · have hstuck : Setting.reserve ⟨c, r, some limit, call⟩ t used = .error .stuck used := by
      unfold Setting.reserve
      rw [hsize]
      rfl
    rw [hstuck]
    exact ⟨rfl, .inr ⟨used', rfl⟩⟩
  have hfit := hsizes t size hsize
  rw [Setting.reserve_eq rfl hsize, if_neg (by omega)]
  split
  · grind
  rename_i heq
  split at heq
  · cases heq
    exact ⟨rfl, .inl ⟨_, rfl, rfl⟩⟩
  · cases heq

/-- An evaluation goes like itself, and does not fail as broken code does. -/
theorem reserve_approximates_self (limit : Option Nat) (call call' : Function → List Value → Eval (Option Value))
    (t : TypeRef) :
    Approximates Eq (fun _ => False) (Setting.reserve ⟨c, r, limit, call⟩ t)
      (Setting.reserve ⟨c, r, limit, call'⟩ t) := by
  rintro used _ rfl
  have hsame : Setting.reserve ⟨c, r, limit, call'⟩ t = Setting.reserve ⟨c, r, limit, call⟩ t := rfl
  rw [hsame]
  unfold Ensures
  cases hres : Setting.reserve ⟨c, r, limit, call⟩ t used with
  | ok a u => exact ⟨u, rfl, rfl⟩
  | error stop u =>
    refine ⟨?_, .inr ⟨u, rfl⟩⟩
    cases stop with
    | stuck => rfl
    | fails e =>
      rcases limit with _ | limit
      · rw [Setting.reserve_unlimited rfl] at hres
        split at hres <;> cases hres
      rcases hsize : c.sizeOf? t with _ | size
      · unfold Setting.reserve at hres
        rw [hsize] at hres
        cases hres
      rw [Setting.reserve_eq rfl hsize] at hres
      split at hres
      · cases hres
        rfl
      · split at hres <;> cases hres
        rfl

/-- **No call fails as broken code does.** -/
theorem callWithin_expected (limit : Option Nat) (levels : Nat) (f : Function) (arguments : List Value) (used : Nat) :
    Ensures (callWithin c r limit levels f arguments) used (fun _ _ => True) fun stop _ => stop.isExpected = true :=
  (callWithin_approximates (reserve_approximates_self limit) (.inl rfl) levels f arguments used used rfl).mono
    (fun _ _ _ _ => trivial) fun _ _ _ h => h.1

/-- A call that has a meaning comes to it also if calls may nest deeper. -/
theorem Means.deeper {f arguments answer} (h : Means c r f arguments answer) :
    ∃ levels, ∀ more, ∃ used, callWithin c r none (levels + more) f arguments 0 =
      match answer with
      | .ok result => .ok result used
      | .error e => .error (.fails e) used := by
  obtain ⟨hdeep, levels, used, hanswer⟩ := h
  refine ⟨levels, fun more => ?_⟩
  have happroximates := @callWithin_approximates c r _ (· = .callDepth) none none reserve_unlimited_approximates more
    (.inr rfl) levels f arguments 0 0 trivial
  cases answer with
  | ok result =>
    obtain ⟨u, hu, -⟩ := happroximates.of_ok hanswer
    exact ⟨u, hu⟩
  | error e =>
    obtain ⟨-, ⟨e', he, rfl⟩ | hu⟩ := happroximates.of_error hanswer
    · simp_all
    · exact hu

/-- **A call means one thing only.** -/
theorem Means.unique (h : Means c r f arguments answer) (h' : Means c r f arguments answer') : answer = answer' := by
  obtain ⟨levels, hlevels⟩ := h.deeper
  obtain ⟨levels', hlevels'⟩ := h'.deeper
  obtain ⟨u, hu⟩ := hlevels levels'
  obtain ⟨u', hu'⟩ := hlevels' levels
  grind

/-- **A limited call gives what the call means**, unless it stops for its limits. -/
theorem callWithin_means (hsizes : ∀ t size, c.sizeOf? t = some size → limit + 1 + size < 0x10000000000000000)
    (levels : Nat) (f : Function) (arguments : List Value) (hused : used ≤ limit + 1) :
    Ensures (callWithin c r (some limit) levels f arguments) used (fun result _ => Means c r f arguments (.ok result))
      fun stop _ => ∀ e, stop = .fails e → e = .outOfMemory ∨ e = .callDepth ∨ Means c r f arguments (.error e) := by
  refine (callWithin_approximates (reserve_limited_approximates hsizes) (.inl rfl) levels f arguments used 0 hused).mono
    (fun result u _ hok => ?_) fun stop u _ hstop => ?_
  · obtain ⟨u', hu', -⟩ := hok
    exact ⟨nofun, levels, u', hu'⟩
  rintro e rfl
  obtain ⟨-, ⟨e', he, rfl⟩ | ⟨u', hu'⟩⟩ := hstop
  · cases he
    exact .inl rfl
  by_cases hdeep : e = .callDepth
  · exact .inr (.inl hdeep)
  · exact .inr (.inr ⟨fun h => hdeep (Except.error.inj h), levels, u', hu'⟩)

end Calls

end Lowering.Meaning
