import Lowering.Function.Registry
import Lowering.Machine.Memory
import Lowering.Proofs.Meaning.Value
/-!
# The meaning of a program, by direct evaluation of its text

Evaluation is strict and goes from left to right; `and` and `or` evaluate both sides. Variables hold values, so
assigning, passing and returning a structure copies it. A name that is declared in a branch is gone behind it.

A program that runs takes memory, and can run out of it. What it takes is counted along (`Setting.reserve`): a variable
takes the size of its type, and so does a structure that is passed by name and one that is returned. Without a limit
(`Setting.limit = none`) the count has no influence on anything.

Calls are evaluated by recursion on how deep they may still nest (`callWithin`). What a call means does not depend on
that (`Means`).
-/

namespace Lowering.Meaning

/-- Variables and their values, the last one declared first. -/
abbrev Env := List (String × Value)

namespace Env

def get? (env : Env) (name : String) : Option Value := env.lookup name

/-- Gives the variable that a name means a new value. -/
def set (name : String) (v : Value) : Env → Env
  | [] => []
  | (key, old) :: rest => if key = name then (key, v) :: rest else (key, old) :: set name v rest

/-- The variables of a scope when the scopes inside it are left. -/
def leave (env inner : Env) : Env := inner.drop (inner.length - env.length)

end Env

/-- Steps of an evaluation. The state counts the bytes that were taken. -/
abbrev Eval := EStateM Stop Nat

/-- An answer that takes no memory. -/
def Eval.ofExcept {α : Type} : Except Stop α → Eval α
  | .ok a => pure a
  | .error stop => throw stop

/-- An answer that a program in good order has. -/
def Eval.ofOption {α : Type} : Option α → Eval α
  | some a => pure a
  | none => throw .stuck

/-- What evaluation depends on. -/
structure Setting where
  catalog : Catalog
  registry : Registry
  /-- How many bytes can be taken, if there is a limit. -/
  limit : Option Nat
  /-- Calls of functions. -/
  call : Function → List Value → Eval (Option Value)

namespace Setting

variable (setting : Setting)

/-- Takes memory for a value of a type: at least one byte, and not beyond the limit. -/
def reserve (t : TypeRef) : Eval Unit := do
  let size ← Eval.ofOption (setting.catalog.sizeOf? t)
  let used ← get
  if let some limit := setting.limit then
    if 0x10000000000000000 ≤ used + size then
      throw (.fails .trap)
    if limit < used + size then
      throw (.fails .outOfMemory)
  set (used + max size 1)

def literal : Literal → Eval Value
  | .integer n => return .integer .i32 n.toInt
  | .float x => return .float .f64 x
  | .boolean b => return .boolean b
  | .string _ => throw .stuck

def read (env : Env) (p : Place) : Eval Value := do
  let v ← Eval.ofOption (env.get? p.name.symbol)
  Eval.ofOption (v.at? setting.catalog p.accesses)

/-- The variables after a place was given a new value of the same type. -/
def write (env : Env) (p : Place) (new : Value) : Eval Env := do
  let v ← Eval.ofOption (env.get? p.name.symbol)
  let v ← Eval.ofOption (v.put? setting.catalog p.accesses new)
  return env.set p.name.symbol v

/-- Takes memory for the copy of a structure that is passed by name. -/
def pass (e : Expr) (v : Value) : Eval Unit :=
  match e with
  | .place _ => if v.isStruct then setting.reserve v.ty else pure ()
  | _ => pure ()

/-- Calls what a name means for arguments of these types: a function of the unit, or else a conversion. -/
def apply (name : String) (arguments : List Value) : Eval (Option Value) :=
  match setting.registry.find name (arguments.map Value.ty), arguments with
  | some (.conversion _ target), [v] => some <$> Eval.ofExcept (conversion target v)
  | some (.function _ f), _ => do
    let types ← Eval.ofOption f.signature
    if types.returnType.isLinear then
      setting.reserve types.returnType
    setting.call f arguments
  | _, _ => throw .stuck

mutual

def evalExpr (env : Env) : Expr → Eval Value
  | .constant c => literal c.value
  | .place p => setting.read env p
  | .call c => do Eval.ofOption (← evalCall env c)
  | .arithmetic operator lhs rhs _ => do
    let a ← evalExpr env lhs
    let b ← evalExpr env rhs
    Eval.ofExcept (arithmetic operator a b)
  | .compare operator lhs rhs _ => do
    let a ← evalExpr env lhs
    let b ← evalExpr env rhs
    Eval.ofExcept (comparison operator a b)
  | .logical operator lhs rhs _ => do
    let a ← evalExpr env lhs
    let b ← evalExpr env rhs
    Eval.ofExcept (logical operator a b)
  | .not operand _ => do
    let a ← evalExpr env operand
    Eval.ofExcept (negation a)

/-- Evaluates a call; a function without a result gives none. -/
def evalCall (env : Env) : Call → Eval (Option Value)
  | ⟨⟨name, [], _⟩, es, _⟩ => do
    let arguments ← evalArguments env es
    setting.apply name.symbol arguments
  | ⟨⟨_, _ :: _, _⟩, _, _⟩ => throw .stuck

def evalArguments (env : Env) : List Expr → Eval (List Value)
  | [] => return []
  | e :: es => do
    let v ← evalExpr env e
    setting.pass e v
    let vs ← evalArguments env es
    return v :: vs

end

end Setting

/-- Where a statement leads: on to the next one, or out of the function with a result. -/
inductive Flow where
  | next (env : Env)
  | returned (result : Option Value)

/-- Behind a branch, the variables it declared are gone. -/
def Flow.leave (env : Env) : Flow → Flow
  | next inner => next (env.leave inner)
  | returned result => returned result

namespace Setting

variable (setting : Setting)

def typeOf (ty : TypeName) : Eval TypeRef := Eval.ofOption (setting.catalog.resolveValue [] ty).toOption

mutual

def evalStatement (env : Env) : Statement → Eval Flow
  | .declare ty name _ => do
    let t ← setting.typeOf ty
    let v ← Eval.ofOption (blank setting.catalog (setting.catalog.structures.length + 1) t)
    setting.reserve t
    return .next ((name.symbol, v) :: env)
  | .declareAssign ty name e _ => do
    let t ← setting.typeOf ty
    setting.reserve t
    let v ← setting.evalExpr env e
    return .next ((name.symbol, v) :: env)
  | .assign target e _ => do
    let v ← setting.evalExpr env e
    .next <$> setting.write env target v
  | .ret none _ => return .returned none
  | .ret (some e) _ => do
    let v ← setting.evalExpr env e
    return .returned (some v)
  | .call c => do
    let _ ← setting.evalCall env c
    return .next env
  | .cond condition body [] otherwise _ => do
    match ← setting.evalExpr env condition with
    | .boolean true => Flow.leave env <$> evalBlock env body
    | .boolean false => Flow.leave env <$> evalOtherwise env otherwise
    | _ => throw .stuck
  | .cond _ _ (_ :: _) _ _ => throw .stuck

/-- Evaluates the second branch of a conditional. -/
def evalOtherwise (env : Env) : Option Block → Eval Flow
  | none => return .next env
  | some block => evalBlock env block

def evalBlock (env : Env) : Block → Eval Flow
  | ⟨statements, _⟩ => evalStatements env statements

/-- Evaluates statements in order, up to the first that leaves the function. -/
def evalStatements (env : Env) : List Statement → Eval Flow
  | [] => return .next env
  | statement :: rest => do
    match ← evalStatement env statement with
    | .next env => evalStatements env rest
    | .returned result => return .returned result

end

/-- The variables that a function begins with, and the memory for those that are no structures. -/
def enter : Env → List Parameter → List Value → Eval Env
  | env, p :: parameters, v :: values => do
    if !v.isStruct then
      setting.reserve v.ty
    enter ((p.name.symbol, v) :: env) parameters values
  | env, [], [] => return env
  | _, _, _ => throw .stuck

def evalBody (f : Function) (body : Block) (arguments : List Value) : Eval (Option Value) := do
  let env ← setting.enter [] f.source.parameters arguments
  match ← setting.evalBlock env body with
  | .returned result => return result
  | .next _ => throw .stuck

end Setting

/-! ### Equations -/

theorem Setting.reserve_eq {setting : Setting} {t : TypeRef} {limit size} (hlimit : setting.limit = some limit)
    (hsize : setting.catalog.sizeOf? t = some size) (used : Nat) : setting.reserve t used =
      if 0x10000000000000000 ≤ used + size then .error (.fails .trap) used
      else if limit < used + size then .error (.fails .outOfMemory) used
      else .ok () (used + max size 1) := by
  unfold Setting.reserve
  rw [hsize, hlimit]
  show (ite (0x10000000000000000 ≤ used + size) _ _ : Eval Unit) used = _
  split
  · rfl
  · show (ite (limit < used + size) _ _ : Eval Unit) used = _
    split <;> rfl

theorem Setting.reserve_unlimited {setting : Setting} (hlimit : setting.limit = none) (t : TypeRef) (used : Nat) :
    setting.reserve t used =
      match setting.catalog.sizeOf? t with
      | some size => .ok () (used + max size 1)
      | none => .error .stuck used := by
  unfold Setting.reserve
  rw [hlimit]
  cases setting.catalog.sizeOf? t <;> rfl

/-- What comes behind a statement that leads on. -/
def Flow.andThen (f : Env → Eval Flow) : Flow → Eval Flow
  | next env => f env
  | returned result => pure (returned result)

theorem Flow.leave_map (env : Env) (x : Eval Flow) :
    Flow.leave env <$> x = x >>= Flow.andThen fun inner => pure (.next (env.leave inner)) := by
  rw [map_eq_pure_bind]
  exact bind_congr fun flow => by cases flow <;> rfl

theorem Setting.enter_cons (setting : Setting) (env : Env) (p : Parameter) (parameters : List Parameter) (v : Value)
    (values : List Value) : setting.enter env (p :: parameters) (v :: values) =
      (if !v.isStruct then setting.reserve v.ty else pure ⟨⟩) >>= fun _ =>
        setting.enter ((p.name.symbol, v) :: env) parameters values := by
  rw [Setting.enter]
  split <;> rfl

/-! ### Calls -/

/-- Calls a function, where at most `levels` calls can be in progress at a time. One that has no body is provided from
outside, or by nobody. -/
def callWithin (catalog : Catalog) (registry : Registry) (limit : Option Nat) :
    (levels : Nat) → Function → List Value → Eval (Option Value)
  | levels, f, arguments =>
    match f.source.body, levels with
    | none, _ => throw (.fails (if f.source.external then .external f.represent else .unknownProcedure f.represent))
    | some _, 0 => throw (.fails .callDepth)
    | some body, levels + 1 =>
      Setting.evalBody ⟨catalog, registry, limit, callWithin catalog registry limit levels⟩ f body arguments

section Calls

variable {catalog : Catalog} {registry : Registry} {limit : Option Nat} {f : Function}

theorem callWithin_none (hbody : f.source.body = none) (levels : Nat) (arguments : List Value) :
    callWithin catalog registry limit levels f arguments =
      throw (.fails (if f.source.external then .external f.represent else .unknownProcedure f.represent)) := by
  unfold callWithin
  rw [hbody]

theorem callWithin_zero (hbody : f.source.body = some body) (arguments : List Value) :
    callWithin catalog registry limit 0 f arguments = throw (.fails .callDepth) := by
  unfold callWithin
  rw [hbody]

theorem callWithin_succ (hbody : f.source.body = some body) (levels : Nat) (arguments : List Value) :
    callWithin catalog registry limit (levels + 1) f arguments =
      Setting.evalBody ⟨catalog, registry, limit, callWithin catalog registry limit levels⟩ f body arguments := by
  conv_lhs => unfold callWithin
  rw [hbody]

end Calls

/-- What a call of a function means: a result, or how the program fails. Memory has no limit, and calls may nest as deep
as is needed. -/
def Means (catalog : Catalog) (registry : Registry) (f : Function) (arguments : List Value)
    (answer : Except EvalError (Option Value)) : Prop :=
  answer ≠ .error .callDepth ∧ ∃ levels used, callWithin catalog registry none levels f arguments 0 =
    match answer with
    | .ok result => .ok result used
    | .error e => .error (.fails e) used

end Lowering.Meaning
