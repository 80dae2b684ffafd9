import Lowering.Body.Expression
/-!
# Lowering statements

The two branches of a conditional are lowered from the same variables and brought together again behind it. Behind a
statement that leaves the function on every branch nothing is lowered any more.
-/

namespace Lowering

open IR (Argument Code Instruction Local)

/-- Writes a value to a location. A linear value is copied, but a temporary that goes to a variable becomes its
storage. -/
def storeAt (ctx : Context) (l : Location) (value : Ready) : Work Code := do
  match l.steps, l.ty.linear? with
  | [], none =>
    let write ← writeVariable l.root value.argument
    return value.code ++ write ++ value.epilog
  | [], some ref =>
    match value.provenance with
    | .temporary =>
      let write ← writeVariable l.root value.argument
      return value.code ++ write ++ value.epilog
    | provenance =>
      if provenance = .ownedBy l.root then
        return value.code ++ value.epilog
      let (read, destination) ← readVariable l.root
      let copy ← copyStructure ref destination value.argument
      return value.code ++ read ++ copy ++ value.epilog
  | _ :: _, linear =>
    let (walk, destination) ← walkTo ctx.catalog l false
    match linear with
    | some ref =>
      let copy ← copyStructure ref destination value.argument
      return value.code ++ walk ++ copy ++ value.epilog
    | none => return value.code ++ walk ++ [.store destination value.argument] ++ value.epilog

def lowerDeclare (ctx : Context) (ty : TypeName) (name : Identifier) : Work Code := do
  let ty ← Work.check (ctx.catalog.resolveValue [] ty)
  let (_, code) ← declareVariable ty name
  return code

/-- Lowers a declaration with a value. The value cannot refer to the new variable. -/
def lowerDeclareAssign (ctx : Context) (ty : TypeName) (name : Identifier) (e : Expr) (span : Span) : Work Code := do
  let value ← lowerOperand ctx e none
  let ty ← Work.check (ctx.catalog.resolveValue [] ty)
  if value.ty ≠ ty then
    Work.reject (.assignmentTypeMismatch ty value.ty) span
  let (root, allocate) ← declareVariable ty name
  let store ← storeAt ctx ⟨root, [], ty⟩ value
  return allocate ++ store

def lowerAssign (ctx : Context) (target : Place) (e : Expr) (span : Span) : Work Code := do
  let value ← lowerOperand ctx e none
  let location ← Work.check ((← get).scope.locate ctx.catalog target)
  if value.ty ≠ location.ty then
    Work.reject (.assignmentTypeMismatch location.ty value.ty) span
  storeAt ctx location value

/-- Notes that control has left the function. -/
def setReturned : Build Unit := modify fun path => { path with returned := true }

def lowerReturn (ctx : Context) (e : Option Expr) (span : Span) : Build Code := do
  let expected := ctx.returnType
  match e with
  | none =>
    if !expected.isVoid then
      Build.reject (.returnTypeMismatch expected (.primitive .void)) span
    setReturned
    return [.ret none]
  | some e =>
    let value ← lowerOperand ctx e none
    if !value.epilog.isEmpty then
      throw (.internal .returnEpilog)
    if value.ty ≠ expected then
      Build.reject (.returnTypeMismatch expected value.ty) span
    let leave ←
      match ctx.returnSlot, expected.linear? with
      | some slot, some ref => do
        let copy ← copyStructure ref slot value.argument
        pure (copy ++ [.ret none])
      | _, _ => pure [.ret (some value.argument)]
    setReturned
    return value.code ++ leave

/-- Lowers a call for its effect. A conversion has none. -/
def lowerCallStatement (ctx : Context) (c : Call) : Work Code := do
  let lowered ← lowerCall ctx c
  match lowered.output with
  | .compound (.call returnType callee arguments) =>
    return lowered.code ++ [.call returnType callee arguments] ++ lowered.epilog
  | _ => return lowered.code ++ lowered.epilog

def joinOne (condition : Ready) (positive : Branch) : Build Code := do
  let join ← Work.fresh
  let path ← get
  let synced ← syncVariables (⟨path.label, path.scope⟩ :: positive.arrivals)
  let (code, _) := positive.emit join synced.tails.tail
  modify fun path => { path with label := join }
  return condition.code ++ synced.tails.headD [] ++ [.branch condition.argument positive.start join] ++ code ++
    [.label join] ++ synced.join

def joinTwo (condition : Ready) (positive negative : Branch) : Build Code := do
  let join ← Work.fresh
  let synced ← syncVariables (positive.arrivals ++ negative.arrivals)
  let (positiveCode, tails) := positive.emit join synced.tails
  let (negativeCode, _) := negative.emit join tails
  let code := condition.code ++ [.branch condition.argument positive.start negative.start] ++ positiveCode ++
    negativeCode
  if positive.returned && negative.returned then
    setReturned
    return code
  else
    modify fun path => { path with label := join }
    return code ++ [.label join] ++ synced.join

mutual

def lowerStatement (ctx : Context) : Statement → Build Code
  | .declare ty name _ => lowerDeclare ctx ty name
  | .assign target value span => lowerAssign ctx target value span
  | .declareAssign ty name value span => lowerDeclareAssign ctx ty name value span
  | .ret value span => lowerReturn ctx value span
  | .call c => lowerCallStatement ctx c
  | .cond _ _ (clause :: _) _ _ => Build.reject (.unsupportedConstruct "elif clauses") clause.span
  | .cond condition body [] otherwise _ => do
    let condition ← lowerOperand ctx condition (some (.primitive .bool))
    if !condition.epilog.isEmpty then
      throw (.internal .conditionEpilog)
    let start ← Work.fresh
    let positive ← branch start (lowerBlock ctx body)
    match ← lowerOtherwise ctx otherwise with
    | some negative => joinTwo condition positive negative
    | none => joinOne condition positive

/-- Lowers the second branch of a conditional, if there is one. -/
def lowerOtherwise (ctx : Context) : Option Block → Build (Option Branch)
  | none => return none
  | some block => do
    let start ← Work.fresh
    some <$> branch start (lowerBlock ctx block)

def lowerBlock (ctx : Context) : Block → Build Code
  | ⟨statements, _⟩ => lowerStatements ctx statements

/-- Lowers statements in order, up to the first that is never reached. -/
def lowerStatements (ctx : Context) : List Statement → Build Code
  | [] => return []
  | statement :: rest => do
    if (← get).returned then
      Build.report (.warning .deadCode statement.span)
      return []
    let code ← lowerStatement ctx statement
    let more ← lowerStatements ctx rest
    return code ++ more

end

/-- Lowers the body of a function. It has to leave the function on every path. -/
def lowerBody (ctx : Context) (body : Block) : Build Code := do
  let code ← lowerBlock ctx body
  if !(← get).returned then
    Build.reject .missingReturn (.point body.span.stop)
  return code

end Lowering
