import Lowering.Body.Aggregate
import Lowering.Body.Scope
import Lowering.Function.Registry
/-!
# A line of control flow while it is lowered, and what expressions are lowered to

A `Path` is the state: its variables, the block that code is going into, and whether control has left the function.
Conditionals lower each branch on a path of its own (`branch`).
-/

namespace Lowering

open IR (Argument Code Instruction Local)

/-- What the lowering of a body looks things up in. -/
structure Context where
  catalog : Catalog
  registry : Registry
  returnType : TypeRef
  /-- Where a linear result goes. -/
  returnSlot : Option Argument

/-- A line of control flow. -/
structure Path extends Workspace where
  /-- The label of the block that code is going into. -/
  label : Local
  /-- Control has left the function. -/
  returned : Bool := false
  /-- The problems reported on the way, in order. -/
  reports : List Diagnostic := []
deriving DecidableEq, Repr

/-- Steps along a path. What was changed before a failure stays. -/
abbrev Build := EStateM Failure Path

namespace Build

/-- A step that only concerns variables and fresh locals. -/
def ofWork {α : Type} (work : Work α) : Build α := fun path =>
  match work path.toWorkspace with
  | .ok a w => .ok a { path with toWorkspace := w }
  | .error e w => .error e { path with toWorkspace := w }

instance : MonadLift Work Build := ⟨ofWork⟩

def reject {α : Type} (cause : Cause) (span : Span) : Build α := throw (.error cause span)

def report (d : Diagnostic) : Build Unit := modify fun path => { path with reports := path.reports ++ [d] }

end Build

/-! ### Lowered expressions -/

/-- Where a value comes from. A linear value that belongs to somebody is copied before it is handed over. -/
inductive Provenance where
  /-- Nobody else refers to it. -/
  | temporary
  /-- It is the value of a variable. -/
  | ownedBy (id : Nat)
  /-- It is part of a structure. -/
  | field
deriving DecidableEq, Repr

/-- The value of an expression. -/
inductive Output where
  /-- It sits in an operand. -/
  | bare (argument : Argument)
  /-- It is not assigned to a register yet. -/
  | compound (value : IR.Value)
deriving DecidableEq, Repr

/-- A lowered expression: the code to run before its value is used, the value, and the code to run after that. -/
structure Lowered where
  code : Code
  output : Output
  ty : TypeRef
  provenance : Provenance
  epilog : Code
deriving DecidableEq, Repr

/-- A lowered expression whose value sits in an operand. -/
structure Ready where
  code : Code
  argument : Argument
  ty : TypeRef
  provenance : Provenance
  epilog : Code
deriving DecidableEq, Repr

def Ready.toLowered (r : Ready) : Lowered := ⟨r.code, .bare r.argument, r.ty, r.provenance, r.epilog⟩

/-- Puts a value into a register if it sits in no operand yet. -/
def Lowered.ready (l : Lowered) (span : Span) : Work Ready := do
  match l.output with
  | .bare argument => return ⟨l.code, argument, l.ty, l.provenance, l.epilog⟩
  | .compound value =>
    if value.resultType.isVoid then
      Work.reject .voidValue span
    let register ← Work.fresh
    return ⟨l.code ++ [.set register value], .register value.resultType register, l.ty, l.provenance, l.epilog⟩

def Lowered.expect (l : Lowered) (expected : Option TypeRef) (span : Span) : Work Unit := do
  if let some expected := expected then
    if l.ty ≠ expected then
      Work.reject (.typeMismatch expected l.ty) span

/-! ### Locations -/

/-- Goes along steps from the address `base`. Every field on the way is read, the last one only if `reading`. -/
def walkSteps (c : Catalog) (reading : Bool) : Argument → List Step → Work (Code × Argument)
  | base, [] => return ([], base)
  | base, step :: rest => do
    let access ← accessField c step.struct step.index base (reading || !rest.isEmpty)
    let (code, value) ← walkSteps c reading access.value rest
    return (access.code ++ code, value)

/-- Goes to a location; the result is its value if `reading`, otherwise its address. -/
def walkTo (c : Catalog) (l : Location) (reading : Bool) : Work (Code × Argument) := do
  let (read, base) ← readVariable l.root
  let (code, value) ← walkSteps c reading base l.steps
  return (read ++ code, value)

/-! ### Branches -/

/-- A branch that was lowered on a path of its own. -/
structure Branch where
  /-- The label it starts at. -/
  start : Local
  code : Code
  /-- The label of its last block. -/
  last : Local
  returned : Bool
  scope : Scope

namespace Branch

/-- A branch arrives where branches meet, unless it leaves the function. -/
def arrivals (b : Branch) : List Arrival := if b.returned then [] else [⟨b.last, b.scope⟩]

/-- The code of a branch, with the code for its end taken from the tails of all arrivals, and the tails left over. -/
def emit (b : Branch) (join : Local) (tails : List Code) : Code × List Code :=
  let body : Code := .label b.start :: b.code
  if b.returned then (body, tails)
  else (body ++ tails.headD [] ++ [.jump join], tails.tail)

end Branch

/-- Lowers a branch that starts at a label. The variables of the path it leaves stay as they are. -/
def branch (start : Local) (body : Build Code) : Build Branch := do
  let outer ← get
  set { outer with scope := outer.scope.child, label := start, returned := false }
  let code ← body
  let inner ← get
  set { outer with fresh := inner.fresh, copied := inner.copied, reports := inner.reports }
  return ⟨start, code, inner.label, inner.returned, inner.scope⟩

end Lowering
