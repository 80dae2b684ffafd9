import Lowering.Types.Catalog
/-!
# The variables of a body while it is lowered

A variable is known by its position in its scope. Its value is either known without touching memory (`cache`) or lies in
its storage; a *dirty* variable has a cached value that was not written back yet. A linear variable has no storage
besides the address in its cache.

A branch gets a scope of its own, which starts out with all the variables of its parent.
-/

namespace Lowering

structure Variable where
  name : String
  ty : TypeRef
  /-- The address of the memory behind a variable that is not linear. -/
  storage : Option IR.Argument
  /-- The value, if it is known. A linear variable always has its address here. -/
  cache : Option IR.Operand
  /-- The known value was not written to the storage yet. -/
  dirty : Bool
deriving DecidableEq, Repr

/-- The variables in sight. -/
structure Scope where
  /-- All variables, those of the parents first. The last one of a name is meant by it. -/
  vars : List Variable := []
  /-- How many of them were declared in a parent. -/
  inherited : Nat := 0
  /-- Whether values are kept in registers between accesses. -/
  caching : Bool
deriving DecidableEq, Repr

namespace Scope

variable (s : Scope)

/-- A scope that sees every variable of this one. -/
def child : Scope := { s with inherited := s.vars.length }

/-- Whether a name is declared in this very scope. -/
def owns (name : String) : Bool := (s.vars.drop s.inherited).any fun v => v.name == name

/-- The last position of a variable of a name. -/
def find? (name : String) : Option Nat :=
  (s.vars.reverse.findIdx? fun v => v.name == name).map fun fromEnd => s.vars.length - 1 - fromEnd

def get? (id : Nat) : Option Variable := s.vars[id]?

def push (v : Variable) : Scope := { s with vars := s.vars ++ [v] }

def put (id : Nat) (v : Variable) : Scope := { s with vars := s.vars.set id v }

end Scope

/-- Variables, and the number of the next local. -/
structure Workspace where
  fresh : IR.Local := 0
  scope : Scope
  /-- Code that copies a structure was asked for. -/
  copied : Bool := false
deriving DecidableEq, Repr

/-- Steps of the lowering. What was changed before a failure stays. -/
abbrev Work := EStateM Failure Workspace

namespace Work

/-- A local that was not used before. -/
def fresh : Work IR.Local :=
  modifyGet fun w => (w.fresh, { w with fresh := w.fresh + 1 })

def noteCopy : Work Unit := modify fun w => { w with copied := true }

def reject {α : Type} (cause : Cause) (span : Span) : Work α := throw (.error cause span)

def abort {α : Type} (e : InternalError) : Work α := throw (.internal e)

def check {α : Type} : Except Diagnostic α → Work α
  | .ok a => return a
  | .error d => throw (.diagnostic d)

def variableAt (id : Nat) : Work Variable := do
  match (← get).scope.get? id with
  | some v => return v
  | none => abort (.missingVariable id)

def updateScope (f : Scope → Scope) : Work Unit := modify fun w => { w with scope := f w.scope }

end Work

end Lowering
