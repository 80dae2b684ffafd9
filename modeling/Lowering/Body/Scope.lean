import Lowering.Body.Workspace
/-!
# What can be done with variables: declaring, finding, reading, writing, and bringing branches together

Code goes with most of these. Reading a variable whose value is not known loads it; writing one stores it at once, or
later if values are kept in registers. Where branches meet, a variable whose value they do not agree on gets a phi.
-/

namespace Lowering

open IR (Argument Code Instruction Local Operand)

/-! ### Declaring -/

/-- Declares a variable, with fresh memory behind it. -/
def declareVariable (ty : TypeRef) (name : Identifier) : Work (Nat × Code) := do
  let scope := (← get).scope
  if scope.owns name.symbol then
    Work.reject (.duplicateVariable name.symbol) name.span
  if ty.isVoid then
    Work.reject (.invalidVariableType ty) name.span
  let register ← Work.fresh
  let address : Argument := .register ty.storageType.pointerTo register
  let v : Variable :=
    if ty.isLinear then ⟨name.symbol, ty, none, some address.value, false⟩
    else ⟨name.symbol, ty, some address, none, false⟩
  Work.updateScope (·.push v)
  return (scope.vars.length, [.set register (.alloc ty.storageType)])

/-- A parameter with the register its value arrives in. -/
structure Incoming where
  name : Identifier
  ty : TypeRef
  value : Argument
deriving DecidableEq, Repr

/-- Declares a parameter as a variable that has a value. -/
def declareParameter (p : Incoming) : Work Code := do
  let scope := (← get).scope
  let name := p.name.symbol
  if scope.owns name then
    Work.reject (.duplicateVariable name) p.name.span
  if p.ty.isLinear then
    Work.updateScope (·.push ⟨name, p.ty, none, some p.value.value, false⟩)
    return []
  let register ← Work.fresh
  let address : Argument := .register p.ty.storageType.pointerTo register
  let allocate : Instruction := .set register (.alloc p.ty.storageType)
  if scope.caching then
    Work.updateScope (·.push ⟨name, p.ty, some address, some p.value.value, true⟩)
    return [allocate]
  else
    Work.updateScope (·.push ⟨name, p.ty, some address, none, false⟩)
    return [allocate, .store address p.value]

def declareParameters : List Incoming → Work Code
  | [] => return []
  | p :: rest => do
    let code ← declareParameter p
    let more ← declareParameters rest
    return code ++ more

/-! ### Finding -/

def Scope.lookup (s : Scope) (name : Identifier) : Except Diagnostic Nat :=
  match s.find? name.symbol with
  | some id => .ok id
  | none => .error (.error (.undeclaredVariable name.symbol) name.span)

/-- One step into a structure. -/
structure Step where
  struct : StructureRef
  index : Nat
  ty : TypeRef
deriving DecidableEq, Repr

/-- Where a place is: a variable, the steps from there, and the type at the end. -/
structure Location where
  root : Nat
  steps : List Step
  ty : TypeRef
deriving DecidableEq, Repr

/-- Which field an access means. -/
inductive FieldKey where
  | byName (name : String)
  | byIndex (index : Nat)
deriving DecidableEq, Repr

namespace FieldKey

def text : FieldKey → String
  | .byName name => name
  | .byIndex index => toString index

def lookup (layout : Layout) : FieldKey → Option (Nat × TypeRef)
  | .byName name => layout.named? name
  | .byIndex index => layout.at? index

/-- The key of an access. A position has to be a constant. -/
def ofAccess : Access → Except Diagnostic FieldKey
  | .field name => .ok (.byName name.symbol)
  | .index (.constant ⟨.integer n, _⟩) span =>
    if 0 ≤ n.toInt then .ok (.byIndex n.toInt.toNat) else .error (dynamic span)
  | .index _ span => .error (dynamic span)
where
  /-- The error for a position that is not known. -/
  dynamic (span : Span) : Diagnostic := .error (.unsupportedConstruct "dynamic field accesses") span

end FieldKey

namespace Catalog

/-- The field that a key means in a value of a type. A structure's value and a pointer to it both are addresses of its
fields. -/
def fieldOf (c : Catalog) (ty : TypeRef) (key : FieldKey) (span : Span) : Except Diagnostic Step := do
  let unknown : Diagnostic := .error (.unknownField key.text ty) span
  let some ref := ty.structure? | throw unknown
  if ty.depth ≠ 1 ∧ ty.depth ≠ 2 then
    throw unknown
  let some (index, ty) := (c.layout? ref).bind key.lookup | throw unknown
  return ⟨ref, index, ty⟩

/-- The steps of accesses into a value of a type, and the type at the end. -/
def follow (c : Catalog) : TypeRef → List Access → Except Diagnostic (List Step × TypeRef)
  | ty, [] => .ok ([], ty)
  | ty, access :: rest => do
    let key ← FieldKey.ofAccess access
    let step ← c.fieldOf ty key access.span
    let (steps, ty) ← c.follow step.ty rest
    return (step :: steps, ty)

end Catalog

def Scope.locate (s : Scope) (c : Catalog) (p : Place) : Except Diagnostic Location := do
  let root ← s.lookup p.name
  match s.get? root with
  | none => throw (.error (.undeclaredVariable p.name.symbol) p.name.span)
  | some v =>
    let (steps, ty) ← c.follow v.ty p.accesses
    return ⟨root, steps, ty⟩

/-! ### Reading and writing -/

def readVariable (id : Nat) : Work (Code × Argument) := do
  let v ← Work.variableAt id
  match v.cache, v.storage with
  | some cache, _ => return ([], ⟨v.ty.irType, cache⟩)
  | none, none => Work.abort (.missingVariable id)
  | none, some address =>
    let register ← Work.fresh
    if (← get).scope.caching then
      Work.updateScope (·.put id { v with cache := some (.register register) })
    return ([.set register (.load v.ty.storageType address)], .register v.ty.irType register)

/-- Gives a variable a new value. A linear one is then at the address `value`. -/
def writeVariable (id : Nat) (value : Argument) : Work Code := do
  let v ← Work.variableAt id
  if v.ty.isLinear then
    Work.updateScope (·.put id { v with cache := some value.value })
    return []
  match v.storage with
  | none => Work.abort (.missingVariable id)
  | some address =>
    if (← get).scope.caching then
      Work.updateScope (·.put id { v with cache := some value.value, dirty := true })
      return []
    else
      Work.updateScope (·.put id { v with cache := none, dirty := false })
      return [.store address value]

/-- Writes a value that is only cached to the storage of its variable. -/
def flushVariable (id : Nat) : Work Code := do
  let v ← Work.variableAt id
  match v.dirty, v.storage, v.cache with
  | true, some address, some cache =>
    Work.updateScope (·.put id { v with dirty := false })
    return [.store address ⟨v.ty.irType, cache⟩]
  | _, _, _ => return []

/-! ### Bringing branches together -/

/-- A branch that arrives where branches meet, with the label of its last block. -/
structure Arrival where
  label : Local
  scope : Scope
deriving DecidableEq, Repr

/-- Code that brings branches together. -/
structure Synced where
  /-- The code for the end of each branch. -/
  tails : List Code
  /-- The code for the place where they meet. -/
  join : Code
deriving DecidableEq, Repr

/-- Whether variables are known to have the same value, or all have to be loaded. -/
def cachesAgree : List Variable → Bool
  | [] => true
  | first :: rest => (first :: rest).all fun v =>
    match v.cache, first.cache with
    | some a, some b => a.agrees b
    | none, none => true
    | _, _ => false

/-- The value of a variable at the end of a branch, loaded there if it is not known. -/
def arrivingValue (id : Nat) (v : Variable) (tail : Code) : Work (Code × Operand) := do
  match v.cache, v.storage with
  | some cache, _ => return (tail, cache)
  | none, none => Work.abort (.missingVariable id)
  | none, some address =>
    let register ← Work.fresh
    return (tail ++ [.set register (.load v.ty.storageType address)], .register register)

/-- The values of a variable at the ends of branches. -/
def arrivingValues (id : Nat) : List Arrival → List Variable → List Code →
    Work (List Code × List (Local × Operand))
  | arrival :: arrivals, v :: vs, tail :: tails => do
    let (tail, value) ← arrivingValue id v tail
    let (tails, sources) ← arrivingValues id arrivals vs tails
    return (tail :: tails, (arrival.label, value) :: sources)
  | _, _, _ => return ([], [])

def syncVariable (arrivals : List Arrival) (synced : Synced) (id : Nat) : Work Synced := do
  let states ← arrivals.mapM fun arrival =>
    match arrival.scope.get? id with
    | some v => pure v
    | none => Work.abort (.missingVariable id)
  let own ← Work.variableAt id
  let dirty := states.any Variable.dirty
  if cachesAgree states then
    Work.updateScope (·.put id { own with cache := states.head?.bind Variable.cache, dirty })
    return synced
  else
    let (tails, sources) ← arrivingValues id arrivals states synced.tails
    let phi ← Work.fresh
    Work.updateScope (·.put id { own with cache := some (.register phi), dirty })
    return ⟨tails, synced.join ++ [.set phi (.phi own.ty.irType sources)]⟩

/-- Brings the variables of a scope together where branches meet. Variables that a branch declared itself are gone. -/
def syncVariables (arrivals : List Arrival) : Work Synced := do
  let none : Synced := ⟨arrivals.map fun _ => [], []⟩
  if arrivals.isEmpty then
    return none
  (List.range (← get).scope.vars.length).foldlM (syncVariable arrivals) none

end Lowering
