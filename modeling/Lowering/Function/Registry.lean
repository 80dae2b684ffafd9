import Lowering.Types.Catalog
/-!
# The functions of a unit

Functions may share a name as long as their parameter types differ. A function that repeats an earlier one is reported
and never called. Every numeric built-in type is also the name of a conversion to it; functions come first.
-/

namespace Lowering

/-- The types of the parameters and of the result. -/
structure Signature where
  parameters : List TypeRef
  returnType : TypeRef
deriving DecidableEq, Repr

structure Function where
  source : FunctionDefinition
  /-- Its name in code. -/
  represent : String
  /-- Its types, once they are resolved. -/
  signature : Option Signature := none
  /-- Its types cannot be resolved, or it repeats an earlier function. -/
  failed : Bool := false

namespace Function

variable (f : Function)

def name : String := f.source.name.symbol

/-- Whether a function has neither a body nor one provided from outside. -/
def isAbstract : Bool := f.source.body.isNone && !f.source.external

def linkedSignature : Except InternalError Signature :=
  match f.signature with
  | some signature => .ok signature
  | none => .error (.unlinkedFunction f.name)

def resolveParameter (c : Catalog) (p : Parameter) : Except Diagnostic TypeRef := do
  let ty ← c.resolveValue [] p.ty
  if ty.isVoid then
    throw (.error (.invalidVariableType ty) p.ty.span)
  return ty

/-- The types of a definition: first the result, then the parameters in order. -/
def resolveSignature (c : Catalog) (definition : FunctionDefinition) : Except Diagnostic Signature := do
  let returnType ← c.resolveValue [] definition.returnType
  let parameters ← definition.parameters.mapM (resolveParameter c)
  return ⟨parameters, returnType⟩

def link (c : Catalog) : Except Diagnostic Signature × Function :=
  match f.signature with
  | some signature => (.ok signature, f)
  | none =>
    match resolveSignature c f.source with
    | .ok signature => (.ok signature, { f with signature })
    | .error d => (.error d, { f with failed := true })

/-- `f` as one that is not to be called. -/
def marked : Function := { f with failed := true }

def accepts (arguments : List TypeRef) : Bool :=
  !f.failed &&
    match f.signature with
    | some signature => signature.parameters == arguments
    | none => false

end Function

/-- What a call comes down to. -/
inductive Callee where
  /-- The function at a place. -/
  | function (id : Nat) (f : Function)
  /-- A conversion between numbers. -/
  | conversion (source target : Primitive)

/-- The functions of a unit, in the order of declaration. -/
structure Registry where
  fileId : Nat
  functions : List Function := []

namespace Registry

variable (r : Registry)

/-- The name in code of the function declared next. -/
def representOf (definition : FunctionDefinition) : String :=
  let name := definition.name.symbol
  if definition.external || definition.exported then name
  else s!"{name}.{Base36.numeral r.fileId}.{Base36.numeral r.functions.length}"

def declare (definition : FunctionDefinition) : Registry :=
  { r with functions := r.functions ++ [{ source := definition, represent := r.representOf definition }] }

def function? (id : Nat) : Option Function := r.functions[id]?

def linkSignatures (c : Catalog) : List Function → List Function × List Diagnostic
  | [] => ([], [])
  | f :: rest =>
    let (result, f) := f.link c
    let (rest, problems) := linkSignatures c rest
    match result with
    | .ok _ => (f :: rest, problems)
    | .error d => (f :: rest, d :: problems)

/-- The report of `f` if one of `earlier` can be called, has its name and accepts its parameters. -/
def repetition? (earlier : List Function) (f : Function) : Option Diagnostic :=
  match f.signature with
  | none => none
  | some signature =>
    if earlier.any fun e => e.name == f.name && e.accepts signature.parameters then
      some (.error (.duplicateFunction f.name signature.parameters) f.source.name.span)
    else none

/-- Marks the functions called `name` that repeat an earlier one. `earlier` holds the functions that were gone through,
with their marks. -/
def markGroup (name : String) (earlier : List Function) : List Function → List Function × List Diagnostic
  | [] => (earlier, [])
  | f :: rest =>
    match if f.name == name then repetition? earlier f else none with
    | none => markGroup name (earlier ++ [f]) rest
    | some d =>
      let (functions, reports) := markGroup name (earlier ++ [f.marked]) rest
      (functions, d :: reports)

/-- Marks the functions that repeat an earlier one, name by name. -/
def markGroups : List String → List Function → List Function × List Diagnostic
  | [], functions => (functions, [])
  | name :: names, functions =>
    let (functions, reports) := markGroup name [] functions
    let (functions, more) := markGroups names functions
    (functions, reports ++ more)

/-- Each of `names` once: first those in `order`, as they are listed there, then the others. Whatever order the names
are to come in, there is an `order` that asks for it (`groupNames_eq`). -/
def groupNames (order names : List String) : List String := (order.filter names.contains ++ names).eraseDups

/-- Resolves the types of all functions in `c`, and marks those that repeat an earlier one, name by name in the order
that `order` asks for. -/
def link (c : Catalog) (order : List String) : Registry × List Diagnostic :=
  let (functions, unresolved) := linkSignatures c r.functions
  let (functions, repeated) := markGroups (groupNames order (functions.map Function.name)) functions
  ({ r with functions }, unresolved ++ repeated)

/-- The conversion of a name for arguments of these types. -/
def findConversion (name : String) : List TypeRef → Option Callee
  | [argument] => do
    let target ← Primitive.ofName? name
    let source ← argument.primitive?
    if target.isNumeric && source.isNumeric then some (.conversion source target) else none
  | _ => none

/-- What a call of a name with arguments of these types comes down to. -/
def find (name : String) (arguments : List TypeRef) : Option Callee :=
  match r.functions.findIdx? fun f => f.name == name && f.accepts arguments with
  | some id => Callee.function id <$> r.function? id
  | none => findConversion name arguments

end Registry

end Lowering
