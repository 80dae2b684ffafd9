import Lowering.Body.Statement
/-!
# From a function to a procedure

The parameters of a procedure are the registers its arguments arrive in. A function with a linear result gets the
address for it as a parameter before the others and returns nothing.
-/

namespace Lowering

open IR (Argument Code Local)

/-- How a unit is compiled. -/
structure Options where
  /-- Keep values in registers between accesses, and touch memory only where it is needed. -/
  caching : Bool := true
  /-- The order in which `Registry.link` goes through the names of functions. No user sets it: names are kept in a hash
  map, whose order differs from run to run. -/
  order : List String := []
deriving DecidableEq, Repr

/-- The parameters of a function with the registers from `start` on. -/
def incomingFrom : (start : Local) → List Parameter → List TypeRef → List Incoming
  | start, p :: parameters, ty :: types =>
    ⟨p.name, ty, .register ty.irType start⟩ :: incomingFrom (start + 1) parameters types
  | _, _, _ => []

/-- The interface of a procedure, with its locals numbered from zero. -/
structure Interface where
  returnSlot : Option Argument
  returnType : IR.Ty
  incoming : List Incoming
  /-- The first local that is free. -/
  next : Local
deriving DecidableEq, Repr

namespace Interface

def ofSignature (parameters : List Parameter) (signature : Signature) : Interface :=
  let result := signature.returnType
  if result.isLinear then
    let incoming := incomingFrom 1 parameters signature.parameters
    ⟨some (.register result.irType 0), .void, incoming, 1 + incoming.length⟩
  else
    let incoming := incomingFrom 0 parameters signature.parameters
    ⟨none, result.irType, incoming, incoming.length⟩

def parameters (i : Interface) : List Argument := i.returnSlot.toList ++ i.incoming.map Incoming.value

end Interface

/-- Lowers parameters and body of a function, from its entry on. -/
def lowerEntry (ctx : Context) (entry : Local) (incoming : List Incoming) (body : Block) : Build Code := do
  let parameters ← declareParameters incoming
  let code ← lowerBody ctx body
  return .label entry :: parameters ++ code

/-- What became of a function: its procedure, if it has one, and what was reported on the way. -/
structure FunctionResult where
  procedure : Except Failure (Option IR.Procedure)
  reports : List Diagnostic := []
  /-- Code that copies a structure was asked for, whether or not there is a procedure in the end. -/
  copied : Bool := false

def assemble (f : Function) (i : Interface) (external : Bool) (code : Code) :
    Except Failure (Option IR.Procedure) :=
  match IR.flatten f.represent i.returnType i.parameters external code with
  | .ok procedure => .ok (some procedure)
  | .error problem => .error (.internal (.malformed problem))

/-- Compiles a function. An abstract function has no procedure, and one from outside only a declaration. -/
def compileFunction (catalog : Catalog) (registry : Registry) (options : Options) (f : Function) : FunctionResult :=
  if f.isAbstract then { procedure := .ok none }
  else
    match f.linkedSignature with
    | .error e => { procedure := .error (.internal e) }
    | .ok signature =>
      let i := Interface.ofSignature f.source.parameters signature
      match f.source.body with
      | none => { procedure := assemble f i true [] }
      | some body =>
        let ctx : Context := ⟨catalog, registry, signature.returnType, i.returnSlot⟩
        let path : Path := { fresh := i.next + 1, scope := { caching := options.caching }, label := i.next }
        match lowerEntry ctx i.next i.incoming body path with
        | .ok code path => ⟨assemble f i false code, path.reports, path.copied⟩
        | .error failure path => ⟨.error failure, path.reports, path.copied⟩

end Lowering
