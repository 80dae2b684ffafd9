import Lowering.Diagnostic.Report
import Lowering.Function.Compile
import Lowering.Tree.WrittenTypes
import Lowering.Types.Link
/-!
# From a unit to a module

All types come first: structures are declared, instances of templates made, and everything is laid out. Then functions
are declared and their types resolved, and at last bodies are lowered. A function with errors is left out of the module;
only a broken promise of the lowering stops a compilation.
-/

namespace Lowering

def declareStructures : Catalog → Reporter → List StructureDefinition → Catalog × Reporter
  | c, r, [] => (c, r)
  | c, r, definition :: rest =>
    match c.declare definition with
    | .ok c => declareStructures c r rest
    | .error d => declareStructures c (r.throw d) rest

def instantiateAll : Catalog → Reporter → List TypeName → Catalog × Reporter
  | c, r, [] => (c, r)
  | c, r, ty :: rest =>
    match Catalog.instantiate [] ty c with
    | .ok _ c => instantiateAll c r rest
    | .error d c => instantiateAll c (r.remember d) rest

def compileFunctions (catalog : Catalog) (registry : Registry) (options : Options) :
    Reporter → List Function → Except InternalError (List IR.Procedure) × Reporter
  | r, [] => (.ok [], r)
  | r, f :: rest =>
    if f.failed then compileFunctions catalog registry options r rest
    else
      let result := compileFunction catalog registry options f
      let r := r.throwAll result.reports
      match result.procedure with
      | .error (.internal e) => (.error e, r)
      | .error (.diagnostic d) => compileFunctions catalog registry options (r.throw d) rest
      | .ok procedure =>
        let (procedures, r) := compileFunctions catalog registry options r rest
        ((procedure.toList ++ ·) <$> procedures, r)

def catalogOf (fileId : Nat) (u : SourceUnit) (r : Reporter) : Catalog × Reporter :=
  let (c, r) := declareStructures { fileId } r u.structures
  let (c, r) := instantiateAll c r u.writtenTypes
  let (c, problems) := c.link
  (c, r.throwAll problems)

def registryOf (fileId : Nat) (order : List String) (u : SourceUnit) (catalog : Catalog) (r : Reporter) :
    Registry × Reporter :=
  let registry := u.functions.foldl Registry.declare { fileId }
  let (registry, problems) := registry.link catalog order
  (registry, r.throwAll problems)

def declarations (c : Catalog) : Except InternalError (List IR.StructDeclaration) :=
  (c.structures.filter Structure.isLinked).mapM Structure.declaration

def compileUnit (fileId : Nat) (options : Options) (u : SourceUnit) : Except InternalError IR.Module × Reporter :=
  let (catalog, r) := catalogOf fileId u {}
  let (registry, r) := registryOf fileId options.order u catalog r
  match declarations catalog with
  | .error e => (.error e, r)
  | .ok structures =>
    let (procedures, r) := compileFunctions catalog registry options r registry.functions
    ((⟨structures, ·⟩) <$> procedures, r)

end Lowering
