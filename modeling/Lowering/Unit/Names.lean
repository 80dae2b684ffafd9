import Lowering.Unit.Compile
/-!
# The names that compiling a unit brings up

Names are numbered in the order in which they are first met: those of a tree while it is read, and then those that are
made up when it is compiled. Types come first, then functions, and then the routine that copies structures if some body
asks for it, even one that turns out to be wrong further on.
-/

namespace Lowering

/-- The names of the types: of primitives, and of every structure in the program and in code. -/
def Catalog.typeNames (c : Catalog) : List String :=
  Primitive.all.map Primitive.name ++ c.structures.flatMap fun s => [s.ref.name, s.ref.represent]

def Registry.codeNames (r : Registry) : List String := r.functions.map Function.represent

/-- Whether a body that is lowered asks for a copy of a structure. -/
def copiesStructure (catalog : Catalog) (registry : Registry) (options : Options) : Bool :=
  registry.functions.any fun f => !f.failed && (compileFunction catalog registry options f).copied

/-- The names that compiling a unit brings up, in order. -/
def namesOfUnit (fileId : Nat) (options : Options) (u : SourceUnit) : List String :=
  let (catalog, r) := catalogOf fileId u {}
  let (registry, _) := registryOf fileId options.order u catalog r
  catalog.typeNames ++ registry.codeNames ++ if copiesStructure catalog registry options then [IR.memcpy] else []

end Lowering
