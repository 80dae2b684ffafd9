import Lowering.Tree.Basic
/-!
# The types that are written in a unit, in order

Types inside structure templates are left out: they mean something only once the template has arguments.
-/

namespace Lowering

mutual

def Statement.writtenTypes : Statement → List TypeName
  | .declare ty _ _ => [ty]
  | .declareAssign ty _ _ _ => [ty]
  | .cond _ body clauses otherwise _ =>
    body.writtenTypes ++ Clause.allWrittenTypes clauses ++ Block.optionWrittenTypes otherwise
  | .assign .. | .ret .. | .call _ => []

def Block.writtenTypes : Block → List TypeName
  | ⟨statements, _⟩ => Statement.allWrittenTypes statements

def Statement.allWrittenTypes : List Statement → List TypeName
  | [] => []
  | s :: rest => s.writtenTypes ++ Statement.allWrittenTypes rest

def Block.optionWrittenTypes : Option Block → List TypeName
  | none => []
  | some block => block.writtenTypes

def Clause.writtenTypes : Clause → List TypeName
  | ⟨_, body, _⟩ => body.writtenTypes

def Clause.allWrittenTypes : List Clause → List TypeName
  | [] => []
  | clause :: rest => clause.writtenTypes ++ Clause.allWrittenTypes rest

end

def StructureDefinition.writtenTypes (s : StructureDefinition) : List TypeName :=
  if s.parameters.isEmpty then s.fields.map FieldDefinition.ty else []

def FunctionDefinition.writtenTypes (f : FunctionDefinition) : List TypeName :=
  f.returnType :: f.parameters.map Parameter.ty ++ Block.optionWrittenTypes f.body

def SourceUnit.writtenTypes (u : SourceUnit) : List TypeName :=
  u.structures.flatMap StructureDefinition.writtenTypes ++ u.functions.flatMap FunctionDefinition.writtenTypes

end Lowering
