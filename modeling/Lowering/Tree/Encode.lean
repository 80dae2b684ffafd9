import Lowering.Json.Basic
import Lowering.Tree.Basic
/-!
# Lowering.Tree.Encode

Writing syntax trees as JSON. Every field is written, identifiers always with their span.
-/

namespace Lowering

def Span.toJson (s : Span) : Json :=
  .object [("start", .ofUInt64 s.start), ("end", .ofUInt64 s.stop)]

def Identifier.toJson (i : Identifier) : Json :=
  .object [("symbol", .string i.symbol), ("span", i.span.toJson)]

def Literal.toJson : Literal → Json
  | .integer n => .object [("integer", .ofInt64 n)]
  | .float x => .object [("float", .number (.float x))]
  | .boolean b => .object [("boolean", .bool b)]
  | .string s => .object [("string", .string s)]

def Constant.members (c : Constant) : List (String × Json) :=
  [("value", c.value.toJson), ("span", c.span.toJson)]

def taggedJson (tag : String) (members : List (String × Json)) : Json :=
  .object (("type", .string tag) :: members)

def ArithmeticOperator.word : ArithmeticOperator → String
  | .add => "add"
  | .subtract => "subtract"
  | .multiply => "multiply"
  | .divide => "divide"
  | .remainder => "remainder"

def CompareOperator.word : CompareOperator → String
  | .equal => "equal"
  | .notEqual => "not_equal"
  | .greater => "greater"
  | .greaterEqual => "greater_equal"
  | .less => "less"
  | .lessEqual => "less_equal"

def LogicalOperator.word : LogicalOperator → String
  | .and => "and"
  | .or => "or"

mutual

def TypeName.members : TypeName → List (String × Json)
  | ⟨depth, name, arguments, span⟩ =>
    [("pointer", .ofUInt64 depth), ("name", name.toJson), ("template", .array (TemplateArgument.toJsons arguments)),
      ("span", span.toJson)]

def TemplateArgument.toJson : TemplateArgument → Json
  | .type ty => taggedJson "type" ty.members
  | .constant c => taggedJson "constant" c.members

def TemplateArgument.toJsons : List TemplateArgument → List Json
  | [] => []
  | argument :: rest => argument.toJson :: TemplateArgument.toJsons rest

end

def TypeName.toJson (ty : TypeName) : Json := .object ty.members

mutual

def Expr.toJson : Expr → Json
  | .constant c => taggedJson "constant" c.members
  | .place p => taggedJson "variable" p.members
  | .call c => taggedJson "call" c.members
  | .arithmetic operator lhs rhs span =>
    taggedJson "arithmetic" [("operator", .string operator.word), ("lhs", lhs.toJson), ("rhs", rhs.toJson),
      ("span", span.toJson)]
  | .compare operator lhs rhs span =>
    taggedJson "compare" [("operator", .string operator.word), ("lhs", lhs.toJson), ("rhs", rhs.toJson),
      ("span", span.toJson)]
  | .logical operator lhs rhs span =>
    taggedJson operator.word [("lhs", lhs.toJson), ("rhs", rhs.toJson), ("span", span.toJson)]
  | .not operand span => taggedJson "not" [("operand", operand.toJson), ("span", span.toJson)]

def Expr.toJsons : List Expr → List Json
  | [] => []
  | e :: rest => e.toJson :: Expr.toJsons rest

def Place.members : Place → List (String × Json)
  | ⟨name, accesses, span⟩ =>
    [("name", name.toJson), ("accesses", .array (Access.toJsons accesses)), ("span", span.toJson)]

def Access.toJson : Access → Json
  | .field name => taggedJson "field" [("name", name.toJson)]
  | .index position span => taggedJson "index" [("index", position.toJson), ("span", span.toJson)]

def Access.toJsons : List Access → List Json
  | [] => []
  | a :: rest => a.toJson :: Access.toJsons rest

def Call.members : Call → List (String × Json)
  | ⟨target, arguments, span⟩ =>
    [("target", .object target.members), ("arguments", .array (Expr.toJsons arguments)), ("span", span.toJson)]

end

mutual

def Statement.toJson : Statement → Json
  | .declare ty name span =>
    taggedJson "declare" [("ty", ty.toJson), ("name", name.toJson), ("span", span.toJson)]
  | .assign target value span =>
    taggedJson "assign" [("target", .object target.members), ("value", value.toJson), ("span", span.toJson)]
  | .declareAssign ty name value span =>
    taggedJson "declare_assign" [("ty", ty.toJson), ("name", name.toJson), ("value", value.toJson),
      ("span", span.toJson)]
  | .ret value span =>
    taggedJson "return" [("value", .ofOption Expr.toJson value), ("span", span.toJson)]
  | .call c => taggedJson "call" c.members
  | .cond condition body clauses otherwise span =>
    taggedJson "if" [("condition", condition.toJson), ("body", body.toJson),
      ("elif", .array (Clause.toJsons clauses)), ("otherwise", Block.optionToJson otherwise), ("span", span.toJson)]

def Statement.toJsons : List Statement → List Json
  | [] => []
  | s :: rest => s.toJson :: Statement.toJsons rest

def Block.toJson : Block → Json
  | ⟨statements, span⟩ => .object [("statements", .array (Statement.toJsons statements)), ("span", span.toJson)]

def Block.optionToJson : Option Block → Json
  | none => .null
  | some b => b.toJson

def Clause.toJson : Clause → Json
  | ⟨condition, body, span⟩ =>
    .object [("condition", condition.toJson), ("body", body.toJson), ("span", span.toJson)]

def Clause.toJsons : List Clause → List Json
  | [] => []
  | c :: rest => c.toJson :: Clause.toJsons rest

end

def FieldDefinition.toJson (f : FieldDefinition) : Json :=
  .object [("name", f.name.toJson), ("ty", f.ty.toJson), ("span", f.span.toJson)]

def StructureDefinition.toJson (s : StructureDefinition) : Json :=
  .object [("name", s.name.toJson), ("template", .ofList Identifier.toJson s.parameters),
    ("fields", .ofList FieldDefinition.toJson s.fields), ("external", .bool s.external), ("span", s.span.toJson)]

def Parameter.toJson (p : Parameter) : Json :=
  .object [("name", p.name.toJson), ("ty", p.ty.toJson), ("span", p.span.toJson)]

def FunctionDefinition.toJson (f : FunctionDefinition) : Json :=
  .object [("name", f.name.toJson), ("parameters", .ofList Parameter.toJson f.parameters),
    ("return_type", f.returnType.toJson), ("body", Block.optionToJson f.body), ("external", .bool f.external),
    ("export", .bool f.exported), ("span", f.span.toJson)]

def SourceUnit.toJson (u : SourceUnit) : Json :=
  .object [("source", .ofOption .string u.source), ("structures", .ofList StructureDefinition.toJson u.structures),
    ("functions", .ofList FunctionDefinition.toJson u.functions)]

end Lowering
