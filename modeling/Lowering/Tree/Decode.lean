import Lowering.Json.Reader
import Lowering.Json.Scan
import Lowering.Tree.Basic
/-!
# Reading syntax trees from JSON

Every reader that can meet itself again takes the number of levels left to it. A document that can be read has fewer
than `Json.nestingLimit` levels, and every node of a tree takes at least one of them, so that number of levels never
runs out on a document that can be read.
-/

namespace Lowering

open Json

def Span.ofDoc (mode : Mode) (doc : Doc) : Reading Span :=
  Record.run (Span.mk <$> .required "start" (nameless readUInt64) <*> .required "end" (nameless readUInt64)) mode doc

/-- The span of a node; the empty span at the start of the text if it is not given. -/
def spanField (mode : Mode) : Record Span := .optional "span" {} (Span.ofDoc mode)

/-- An identifier: a string, or an object that also gives its span. -/
def Identifier.ofDoc (doc : Doc) : Reading Identifier := do
  let _ ← doc.value
  match doc with
  | .string _ => return ⟨← readName doc, {}⟩
  | .object _ _ => Record.run (Identifier.mk <$> .required "symbol" readName <*> spanField .settled) .settled doc
  | _ => .fault .misfit

/-- The value of a constant: an object with one member, named for the kind of value. -/
def Literal.ofDoc : Doc → Except Fault Literal
  | .object [(.ok "integer", doc)] none => (readInt64 doc).map .integer
  | .object [(.ok "float", doc)] none => (readFloat doc).map .float
  | .object [(.ok "boolean", doc)] none => (readBool doc).map .boolean
  | .object [(.ok "string", doc)] none => (readString doc).map .string
  | _ => .error .misfit

def Constant.ofDoc (doc : Doc) : Reading Constant :=
  Record.run (Constant.mk <$> .required "value" (nameless Literal.ofDoc) <*> spanField .settled) .settled doc

/-- The word of a document: a string, or the only key of an object, with nothing behind it. -/
def readKeyword : Doc → Except Fault String
  | .object [(.ok word, .null)] none => .ok word
  | .object [(.ok word, .object [] none)] none => .ok word
  | doc => readString doc

def readWord {α : Type} (words : List (String × α)) (doc : Doc) : Except Fault α := do
  let word ← readKeyword doc
  match words.lookup word with
  | some a => return a
  | none => throw .misfit

def ArithmeticOperator.ofDoc : Doc → Except Fault ArithmeticOperator :=
  readWord [("add", .add), ("subtract", .subtract), ("multiply", .multiply), ("divide", .divide),
    ("remainder", .remainder)]

def CompareOperator.ofDoc : Doc → Except Fault CompareOperator :=
  readWord [("equal", .equal), ("not_equal", .notEqual), ("greater", .greater), ("greater_equal", .greaterEqual),
    ("less", .less), ("less_equal", .lessEqual)]

mutual

def TypeName.ofDoc : Nat → Mode → Doc → Reading TypeName
  | 0, _, _ => .fault .malformed
  | levels + 1, mode, doc =>
    Record.run (TypeName.mk <$> .optional "pointer" 0 (nameless readUInt64) <*> .required "name" Identifier.ofDoc
      <*> .optional "template" [] (readList (TemplateArgument.ofDoc levels mode)) <*> spanField mode) mode doc

def TemplateArgument.ofDoc : Nat → Mode → Doc → Reading TemplateArgument
  | 0, _, _ => .fault .malformed
  | levels + 1, mode, doc => do
    match ← readTagged mode ["type", "constant"] doc with
    | (0, content) => .type <$> TypeName.ofDoc levels .settled content
    | (_, content) => .constant <$> Constant.ofDoc content

end

mutual

def Expr.ofDoc : Nat → Mode → Doc → Reading Expr
  | 0, _, _ => .fault .malformed
  | levels + 1, mode, doc => do
    let operand (key : String) : Record Expr := .required key (Expr.ofDoc levels .settled)
    let span := spanField .settled
    match ← readTagged mode
        ["constant", "variable", "call", "arithmetic", "compare", "and", "or", "not"] doc with
    | (0, content) => .constant <$> Constant.ofDoc content
    | (1, content) => .place <$> Place.ofDoc levels .settled content
    | (2, content) => .call <$> Call.ofDoc levels .settled content
    | (3, content) =>
      Record.run (Expr.arithmetic <$> .required "operator" (nameless ArithmeticOperator.ofDoc)
        <*> operand "lhs" <*> operand "rhs" <*> span) .settled content
    | (4, content) =>
      Record.run (Expr.compare <$> .required "operator" (nameless CompareOperator.ofDoc)
        <*> operand "lhs" <*> operand "rhs" <*> span) .settled content
    | (5, content) =>
      Record.run (Expr.logical .and <$> operand "lhs" <*> operand "rhs" <*> span) .settled content
    | (6, content) =>
      Record.run (Expr.logical .or <$> operand "lhs" <*> operand "rhs" <*> span) .settled content
    | (_, content) => Record.run (Expr.not <$> operand "operand" <*> span) .settled content

def Place.ofDoc : Nat → Mode → Doc → Reading Place
  | 0, _, _ => .fault .malformed
  | levels + 1, mode, doc =>
    Record.run (Place.mk <$> .required "name" Identifier.ofDoc
      <*> .optional "accesses" [] (readList (Access.ofDoc levels mode)) <*> spanField mode) mode doc

def Access.ofDoc : Nat → Mode → Doc → Reading Access
  | 0, _, _ => .fault .malformed
  | levels + 1, mode, doc => do
    match ← readTagged mode ["field", "index"] doc with
    | (0, content) => Record.run (Access.field <$> .required "name" Identifier.ofDoc) .settled content
    | (_, content) =>
      Record.run (Access.index <$> .required "index" (Expr.ofDoc levels .settled) <*> spanField .settled)
        .settled content

def Call.ofDoc : Nat → Mode → Doc → Reading Call
  | 0, _, _ => .fault .malformed
  | levels + 1, mode, doc =>
    Record.run (Call.mk <$> .required "target" (Place.ofDoc levels mode)
      <*> .optional "arguments" [] (readList (Expr.ofDoc levels mode)) <*> spanField mode) mode doc

end

mutual

def Statement.ofDoc : Nat → Mode → Doc → Reading Statement
  | 0, _, _ => .fault .malformed
  | levels + 1, mode, doc => do
    let ty : Record TypeName := .required "ty" (TypeName.ofDoc levels .settled)
    let name : Record Identifier := .required "name" Identifier.ofDoc
    let value : Record Expr := .required "value" (Expr.ofDoc levels .settled)
    let span := spanField .settled
    match ← readTagged mode ["declare", "assign", "declare_assign", "return", "call", "if"] doc with
    | (0, content) => Record.run (Statement.declare <$> ty <*> name <*> span) .settled content
    | (1, content) =>
      Record.run (Statement.assign <$> .required "target" (Place.ofDoc levels .settled) <*> value <*> span)
        .settled content
    | (2, content) =>
      Record.run (Statement.declareAssign <$> ty <*> name <*> value <*> span) .settled content
    | (3, content) =>
      Record.run (Statement.ret <$> .optional "value" none (readOption (Expr.ofDoc levels .settled)) <*> span)
        .settled content
    | (4, content) => .call <$> Call.ofDoc levels .settled content
    | (_, content) =>
      Record.run (Statement.cond <$> .required "condition" (Expr.ofDoc levels .settled)
        <*> .required "body" (Block.ofDoc levels .settled)
        <*> .optional "elif" [] (readList (Clause.ofDoc levels .settled))
        <*> .optional "otherwise" none (readOption (Block.ofDoc levels .settled)) <*> span) .settled content

def Block.ofDoc : Nat → Mode → Doc → Reading Block
  | 0, _, _ => .fault .malformed
  | levels + 1, mode, doc =>
    Record.run (Block.mk <$> .required "statements" (readList (Statement.ofDoc levels mode)) <*> spanField mode)
      mode doc

def Clause.ofDoc : Nat → Mode → Doc → Reading Clause
  | 0, _, _ => .fault .malformed
  | levels + 1, mode, doc =>
    Record.run (Clause.mk <$> .required "condition" (Expr.ofDoc levels mode)
      <*> .required "body" (Block.ofDoc levels mode) <*> spanField mode) mode doc

end

def readTypeName (mode : Mode) : Doc → Reading TypeName := TypeName.ofDoc nestingLimit mode

def FieldDefinition.ofDoc (mode : Mode) : Doc → Reading FieldDefinition :=
  Record.run (FieldDefinition.mk <$> .required "name" Identifier.ofDoc
    <*> .required "ty" (readTypeName mode) <*> spanField mode) mode

def StructureDefinition.ofDoc (mode : Mode) : Doc → Reading StructureDefinition :=
  Record.run (StructureDefinition.mk <$> .required "name" Identifier.ofDoc
    <*> .optional "template" [] (readList Identifier.ofDoc)
    <*> .required "fields" (readList (FieldDefinition.ofDoc mode))
    <*> .optional "external" false (nameless readBool) <*> spanField mode) mode

def Parameter.ofDoc (mode : Mode) : Doc → Reading Parameter :=
  Record.run (Parameter.mk <$> .required "name" Identifier.ofDoc
    <*> .required "ty" (readTypeName mode) <*> spanField mode) mode

def FunctionDefinition.ofDoc (mode : Mode) : Doc → Reading FunctionDefinition :=
  Record.run (FunctionDefinition.mk <$> .required "name" Identifier.ofDoc
    <*> .optional "parameters" [] (readList (Parameter.ofDoc mode))
    <*> .required "return_type" (readTypeName mode)
    <*> .optional "body" none (readOption (Block.ofDoc nestingLimit mode))
    <*> .optional "external" false (nameless readBool) <*> .optional "export" false (nameless readBool)
    <*> spanField mode) mode

def SourceUnit.ofDoc (mode : Mode) : Doc → Reading SourceUnit :=
  Record.run (SourceUnit.mk <$> .optional "source" none (readOption (nameless readString))
    <*> .optional "structures" [] (readList (StructureDefinition.ofDoc mode))
    <*> .optional "functions" [] (readList (FunctionDefinition.ofDoc mode))) mode

def SourceUnit.ofJson (value : Json) : Reading SourceUnit :=
  SourceUnit.ofDoc .value (Doc.ofJson value)

/-- A unit given as a text. Characters behind its value are met last. -/
def SourceUnit.ofText (text : String) : Reading SourceUnit := do
  let scanned := scan text
  let unit ← SourceUnit.ofDoc .text scanned.doc
  if scanned.complete then return unit else .fault .malformed

end Lowering
