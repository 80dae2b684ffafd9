import Lowering.Binary64.Basic
import Lowering.Source.Span
/-!
# The syntax tree of a compilation unit

Every node carries the span of source text it was written in. Names are plain strings. A type is kept as it was
written (`TypeName`); which type it names is decided later.
-/

namespace Lowering

/-- A name together with where it is written. -/
structure Identifier where
  symbol : String
  span : Span := {}
deriving DecidableEq, Repr

instance : Inhabited Identifier := ⟨⟨"", {}⟩⟩

/-- The value of a constant. -/
inductive Literal where
  | integer (n : Int64)
  | float (x : Binary64)
  | boolean (b : Bool)
  | string (s : String)
deriving DecidableEq, Repr

structure Constant where
  value : Literal
  span : Span := {}
deriving DecidableEq, Repr

mutual

/-- A written type: a name behind `depth` pointer marks, with template arguments if any. -/
structure TypeName where
  depth : UInt64
  name : Identifier
  arguments : List TemplateArgument
  span : Span

inductive TemplateArgument where
  | type (ty : TypeName)
  | constant (c : Constant)

end

/-- The written type that an argument is, if it is one. -/
def TemplateArgument.type? : TemplateArgument → Option TypeName
  | .type ty => some ty
  | .constant _ => none

/-- Operators that give a number. -/
inductive ArithmeticOperator where
  | add | subtract | multiply | divide | remainder
deriving DecidableEq, Repr

inductive CompareOperator where
  | equal | notEqual | greater | greaterEqual | less | lessEqual
deriving DecidableEq, Repr

/-- Operators on truth values. -/
inductive LogicalOperator where
  | and | or
deriving DecidableEq, Repr

mutual

/-- A named place: a variable, followed by accesses into it. -/
structure Place where
  name : Identifier
  accesses : List Access
  span : Span

/-- One step into a structure. -/
inductive Access where
  /-- The field of that name. -/
  | field (name : Identifier)
  /-- The field at a position. -/
  | index (position : Expr) (span : Span)

structure Call where
  target : Place
  arguments : List Expr
  span : Span

inductive Expr where
  | constant (c : Constant)
  | place (p : Place)
  | call (c : Call)
  | arithmetic (operator : ArithmeticOperator) (lhs rhs : Expr) (span : Span)
  | compare (operator : CompareOperator) (lhs rhs : Expr) (span : Span)
  | logical (operator : LogicalOperator) (lhs rhs : Expr) (span : Span)
  | not (operand : Expr) (span : Span)

end

def Expr.span : Expr → Span
  | .constant c => c.span
  | .place p => p.span
  | .call c => c.span
  | .arithmetic _ _ _ span => span
  | .compare _ _ _ span => span
  | .logical _ _ _ span => span
  | .not _ span => span

def Access.span : Access → Span
  | .field name => name.span
  | .index _ span => span

mutual

inductive Statement where
  /-- A variable without a first value. -/
  | declare (ty : TypeName) (name : Identifier) (span : Span)
  /-- A new value for a place. -/
  | assign (target : Place) (value : Expr) (span : Span)
  /-- A variable with its first value. -/
  | declareAssign (ty : TypeName) (name : Identifier) (value : Expr) (span : Span)
  /-- The end of the function. -/
  | ret (value : Option Expr) (span : Span)
  /-- A call for its effect. -/
  | call (c : Call)
  /-- A conditional; the further conditions of `clauses` are tried in order before `otherwise`. -/
  | cond (condition : Expr) (body : Block) (clauses : List Clause) (otherwise : Option Block) (span : Span)

/-- Statements in order. -/
structure Block where
  statements : List Statement
  span : Span

/-- A further condition of a conditional. -/
structure Clause where
  condition : Expr
  body : Block
  span : Span

end

def Statement.span : Statement → Span
  | .declare _ _ span => span
  | .assign _ _ span => span
  | .declareAssign _ _ _ span => span
  | .ret _ span => span
  | .call c => c.span
  | .cond _ _ _ _ span => span

structure FieldDefinition where
  name : Identifier
  ty : TypeName
  span : Span

/-- A structure, or a structure template when it has parameters. -/
structure StructureDefinition where
  name : Identifier
  parameters : List Identifier := []
  fields : List FieldDefinition
  /-- Its emitted name is the same in every file. -/
  external : Bool := false
  span : Span := {}

structure Parameter where
  name : Identifier
  ty : TypeName
  span : Span

/-- A function. Without a body it is either provided from outside or abstract. -/
structure FunctionDefinition where
  name : Identifier
  parameters : List Parameter := []
  returnType : TypeName
  body : Option Block
  /-- It is provided from outside. -/
  external : Bool := false
  /-- Its emitted name is its own. -/
  exported : Bool := false
  span : Span := {}

/-- One file. -/
structure SourceUnit where
  /-- The path of the source text. -/
  source : Option String := none
  structures : List StructureDefinition := []
  functions : List FunctionDefinition := []

/-! ### A name where nothing else is written -/

instance : Coe String Identifier := ⟨(⟨·, {}⟩)⟩

instance : Coe String TypeName := ⟨(⟨0, ·, [], {}⟩)⟩

instance : Coe String Place := ⟨(⟨·, [], {}⟩)⟩

end Lowering
