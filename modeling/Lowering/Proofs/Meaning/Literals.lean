import Lowering.Tree.Basic
/-!
# The constants that are written in a body

Positions of fields and arguments of templates are left out: they say which field or which type is meant, and no program
computes with them.
-/

namespace Lowering

mutual

/-- The constants written in an expression. -/
def Expr.literals : Expr → List Literal
  | .constant c => [c.value]
  | .place _ => []
  | .call c => c.literals
  | .arithmetic _ lhs rhs _ => lhs.literals ++ rhs.literals
  | .compare _ lhs rhs _ => lhs.literals ++ rhs.literals
  | .logical _ lhs rhs _ => lhs.literals ++ rhs.literals
  | .not operand _ => operand.literals

def Call.literals : Call → List Literal
  | ⟨_, arguments, _⟩ => Expr.allLiterals arguments

/-- The constants written in expressions. -/
def Expr.allLiterals : List Expr → List Literal
  | [] => []
  | e :: rest => e.literals ++ Expr.allLiterals rest

end

mutual

def Statement.literals : Statement → List Literal
  | .declare .. => []
  | .assign _ value _ => value.literals
  | .declareAssign _ _ value _ => value.literals
  | .ret none _ => []
  | .ret (some value) _ => value.literals
  | .call c => c.literals
  | .cond condition body clauses otherwise _ =>
    condition.literals ++ body.literals ++ Clause.allLiterals clauses ++ Block.optionLiterals otherwise

def Block.literals : Block → List Literal
  | ⟨statements, _⟩ => Statement.allLiterals statements

def Statement.allLiterals : List Statement → List Literal
  | [] => []
  | s :: rest => s.literals ++ Statement.allLiterals rest

/-- The constants written in a block that may be absent. -/
def Block.optionLiterals : Option Block → List Literal
  | none => []
  | some block => block.literals

/-- The constants written in a further condition of a conditional. -/
def Clause.literals : Clause → List Literal
  | ⟨condition, body, _⟩ => condition.literals ++ body.literals

/-- The constants written in further conditions of a conditional. -/
def Clause.allLiterals : List Clause → List Literal
  | [] => []
  | clause :: rest => clause.literals ++ Clause.allLiterals rest

end

def FunctionDefinition.literals (f : FunctionDefinition) : List Literal := Block.optionLiterals f.body

/-- A constant that is no string, and one of certain numbers if it is a number with a point. -/
def Literal.Admitted (numbers : Binary64 → Prop) : Literal → Prop
  | .integer _ => True
  | .float x => numbers x
  | .boolean _ => True
  | .string _ => False

namespace FunctionDefinition

/-- The numbers with a point that are written in a function. -/
def numbers (f : FunctionDefinition) (x : Binary64) : Prop := .float x ∈ f.literals

/-- A function without strings, in which constants with a point are the same if they are equal: zero has one sign
only. -/
structure Exact (f : FunctionDefinition) : Prop where
  strings : ∀ s, .string s ∉ f.literals
  distinct : ∀ x y, f.numbers x → f.numbers y → x.equal y = true → x = y

theorem Exact.admitted {f : FunctionDefinition} (h : f.Exact) : ∀ l ∈ f.literals, l.Admitted f.numbers
  | .integer _, _ => trivial
  | .float _, hl => hl
  | .boolean _, _ => trivial
  | .string s, hl => h.strings s hl

end FunctionDefinition

/-- A unit of exact functions. -/
def SourceUnit.Exact (u : SourceUnit) : Prop := ∀ f ∈ u.functions, f.Exact

end Lowering
