import Lowering.Binary64.Text
import Lowering.Text.Quoted
import Lowering.Tree.Basic
/-!
# How literals, operators and written types are shown in messages
-/

namespace Lowering

def boolText (b : Bool) : String := if b then "true" else "false"

def Literal.text : Literal → String
  | .integer n => toString n
  | .float x => x.text
  | .boolean b => boolText b
  | .string s => Quoted.encode s

def ArithmeticOperator.text : ArithmeticOperator → String
  | .add => "+"
  | .subtract => "-"
  | .multiply => "*"
  | .divide => "/"
  | .remainder => "%"

def CompareOperator.text : CompareOperator → String
  | .equal => "=="
  | .notEqual => "!="
  | .greater => ">"
  | .greaterEqual => ">="
  | .less => "<"
  | .lessEqual => "<="

def commaSeparated : List String → String
  | [] => ""
  | [text] => text
  | text :: rest => text ++ ", " ++ commaSeparated rest

/-- A name behind pointer marks. -/
def marked (depth : Nat) (name : String) : String :=
  String.ofList (List.replicate depth '@') ++ name

/-- A name with the texts of its template arguments. -/
def applied (name : String) (arguments : List String) : String :=
  name ++ "#[" ++ commaSeparated arguments ++ "]"

mutual

def TypeName.text : TypeName → String
  | ⟨depth, name, arguments, _⟩ =>
    match arguments with
    | [] => marked depth.toNat name.symbol
    | argument :: rest => marked depth.toNat (applied name.symbol (argument.text :: TemplateArgument.texts rest))

def TemplateArgument.text : TemplateArgument → String
  | .type ty => ty.text
  | .constant c => c.value.text

def TemplateArgument.texts : List TemplateArgument → List String
  | [] => []
  | argument :: rest => argument.text :: TemplateArgument.texts rest

end

end Lowering
