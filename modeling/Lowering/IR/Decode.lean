import Lowering.IR.Print
import Lowering.Json.Scan
import Lowering.Json.Value
/-!
# Code given as JSON

Words are written as decimal strings, floats as the hexadecimal digits of their bits, and bytes as two hexadecimal
digits each, so that nothing is lost on the way. Locals, labels and widths are numbers of 32 bits.
-/

namespace Lowering.IR

/-! ### Digits -/

def hexNumber? : Nat → List Char → Option Nat
  | n, [] => some n
  | n, c :: rest => do
    let digit ← Json.hexValue? c
    hexNumber? (16 * n + digit) rest

def hexBytes? : List Char → Option (List UInt8)
  | [] => some []
  | [_] => none
  | high :: low :: rest => do
    let byte ← hexNumber? 0 [high, low]
    let bytes ← hexBytes? rest
    return UInt8.ofNat byte :: bytes

/-- A number from decimal digits, of which there is at least one. -/
def digits? (cs : List Char) : Option Nat :=
  if cs.isEmpty || !cs.all Char.isDigit then none
  else some (cs.foldl (fun n c => 10 * n + Json.digitValue c) 0)

/-- An integer from decimal digits, with a sign or without one. -/
def signed? : List Char → Option Int
  | '-' :: cs => (digits? cs).map fun n => -n
  | '+' :: cs => (digits? cs).map Int.ofNat
  | cs => (digits? cs).map Int.ofNat

def decimal? (j : Json) : Option Int := j.string?.bind fun s => signed? s.toList

def word? (j : Json) : Option UInt64 := UInt64.ofInt <$> decimal? j

def float? (j : Json) : Option Binary64 := do
  let bits ← hexNumber? 0 (← j.string?).toList
  return ⟨UInt64.ofNat bits⟩

/-! ### Types and operands -/

/-- A base type that nests at most `levels` deep. -/
def Base.ofJson? : (levels : Nat) → Json → Option Base
  | _, .string "void" => some .void
  | 0, _ => none
  | levels + 1, j =>
    (.int <$> j.get? "int" Json.nat32?) <|> (.float <$> j.get? "float" Json.nat32?) <|>
    (.struct <$> j.get? "struct" Json.string?) <|>
    j.get? "array" fun array => do
      return .array (← array.get? "length" Json.nat?) (← array.get? "element" (Base.ofJson? levels))

def Ty.ofJson? (j : Json) : Option Ty := do
  return ⟨← j.get? "base" (Base.ofJson? Json.nestingLimit), ← j.getD? "ptr" 0 Json.nat?⟩

def Operand.ofJson? (j : Json) : Option Operand :=
  (.register <$> j.get? "local" Json.nat32?) <|> (.int <$> j.get? "int" decimal?) <|>
  (.float <$> j.get? "float" float?) <|> (.bool <$> j.get? "bool" Json.bool?) <|>
  (.bytes <$> (j.get? "bytes" Json.string?).bind fun s => hexBytes? s.toList)

def Argument.ofJson? (j : Json) : Option Argument := do
  return ⟨← j.get? "ty" Ty.ofJson?, ← j.get? "value" Operand.ofJson?⟩

def arguments? : Json → Option (List Argument) := Json.list? Argument.ofJson?

/-! ### Values and instructions -/

def BinaryOperator.ofJson? : Json → Option BinaryOperator :=
  Json.word? [("add", .add), ("sub", .sub), ("mul", .mul), ("div", .div), ("rem", .rem), ("and", .and), ("or", .or),
    ("xor", .xor)]

def NumericMode.ofJson? : Json → Option NumericMode :=
  Json.word? [("signed", .signed), ("unsigned", .unsigned), ("float", .float)]

def Predicate.ofJson? : Json → Option Predicate :=
  let all : List Predicate :=
    [.eq, .ne, .sgt, .sge, .slt, .sle, .ugt, .uge, .ult, .ule, .oeq, .une, .ogt, .oge, .olt, .ole]
  Json.word? (all.map fun p => (p.text, p))

def Conversion.ofJson? : Json → Option Conversion :=
  let all : List Conversion := [.trunc, .zext, .sext, .fptrunc, .fpext, .sitofp, .uitofp, .fptosi, .fptoui]
  Json.word? (all.map fun c => (c.text, c))

def source? (j : Json) : Option (Local × Operand) := do
  return (← j.get? "label" Json.nat32?, ← j.get? "value" Operand.ofJson?)

def Value.ofJson? (j : Json) : Option Value := do
  match ← j.get? "op" Json.string? with
  | "alloc" => return .alloc (← j.get? "ty" Ty.ofJson?)
  | "load" => return .load (← j.get? "ty" Ty.ofJson?) (← j.get? "address" Argument.ofJson?)
  | "gep" =>
    return .elementPointer (← j.get? "pointee" Ty.ofJson?) (← j.get? "base" Argument.ofJson?)
      (← j.get? "indices" arguments?) (← j.get? "result" Ty.ofJson?)
  | "binary" =>
    return .binary (← j.get? "operator" BinaryOperator.ofJson?) (← j.get? "mode" NumericMode.ofJson?)
      (← j.get? "ty" Ty.ofJson?) (← j.get? "lhs" Operand.ofJson?) (← j.get? "rhs" Operand.ofJson?)
  | "compare" =>
    return .compare (← j.get? "predicate" Predicate.ofJson?) (← j.get? "ty" Ty.ofJson?)
      (← j.get? "lhs" Operand.ofJson?) (← j.get? "rhs" Operand.ofJson?)
  | "bitcast" => return .bitcast (← j.get? "value" Argument.ofJson?) (← j.get? "to" Ty.ofJson?)
  | "convert" =>
    return .convert (← j.get? "conversion" Conversion.ofJson?) (← j.get? "value" Argument.ofJson?)
      (← j.get? "to" Ty.ofJson?)
  | "sizeof" => return .sizeOf (← j.get? "ty" Ty.ofJson?)
  | "call" =>
    return .call (← j.get? "return_type" Ty.ofJson?) (← j.get? "callee" Json.string?)
      (← j.get? "arguments" arguments?)
  | "phi" => return .phi (← j.get? "ty" Ty.ofJson?) (← j.get? "sources" (Json.list? source?))
  | _ => none

def Instruction.ofJson? (j : Json) : Option Instruction := do
  match ← j.get? "op" Json.string? with
  | "label" => return .label (← j.get? "id" Json.nat32?)
  | "set" => return .set (← j.get? "destination" Json.nat32?) (← j.get? "value" Value.ofJson?)
  | "store" => return .store (← j.get? "address" Argument.ofJson?) (← j.get? "value" Argument.ofJson?)
  | "call" =>
    return .call (← j.get? "return_type" Ty.ofJson?) (← j.get? "callee" Json.string?)
      (← j.get? "arguments" arguments?)
  | "branch" =>
    return .branch (← j.get? "condition" Argument.ofJson?) (← j.get? "positive" Json.nat32?)
      (← j.get? "negative" Json.nat32?)
  | "jump" => return .jump (← j.get? "to" Json.nat32?)
  | "return" => return .ret (← j.getOption? "value" Argument.ofJson?)
  | _ => none

def code? : Json → Option Code := Json.list? Instruction.ofJson?

/-! ### Modules -/

def Block.ofJson? (j : Json) : Option Block := do
  return ⟨← j.get? "label" Json.nat32?, ← j.get? "instructions" code?, []⟩

def Procedure.ofJson? (j : Json) : Option Procedure := do
  return ⟨← j.get? "name" Json.string?, ← j.get? "return_type" Ty.ofJson?, ← j.getD? "parameters" [] arguments?,
    ← j.getD? "external" false Json.bool?, ← j.getD? "blocks" [] (Json.list? Block.ofJson?)⟩

def StructDeclaration.ofJson? (j : Json) : Option StructDeclaration := do
  return ⟨← j.get? "name" Json.string?, ← j.get? "fields" (Json.list? Ty.ofJson?)⟩

def Module.ofJson? (j : Json) : Option Module := do
  return ⟨← j.getD? "structures" [] (Json.list? StructDeclaration.ofJson?),
    ← j.getD? "procedures" [] (Json.list? Procedure.ofJson?)⟩

end Lowering.IR
