import Lowering.Body.Path
/-!
# Lowering expressions

Operands are lowered from left to right. An expression with an operation has a value that is not in a register yet;
whoever uses it as an operand puts it there.
-/

namespace Lowering

open IR (Argument Code Instruction)

/-! ### Constants -/

/-- The bytes of a string with a zero behind them lie in fresh memory; its value is the address of the first. -/
def lowerString (s : String) : Work Lowered := do
  let bytes := s.toUTF8.data.toList ++ [0]
  let array : IR.Ty := ⟨.array bytes.length (.int 8), 0⟩
  let storage ← Work.fresh
  let pointer ← Work.fresh
  let code : Code := [
    .set storage (.alloc array),
    .store (.register array.pointerTo storage) ⟨array, .bytes bytes⟩,
    .set pointer (.bitcast (.register array.pointerTo storage) .bytePointer)]
  return ⟨code, .bare (.register .bytePointer pointer), (TypeRef.primitive .string).offset 1, .temporary, []⟩

/-- Lowers a constant. Integers are 32-bit. -/
def lowerConstant (c : Constant) : Work Lowered := do
  match c.value with
  | .integer n =>
    if n.toInt < -0x80000000 ∨ 0x80000000 ≤ n.toInt then
      Work.reject (.constantOutOfRange n.toInt) c.span
    return ⟨[], .bare (.i32 n.toInt), .primitive .i32, .temporary, []⟩
  | .float x => return ⟨[], .bare ⟨Primitive.f64.irType, .float x⟩, .primitive .f64, .temporary, []⟩
  | .boolean b => return ⟨[], .bare ⟨.bool, .bool b⟩, .primitive .bool, .temporary, []⟩
  | .string s => lowerString s

/-! ### Places -/

def lowerPlace (ctx : Context) (p : Place) : Work Lowered := do
  let location ← Work.check ((← get).scope.locate ctx.catalog p)
  let (code, argument) ← walkTo ctx.catalog location true
  let provenance := if location.steps.isEmpty then .ownedBy location.root else .field
  return ⟨code, .bare argument, location.ty, provenance, []⟩

/-! ### Operations -/

/-- Checks that two operands are of the same built-in type, which is the result. -/
def operandType (operation : String) (lhs rhs : TypeRef) (span : Span) : Except Diagnostic Primitive := do
  let some kind := lhs.primitive? | throw (.error (.nonPrimitiveOperand operation lhs) span)
  if rhs.primitive?.isNone then
    throw (.error (.nonPrimitiveOperand operation rhs) span)
  if lhs ≠ rhs then
    throw (.error (.operandTypeMismatch operation lhs rhs) span)
  return kind

def ArithmeticOperator.irOperator : ArithmeticOperator → IR.BinaryOperator
  | .add => .add
  | .subtract => .sub
  | .multiply => .mul
  | .divide => .div
  | .remainder => .rem

def LogicalOperator.irOperator : LogicalOperator → IR.BinaryOperator
  | .and => .and
  | .or => .or

/-- The predicate of a comparison on a built-in type, if the type has it. -/
def CompareOperator.predicate? (operator : CompareOperator) (kind : Primitive) : Option IR.Predicate :=
  match kind.category, operator with
  | .int, .equal | .bool, .equal => some .eq
  | .int, .notEqual | .bool, .notEqual => some .ne
  | .float, .equal => some .oeq
  | .float, .notEqual => some .une
  | .float, .greater => some .ogt
  | .float, .greaterEqual => some .oge
  | .float, .less => some .olt
  | .float, .lessEqual => some .ole
  | .int, .greater => some (if kind.isSigned then .sgt else .ugt)
  | .int, .greaterEqual => some (if kind.isSigned then .sge else .uge)
  | .int, .less => some (if kind.isSigned then .slt else .ult)
  | .int, .lessEqual => some (if kind.isSigned then .sle else .ule)
  | _, _ => none

def Ready.combine (lhs rhs : Ready) (value : IR.Value) (ty : TypeRef) : Lowered :=
  ⟨lhs.code ++ rhs.code, .compound value, ty, .temporary, lhs.epilog ++ rhs.epilog⟩

def arithmetic (operator : ArithmeticOperator) (lhs rhs : Ready) (span : Span) : Except Diagnostic Lowered := do
  let kind ← operandType "arithmetic" lhs.ty rhs.ty span
  if !kind.isNumeric then
    throw (.error (.unsupportedOperator operator.text lhs.ty) span)
  let value := .binary operator.irOperator kind.mode kind.irType lhs.argument.value rhs.argument.value
  return lhs.combine rhs value lhs.ty

def comparison (operator : CompareOperator) (lhs rhs : Ready) (span : Span) : Except Diagnostic Lowered := do
  let kind ← operandType "comparison" lhs.ty rhs.ty span
  let some predicate := operator.predicate? kind | throw (.error (.unsupportedOperator operator.text lhs.ty) span)
  return lhs.combine rhs (.compare predicate kind.irType lhs.argument.value rhs.argument.value) (.primitive .bool)

/-- Checks that an operand is a truth value. -/
def Ready.expectBool (operand : Ready) (span : Span) : Except Diagnostic Unit :=
  if operand.ty.primitive? = some .bool then .ok () else .error (.error (.nonBooleanOperand operand.ty) span)

/-- A logical operation on two operands. Both are always evaluated. -/
def logical (operator : LogicalOperator) (lhs rhs : Ready) : Lowered :=
  lhs.combine rhs (.binary operator.irOperator .unsigned .bool lhs.argument.value rhs.argument.value) lhs.ty

def negation (operand : Ready) : Lowered :=
  let value := .binary .xor .unsigned .bool operand.argument.value (.bool true)
  ⟨operand.code, .compound value, operand.ty, .temporary, operand.epilog⟩

/-! ### Calls -/

def convert (operand : Ready) (source target : Primitive) : Lowered :=
  let output : Output :=
    match source.conversion target with
    | some conversion => .compound (.convert conversion operand.argument target.irType)
    | none => .bare ⟨target.irType, operand.argument.value⟩
  ⟨operand.code, output, .primitive target, .temporary, operand.epilog⟩

/-- The value to pass for an argument. A linear one is copied, unless it is a temporary. -/
def passValue (argument : Ready) : Work (Code × Argument) := do
  match argument.ty.linear?, argument.provenance with
  | some _, .temporary => return (argument.code, argument.argument)
  | some ref, _ =>
    let (clone, copy) ← cloneStructure ref argument.argument
    return (argument.code ++ clone, copy)
  | none, _ => return (argument.code, argument.argument)

/-- Writes the value of a variable that is an argument to its storage. -/
def flushArgument : Expr → Work Code
  | .place ⟨name, [], _⟩ => do
    let id ← Work.check ((← get).scope.lookup name)
    flushVariable id
  | _ => return []

/-- The values to pass for arguments. A variable that is an argument is written to its storage first. -/
def passValues : List Ready → List Expr → Work (Code × List Argument)
  | argument :: arguments, e :: es => do
    let (code, value) ← passValue argument
    let flushed ← flushArgument e
    let (more, values) ← passValues arguments es
    return (code ++ flushed ++ more, value :: values)
  | _, _ => return ([], [])

/-- A call of a function. A linear result is written to fresh memory, whose address goes before the arguments. -/
def callFunction (f : Function) (arguments : List Ready) (es : List Expr) : Work Lowered := do
  match f.linkedSignature with
  | .error e => throw (.internal e)
  | .ok signature =>
    let (code, values) ← passValues arguments es
    let epilog := arguments.flatMap Ready.epilog
    let returnType := signature.returnType
    if returnType.isLinear then
      let register ← Work.fresh
      let slot : Argument := .register returnType.irType register
      let call : Code := [
        .set register (.alloc returnType.storageType),
        .call .void f.represent (slot :: values)]
      return ⟨code ++ call, .bare slot, returnType, .temporary, epilog⟩
    else
      return ⟨code, .compound (.call returnType.irType f.represent values), returnType, .temporary, epilog⟩

def applyCall (ctx : Context) (name : String) (arguments : List Ready) (es : List Expr) (span : Span) :
    Work Lowered := do
  let types := arguments.map Ready.ty
  match ctx.registry.find name types, arguments with
  | some (.conversion source target), [operand] => return convert operand source target
  | some (.function _ f), _ => callFunction f arguments es
  | _, _ => Work.reject (.unknownFunction name types) span

mutual

def lowerExpr (ctx : Context) : Expr → Work Lowered
  | .constant c => lowerConstant c
  | .place p => lowerPlace ctx p
  | .call c => lowerCall ctx c
  | .arithmetic operator lhs rhs span => do
    let lhs ← (← lowerExpr ctx lhs).ready lhs.span
    let rhs ← (← lowerExpr ctx rhs).ready rhs.span
    Work.check (arithmetic operator lhs rhs span)
  | .compare operator lhs rhs span => do
    let lhs ← (← lowerExpr ctx lhs).ready lhs.span
    let rhs ← (← lowerExpr ctx rhs).ready rhs.span
    Work.check (comparison operator lhs rhs span)
  | .logical operator lhs rhs _ => do
    let a ← (← lowerExpr ctx lhs).ready lhs.span
    Work.check (a.expectBool lhs.span)
    let b ← (← lowerExpr ctx rhs).ready rhs.span
    Work.check (b.expectBool rhs.span)
    return logical operator a b
  | .not operand _ => do
    let a ← (← lowerExpr ctx operand).ready operand.span
    Work.check (a.expectBool operand.span)
    return negation a

def lowerCall (ctx : Context) : Call → Work Lowered
  | ⟨⟨name, [], _⟩, es, span⟩ => do
    let arguments ← lowerOperands ctx es
    applyCall ctx name.symbol arguments es span
  | ⟨⟨_, access :: _, _⟩, _, _⟩ => Work.reject (.unsupportedConstruct "method calls") access.span

def lowerOperands (ctx : Context) : List Expr → Work (List Ready)
  | [] => return []
  | e :: es => do
    let operand ← (← lowerExpr ctx e).ready e.span
    let operands ← lowerOperands ctx es
    return operand :: operands

end

/-- Lowers an expression, of a certain type if one is expected, and puts its value into an operand. -/
def lowerOperand (ctx : Context) (e : Expr) (expected : Option TypeRef) : Work Ready := do
  let lowered ← lowerExpr ctx e
  lowered.expect expected e.span
  lowered.ready e.span

end Lowering
