import Lowering.IR.Flatten
import Lowering.Types.Basic
/-!
# Problems with a program, and broken promises of the lowering itself

A `Diagnostic` is what a user is told: how bad it is, its cause, and where. An `InternalError` can only mean that the
lowering is wrong; it stops everything. `Failure` is either.
-/

namespace Lowering

/-- How bad a problem is. -/
inductive Severity where
  | error | warning
deriving DecidableEq, Repr

/-- What is wrong with a program. -/
inductive Cause where
  | circularDefinition (name : String)
  | duplicateField (name : String)
  | duplicateVariable (name : String)
  | duplicateType (name : String)
  | duplicateFunction (name : String) (parameters : List TypeRef)
  | unknownType (written : String)
  | invalidType (name : String)
  | unknownField (field : String) (ty : TypeRef)
  | unknownFunction (name : String) (arguments : List TypeRef)
  | undeclaredVariable (name : String)
  | nonPrimitiveOperand (operation : String) (ty : TypeRef)
  | operandTypeMismatch (operation : String) (lhs rhs : TypeRef)
  | unsupportedOperator (operator : String) (ty : TypeRef)
  | nonBooleanOperand (ty : TypeRef)
  | typeMismatch (expected found : TypeRef)
  | assignmentTypeMismatch (expected found : TypeRef)
  | returnTypeMismatch (expected found : TypeRef)
  | unsupportedConstruct (what : String)
  | unresolvableTemplate (written : String)
  | templateDepth (name : String)
  | missingReturn
  | deadCode
  | voidValue
  | invalidVariableType (ty : TypeRef)
  | constantOutOfRange (n : Int)
  /-- The sizes of the fields of a structure add up to more than a word. This is no problem that a user is told of:
  adding them breaks the compiler off, and nothing that comes after it in a list of problems is ever found. -/
  | sizeOverflow
deriving DecidableEq, Repr

def Cause.message : Cause → String
  | .circularDefinition name => s!"structure `{name}` contains itself, either directly or indirectly"
  | .duplicateField name => s!"multiple use of field `{name}` in structure"
  | .duplicateVariable name => s!"variable `{name}` is already declared in this scope"
  | .duplicateType name => s!"type `{name}` is already defined"
  | .duplicateFunction name parameters =>
    s!"function `{name}` with signature ({TypeRef.texts parameters}) is already defined"
  | .unknownType written => s!"unknown type `{written}`"
  | .invalidType name => s!"type `{name}` has an invalid definition"
  | .unknownField field ty => s!"type {ty.text} has no field `{field}`"
  | .unknownFunction name arguments =>
    s!"unable to find function `{name}` with signature ({TypeRef.texts arguments})"
  | .undeclaredVariable name => s!"use of undeclared variable `{name}`"
  | .nonPrimitiveOperand operation ty => s!"cannot perform {operation} on non-primitive type {ty.text}"
  | .operandTypeMismatch operation lhs rhs =>
    s!"cannot perform {operation} on unequal types {lhs.text} and {rhs.text}"
  | .unsupportedOperator operator ty => s!"operator `{operator}` is not supported for type {ty.text}"
  | .nonBooleanOperand ty => s!"boolean operation expects bool operands, instead got {ty.text}"
  | .typeMismatch expected found => s!"type mismatch, expected {expected.text} but got {found.text}"
  | .assignmentTypeMismatch expected found =>
    s!"assignment type mismatch, cannot assign {found.text} to {expected.text}"
  | .returnTypeMismatch expected found =>
    s!"return type mismatch, expected {expected.text} but got {found.text}"
  | .unsupportedConstruct what => s!"{what} are currently unsupported"
  | .unresolvableTemplate written => s!"unable to resolve template argument {written}"
  | .templateDepth name => s!"template instantiation of `{name}` exceeds the maximum depth"
  | .missingReturn => "function does not return"
  | .deadCode => "this function has already returned, this line and following lines will not execute"
  | .voidValue => "a value of type void cannot be used"
  | .invalidVariableType ty => s!"cannot declare a variable of type {ty.text}"
  | .constantOutOfRange n => s!"integer constant {n} does not fit in i32"
  | .sizeOverflow => "attempt to add with overflow"

/-- A problem with a program. -/
structure Diagnostic where
  severity : Severity
  cause : Cause
  span : Span
  /-- The part of the tool that raised it. -/
  origin : Option String := none
deriving DecidableEq, Repr

namespace Diagnostic

def error (cause : Cause) (span : Span) : Diagnostic := { severity := .error, cause, span }

def warning (cause : Cause) (span : Span) : Diagnostic := { severity := .warning, cause, span }

def isError (d : Diagnostic) : Bool := d.severity == .error

def message (d : Diagnostic) : String := d.cause.message

end Diagnostic

/-- A broken promise of the lowering. -/
inductive InternalError where
  /-- The code of a body is not well formed. -/
  | malformed (problem : IR.Malformation)
  | unlinkedStructure (name : String)
  | unlinkedFunction (name : String)
  | missingVariable (id : Nat)
  | fieldOutOfRange (index : Nat)
  /-- Something is still to be run after the value of a condition was used. -/
  | conditionEpilog
  /-- Something is still to be run after the value of a return was used. -/
  | returnEpilog
deriving DecidableEq, Repr

def InternalError.message : InternalError → String
  | .malformed (.unterminatedBlock label) => s!"block {label} does not end in a terminator"
  | .malformed (.instructionAfterTerminator label) => s!"instruction follows the terminator of block {label}"
  | .malformed .missingEntryLabel => "instructions precede the entry label"
  | .malformed (.duplicateLocal id) => s!"local {id} is defined twice"
  | .malformed (.undefinedLocal id) => s!"reference to undefined local {id}"
  | .unlinkedStructure name => s!"structure `{name}` was used before being linked"
  | .unlinkedFunction name => s!"function `{name}` was used before being linked"
  | .missingVariable id => s!"variable {id} is missing from its scope"
  | .fieldOutOfRange index => s!"field {index} is out of range"
  | .conditionEpilog => "cannot branch on an expression with a pending epilog"
  | .returnEpilog => "cannot return an expression with a pending epilog"

/-- Why something could not be lowered. -/
inductive Failure where
  | diagnostic (d : Diagnostic)
  | internal (e : InternalError)
deriving DecidableEq, Repr

def Failure.error (cause : Cause) (span : Span) : Failure := .diagnostic (.error cause span)

end Lowering
