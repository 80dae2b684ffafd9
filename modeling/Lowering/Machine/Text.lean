import Lowering.IR.Print
import Lowering.Machine.Scalar
import Lowering.Source.SymbolTable
/-!
# Lowering.Machine.Text

The texts of scalars and of evaluation errors. A type that is spelled out shows structures together with the numbers
of their names.
-/

namespace Lowering

section

variable (symbols : SymbolTable)

def IR.Base.spelling : IR.Base → String
  | .void => "Void"
  | .int bits => s!"Int({bits})"
  | .float bits => s!"Float({bits})"
  | .struct name =>
    let number := (symbols.indexOf? name).getD 0
    s!"Struct(InternedSymbol({number}, " ++ Quoted.encode name ++ "))"
  | .array length element => s!"Array \x7b length: {length}, element: " ++ element.spelling ++ " \x7d"

def IR.Ty.spelling (t : IR.Ty) : String :=
  "IrType \x7b base: " ++ t.base.spelling symbols ++ s!", pointer: {t.pointer} \x7d"

def EvalError.message : EvalError → String
  | .unknownProcedure name => s!"no procedure named `{name}`"
  | .external name => s!"`{name}` is external and cannot be executed"
  | .argumentCount name expected found => s!"procedure `{name}` expects {expected} arguments, got {found}"
  | .undefinedRegister id => s!"register %{id} is read before it is defined"
  | .unknownLabel label => s!"jump to unknown block %{label}"
  | .unterminatedBlock label => s!"block %{label} does not end in a terminator"
  | .missingPhiSource => "phi has no value for the block control came from"
  | .divisionByZero => "division by zero"
  | .outOfBounds address size => s!"access of {size} bytes at address {address.toNat} is out of bounds"
  | .outOfMemory => "stack memory exhausted"
  | .stepLimit => "execution exceeded the step limit"
  | .callDepth => "call depth limit exceeded"
  | .unsupportedType ty => "values of type " ++ ty.spelling symbols ++ " are not supported here"
  | .trap => "arithmetic overflow"

end

def Scalar.text : Scalar → String
  | .int word => s!"Int({word.toNat})"
  | .float x => s!"Float({x.text})"

end Lowering
