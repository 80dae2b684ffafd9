import Lowering.IR.Basic
import Lowering.Text.Terminal
import Lowering.Tree.Text
/-!
# The text of code, coloured for a terminal if wanted

`plain` is the text for files: uncoloured, and without control characters that a name may have brought in.
-/

namespace Lowering.IR

open Terminal (Palette)

def printLocal (p : Palette) (id : Local) : String := p.tint .yellow ("%" ++ toString id)

/-- A base type, which has no colour of its own. -/
def Base.text : Base → String
  | .void => "void"
  | .int bits => "i" ++ toString bits
  | .float bits => if bits = 32 then "float" else "double"
  | .struct name => "%" ++ name
  | .array length element => "[" ++ toString length ++ " x " ++ element.text ++ "]"

def Ty.text (t : Ty) : String := t.base.text ++ String.ofList (List.replicate t.pointer '*')

def Ty.print (p : Palette) (t : Ty) : String := p.tint .green t.text

/-- One byte of a constant array: itself if it is a visible character other than a quote or a backslash, otherwise two
hexadecimal digits. -/
def byteText (b : UInt8) : List Char :=
  let n := b.toNat
  if 0x20 ≤ n ∧ n ≤ 0x7e ∧ n ≠ '"'.toNat ∧ n ≠ '\\'.toNat then [Char.ofNat n]
  else ['\\', (Nat.digitChar (n / 16)).toUpper, (Nat.digitChar (n % 16)).toUpper]

def Operand.print (p : Palette) : Operand → String
  | .register id => printLocal p id
  | .int n => p.tint .magenta (toString n)
  | .float x => p.tint .magenta x.text
  | .bool b => p.tint .magenta (boolText b)
  | .bytes data => p.tint .magenta ("c\"" ++ String.ofList (data.flatMap byteText) ++ "\"")

def Argument.print (p : Palette) (a : Argument) : String := a.ty.print p ++ " " ++ a.value.print p

def printArguments (p : Palette) (arguments : List Argument) : String :=
  commaSeparated (arguments.map (Argument.print p))

def opcode : BinaryOperator → NumericMode → String
  | .add, .float => "fadd"
  | .add, _ => "add"
  | .sub, .float => "fsub"
  | .sub, _ => "sub"
  | .mul, .float => "fmul"
  | .mul, _ => "mul"
  | .div, .float => "fdiv"
  | .div, .signed => "sdiv"
  | .div, .unsigned => "udiv"
  | .rem, .float => "frem"
  | .rem, .signed => "srem"
  | .rem, .unsigned => "urem"
  | .and, _ => "and"
  | .or, _ => "or"
  | .xor, _ => "xor"

def Predicate.text : Predicate → String
  | .eq => "eq"
  | .ne => "ne"
  | .sgt => "sgt"
  | .sge => "sge"
  | .slt => "slt"
  | .sle => "sle"
  | .ugt => "ugt"
  | .uge => "uge"
  | .ult => "ult"
  | .ule => "ule"
  | .oeq => "oeq"
  | .une => "une"
  | .ogt => "ogt"
  | .oge => "oge"
  | .olt => "olt"
  | .ole => "ole"

def Conversion.text : Conversion → String
  | .trunc => "trunc"
  | .zext => "zext"
  | .sext => "sext"
  | .fptrunc => "fptrunc"
  | .fpext => "fpext"
  | .sitofp => "sitofp"
  | .uitofp => "uitofp"
  | .fptosi => "fptosi"
  | .fptoui => "fptoui"

def printCall (p : Palette) (returnType : Ty) (callee : String) (arguments : List Argument) : String :=
  p.tint .cyan "call" ++ " " ++ returnType.print p ++ " @" ++ p.tint .blue callee ++
    "(" ++ printArguments p arguments ++ ")"

def Value.print (p : Palette) : Value → String
  | .alloc ty => p.tint .cyan "alloca" ++ " " ++ ty.print p
  | .load ty address => p.tint .cyan "load" ++ " " ++ ty.print p ++ ", " ++ address.print p
  | .elementPointer pointee base indices _ =>
    p.tint .cyan "getelementptr" ++ " " ++ pointee.print p ++ ", " ++ base.print p ++ ", " ++
      printArguments p indices
  | .binary operator mode ty lhs rhs =>
    p.tint .cyan (opcode operator mode) ++ " " ++ ty.print p ++ " " ++ lhs.print p ++ ", " ++ rhs.print p
  | .compare predicate ty lhs rhs =>
    p.tint .cyan (if predicate.isFloat then "fcmp" else "icmp") ++ " " ++ predicate.text ++ " " ++ ty.print p ++ " " ++
      lhs.print p ++ ", " ++ rhs.print p
  | .bitcast value target => p.tint .cyan "bitcast" ++ " " ++ value.print p ++ " to " ++ target.print p
  | .convert conversion value target =>
    p.tint .cyan conversion.text ++ " " ++ value.print p ++ " to " ++ target.print p
  | .sizeOf ty =>
    p.tint .cyan "ptrtoint" ++ " (" ++ ty.pointerTo.print p ++ " " ++ p.tint .cyan "getelementptr" ++ " (" ++
      ty.print p ++ ", " ++ ty.pointerTo.print p ++ " null, i32 1) to i64)"
  | .call returnType callee arguments => printCall p returnType callee arguments
  | .phi ty sources =>
    p.tint .brightGreen "phi" ++ " " ++ ty.print p ++ " " ++ commaSeparated (sources.map fun (label, operand) =>
      "[ " ++ operand.print p ++ ", " ++ printLocal p label ++ " ]")

def Instruction.print (p : Palette) : Instruction → String
  | .label id => p.tint .brightRed (toString id ++ ":")
  | .set destination value => printLocal p destination ++ " " ++ p.tint .white "=" ++ " " ++ value.print p
  | .store address value => p.tint .cyan "store" ++ " " ++ value.print p ++ ", " ++ address.print p
  | .call returnType callee arguments => printCall p returnType callee arguments
  | .branch condition positive negative =>
    p.tint .cyan "br" ++ " " ++ condition.print p ++ ", label " ++ printLocal p positive ++ ", label " ++
      printLocal p negative
  | .jump target => p.tint .cyan "br" ++ " label " ++ printLocal p target
  | .ret (some value) => p.tint .cyan "ret" ++ " " ++ value.print p
  | .ret none => p.tint .cyan "ret" ++ " void"

def StructDeclaration.print (p : Palette) (s : StructDeclaration) : String :=
  p.tint .green ("%" ++ s.name) ++ " " ++ p.tint .white "=" ++ " " ++ p.tint .magenta "type" ++ " \x7b " ++
    commaSeparated (s.fields.map (Ty.print p)) ++ " \x7d"

/-- A block: its label and its instructions, a line each. -/
def Block.print (p : Palette) (b : Block) : String :=
  (Instruction.label b.label).print p ++ "\n" ++
    String.join (b.instructions.map fun i => "    " ++ i.print p ++ "\n")

def Procedure.print (p : Palette) (f : Procedure) : String :=
  let name := p.tint .blue ("@" ++ f.name)
  if f.external then
    p.tint .magenta "declare" ++ " " ++ f.returnType.print p ++ " " ++ name ++ "(" ++
      commaSeparated (f.parameters.map fun a => a.ty.print p) ++ ")\n"
  else
    p.tint .magenta "define" ++ " " ++ f.returnType.print p ++ " " ++ name ++ "(" ++
      printArguments p f.parameters ++ ") \x7b\n" ++ String.join (f.blocks.map (Block.print p)) ++ "\x7d\n"

/-- A module: its structures, then each procedure behind an empty line. -/
def Module.print (p : Palette) (m : Module) : String :=
  String.join (m.structures.map fun s => s.print p ++ "\n") ++
    String.join (m.procedures.map fun f => "\n" ++ f.print p)

/-- The text of something for a file. -/
def plain (print : Palette → String) : String := Terminal.strip (print .uncolored)

end Lowering.IR
