import Lowering.IR.Basic
/-!
# The built-in types and the conversions between them
-/

namespace Lowering

inductive Primitive where
  | i8 | i16 | i32 | i64
  | u8 | u16 | u32 | u64
  | f32 | f64
  | bool | void
  /-- A byte of text, which only ever occurs behind a pointer. -/
  | string
deriving DecidableEq, Repr

/-- The kinds of built-in types. -/
inductive Category where
  | int | float | bool | void | string
deriving DecidableEq, Repr

namespace Primitive

def all : List Primitive := [i8, i16, i32, i64, u8, u16, u32, u64, f32, f64, bool, void, string]

def name : Primitive → String
  | i8 => "i8"
  | i16 => "i16"
  | i32 => "i32"
  | i64 => "i64"
  | u8 => "u8"
  | u16 => "u16"
  | u32 => "u32"
  | u64 => "u64"
  | f32 => "f32"
  | f64 => "f64"
  | bool => "bool"
  | void => "void"
  | string => "string"

def ofName? (name : String) : Option Primitive := all.find? fun p => p.name == name

def category : Primitive → Category
  | i8 | i16 | i32 | i64 | u8 | u16 | u32 | u64 => .int
  | f32 | f64 => .float
  | bool => .bool
  | void => .void
  | string => .string

/-- Whether a type has negative values. -/
def isSigned : Primitive → Bool
  | i8 | i16 | i32 | i64 | f32 | f64 => true
  | _ => false

/-- Whether a type is one of numbers. -/
def isNumeric (p : Primitive) : Bool :=
  match p.category with
  | .int | .float => true
  | _ => false

def bits : Primitive → Nat
  | i8 | u8 | string => 8
  | i16 | u16 => 16
  | i32 | u32 | f32 => 32
  | i64 | u64 | f64 => 64
  | bool => 1
  | void => 0

def size (p : Primitive) : Nat := (p.bits + 7) / 8

def irBase (p : Primitive) : IR.Base :=
  match p.category with
  | .int | .bool | .string => .int p.bits
  | .float => .float p.bits
  | .void => .void

def irType (p : Primitive) : IR.Ty := ⟨p.irBase, 0⟩

/-- How arithmetic on a type understands its operands. -/
def mode (p : Primitive) : IR.NumericMode :=
  match p.category with
  | .float => .float
  | _ => if p.isSigned then .signed else .unsigned

/-- The conversion that takes values of `source` to `target`. There is none between types that share a
representation. -/
def conversion (source target : Primitive) : Option IR.Conversion :=
  match source.category, target.category with
  | .int, .int =>
    if source.bits < target.bits then some (if source.isSigned then .sext else .zext)
    else if target.bits < source.bits then some .trunc
    else none
  | .float, .float =>
    if source.bits < target.bits then some .fpext
    else if target.bits < source.bits then some .fptrunc
    else none
  | .int, .float => some (if source.isSigned then .sitofp else .uitofp)
  | .float, .int => some (if target.isSigned then .fptosi else .fptoui)
  | _, _ => none

end Primitive

end Lowering
