import Lowering.Binary64.Text
/-!
# JSON values, the ways in which reading one can fail, and the writer

Numbers keep the distinction that readers of integers rely on: `1` is a natural number, `-1` an integer and `1.0` a
double precision number.
-/

namespace Lowering

namespace Json

/-- Why a text could not be read. -/
inductive Fault where
  /-- The text ends too early. -/
  | cutOff
  /-- The text is not JSON, or nests too deeply, or goes on after its value. -/
  | malformed
  /-- The text is JSON, but not of the wanted shape. -/
  | misfit
deriving DecidableEq, Repr

/-- A number as a reader receives it. -/
inductive Number where
  /-- A number from 0 to 2^64 - 1 written without point and exponent. -/
  | natural (n : UInt64)
  /-- A number from -2^63 to -1 written without point and exponent. -/
  | negative (n : Int64) (sign : n < 0)
  /-- Any other number. -/
  | float (x : Binary64)
deriving DecidableEq, Repr

def Number.ofInt64 (n : Int64) : Number :=
  if sign : n < 0 then .negative n sign else .natural n.toUInt64

end Json

/-- A JSON value. The members of an object keep their order. -/
inductive Json where
  | null
  | bool (b : Bool)
  | number (n : Json.Number)
  | string (s : String)
  | array (items : List Json)
  | object (members : List (String × Json))

namespace Json

instance : Inhabited Json := ⟨.null⟩

/-! ### Building -/

def ofUInt64 (n : UInt64) : Json := .number (.natural n)

def ofInt64 (n : Int64) : Json := .number (.ofInt64 n)

def ofOption {α : Type} (f : α → Json) : Option α → Json
  | none => .null
  | some a => f a

def ofList {α : Type} (f : α → Json) (items : List α) : Json := .array (items.map f)

/-! ### Writing -/

def hexByte (n : Nat) : List Char :=
  [Nat.digitChar (n / 16 % 16), Nat.digitChar (n % 16)]

def writeChar (c : Char) : List Char :=
  match c with
  | '"' => ['\\', '"']
  | '\\' => ['\\', '\\']
  | '\x08' => ['\\', 'b']
  | '\x0c' => ['\\', 'f']
  | '\n' => ['\\', 'n']
  | '\r' => ['\\', 'r']
  | '\t' => ['\\', 't']
  | c => if c.toNat < 0x20 then ['\\', 'u', '0', '0'] ++ hexByte c.toNat else [c]

def writeString (s : String) : String :=
  String.ofList ('"' :: s.toList.flatMap writeChar ++ ['"'])

def Number.write : Number → String
  | .natural n => toString n
  | .negative n _ => toString n
  | .float x => if x.isNaN || x.isInfinite then "null" else x.text

mutual

/-- The text of a value, without blanks. -/
def write : Json → String
  | .null => "null"
  | .bool b => if b then "true" else "false"
  | .number n => n.write
  | .string s => writeString s
  | .array items => "[" ++ writeItems items ++ "]"
  | .object members => "\x7b" ++ writeMembers members ++ "\x7d"

def writeItems : List Json → String
  | [] => ""
  | [item] => item.write
  | item :: rest => item.write ++ "," ++ writeItems rest

def writeMembers : List (String × Json) → String
  | [] => ""
  | [(key, value)] => writeString key ++ ":" ++ value.write
  | (key, value) :: rest => writeString key ++ ":" ++ value.write ++ "," ++ writeMembers rest

end

end Json

end Lowering
