import Lowering.Source.Span
import Lowering.Text.Terminal
/-!
# Source texts: positions, lines and highlighted spans

Offsets count the bytes of the text in its usual encoding, lines and columns count from one, and columns count
characters. An offset inside a character belongs to that character, and one beyond the text to its end.
-/

namespace Lowering

/-- Where a source text comes from. -/
inductive Origin where
  | memory
  | file (path : String)
deriving DecidableEq, Repr

def Origin.text : Origin → String
  | .memory => "<memory>"
  | .file path => path

structure SourceFile where
  contents : String
  origin : Origin := .memory
deriving DecidableEq, Repr

/-- A line and a column, both counted from one. -/
structure Position where
  line : Nat
  column : Nat
deriving DecidableEq, Repr

namespace SourceFile

def advance (p : Position) (c : Char) : Position :=
  if c = '\n' then ⟨p.line + 1, 1⟩ else ⟨p.line, p.column + 1⟩

/-- The position `offset` bytes behind `p`, where `cs` begins. -/
def walk (p : Position) : List Char → Nat → Position
  | [], _ => p
  | c :: cs, offset => if offset < c.utf8Size then p else walk (advance p c) cs (offset - c.utf8Size)

def positionOf (f : SourceFile) (offset : Nat) : Position :=
  walk ⟨1, 1⟩ f.contents.toList offset

/-- Cuts characters after so many bytes, unless that would cut a character. -/
def cut? : Nat → List Char → Option (List Char × List Char)
  | 0, cs => some ([], cs)
  | _ + 1, [] => none
  | bytes + 1, c :: cs =>
    if bytes + 1 < c.utf8Size then none
    else (cut? (bytes + 1 - c.utf8Size) cs).map fun (front, back) => (c :: front, back)

/-- The text of a span; empty when the span is not a range of whole characters of the text. -/
def textOf (f : SourceFile) (s : Span) : String :=
  if s.stop < s.start then ""
  else
    match cut? s.start.toNat f.contents.toList with
    | none => ""
    | some (_, back) =>
      match cut? (s.stop.toNat - s.start.toNat) back with
      | none => ""
      | some (front, _) => String.ofList front

/-- The lines of a text, without their ends. `line` holds the characters of the current line, last first. A carriage
return in front of a line feed belongs to the end of the line, and an end of line at the end of the text begins no
further line. -/
def linesFrom (line : List Char) : List Char → List (List Char)
  | [] => if line.isEmpty then [] else [line.reverse]
  | '\n' :: cs =>
    let line := match line with
      | '\r' :: line => line
      | line => line
    line.reverse :: linesFrom [] cs
  | c :: cs => linesFrom (c :: line) cs

def lines (text : String) : List (List Char) := linesFrom [] text.toList

/-- The position of the start of a span, with the origin in front. -/
def locate (f : SourceFile) (s : Span) : String :=
  let p := f.positionOf s.start.toNat
  f.origin.text ++ ":" ++ toString p.line ++ ":" ++ toString p.column

/-- The line in which a span starts with the first line of the span marked below it. -/
def highlight (f : SourceFile) (palette : Terminal.Palette) (s : Span) : String :=
  let p := f.positionOf s.start.toNat
  match (lines f.contents)[p.line - 1]? with
  | none => ""
  | some line =>
    let width := match lines (f.textOf s) with
      | [] => 1
      | first :: _ => max first.length 1
    let number := toString p.line
    let blanks (n : Nat) : String := String.ofList (List.replicate n ' ')
    palette.tint .blue (number ++ " |") ++ " " ++ String.ofList line ++ "\n" ++
      palette.tint .blue (blanks number.length ++ " |") ++ " " ++ blanks (p.column - 1) ++
      palette.tint .red (String.ofList (List.replicate width '^'))

end SourceFile

end Lowering
