import Lowering.Diagnostic.Basic
import Lowering.Source.File
/-!
# Collecting problems and showing them

A type that is written with bad arguments fails twice, when its instances are made and again when it is resolved. What
the first pass finds is remembered, and the same problem at the same place is not reported again.
-/

namespace Lowering

/-- The problems reported so far, in order. -/
structure Reporter where
  /-- Places and messages of remembered problems. -/
  remembered : List (Span × String) := []
  collected : List Diagnostic := []
deriving DecidableEq, Repr

namespace Reporter

def emit (r : Reporter) (d : Diagnostic) : Reporter := { r with collected := r.collected ++ [d] }

def knows (r : Reporter) (d : Diagnostic) : Bool := r.remembered.contains (d.span, d.message)

def throw (r : Reporter) (d : Diagnostic) : Reporter := if r.knows d then r else r.emit d

def remember (r : Reporter) (d : Diagnostic) : Reporter :=
  if r.knows d then r else { r.emit d with remembered := (d.span, d.message) :: r.remembered }

def throwAll (r : Reporter) (ds : List Diagnostic) : Reporter := ds.foldl throw r

def errors (r : Reporter) : List Diagnostic := r.collected.filter Diagnostic.isError

def warnings (r : Reporter) : List Diagnostic := r.collected.filter fun d => !d.isError

def hasErrors (r : Reporter) : Bool := r.collected.any Diagnostic.isError

/-- Whether the compiler has broken off. -/
def brokeOff (r : Reporter) : Bool := r.collected.any fun d => d.cause == .sizeOverflow

end Reporter

def Severity.label (palette : Terminal.Palette) : Severity → String
  | .error => palette.paint ⟨.red, true⟩ "error"
  | .warning => palette.paint ⟨.yellow, true⟩ "warning"

/-- The text of a problem, with the line it points at when there is a file. -/
def Diagnostic.render (d : Diagnostic) (palette : Terminal.Palette) (file : Option SourceFile) : String :=
  let origin :=
    match d.origin with
    | some origin => palette.tint .blue "backtrace" ++ ": " ++ palette.tint .white origin ++ "\n"
    | none => ""
  let message := origin ++ d.severity.label palette ++ ": " ++ d.message
  match file with
  | some file => message ++ " (at " ++ file.locate d.span ++ ")\n" ++ file.highlight palette d.span
  | none => message ++ s!" (at bytes {d.span.start}..{d.span.stop})"

end Lowering
