/-!
# Names numbered in the order in which they were first met
-/

namespace Lowering

/-- Distinct names; the number of a name is its place. -/
structure SymbolTable where
  names : List String := []
deriving DecidableEq, Repr

namespace SymbolTable

def indexOf? (t : SymbolTable) (name : String) : Option Nat := t.names.idxOf? name

def get? (t : SymbolTable) (index : Nat) : Option String := t.names[index]?

def insert (t : SymbolTable) (name : String) : SymbolTable × Nat :=
  match t.indexOf? name with
  | some index => (t, index)
  | none => (⟨t.names ++ [name]⟩, t.names.length)

/-- The table of names that were met one after the other. -/
def ofNames (names : List String) : SymbolTable := names.foldl (fun t name => (t.insert name).1) {}

end SymbolTable

end Lowering
