import Lowering.Json.Basic
/-!
# What could be read of a JSON text

Readers of a text go from left to right and stop at the first problem, whichever kind it is. To let them do so
without looking at characters, scanning a text never fails: it gives a `Doc`, a tree of the values that are there,
with a `Break` at the place where the text stops being JSON. A reader that walks the tree in order meets the break
where a reader of characters would meet the bad character.

Reading a value (`Doc.value`) is stricter than skipping it (`Doc.skip`): a number may be out of range, a string may
name half a character, and values may nest too deeply. None of that matters in a value that nobody reads.
-/

namespace Lowering.Json

/-- Where the text stops being JSON: the fault met when the value is read, and when it is skipped. -/
structure Break where
  read : Fault
  skip : Fault
deriving DecidableEq, Repr

def Break.both (f : Fault) : Break := ⟨f, f⟩

/-- A JSON text, as far as it goes. -/
inductive Doc where
  | null
  | bool (b : Bool)
  /-- A number; none when it is out of range. -/
  | number (n : Option Number)
  /-- A string, or the fault of reading it. -/
  | string (s : Except Fault String)
  /-- Items, and the break met where a comma or the closing bracket was due. A break behind a comma is an item. -/
  | array (items : List Doc) (stop : Option Break)
  /-- Members, and the break met where a comma, a key or the closing brace was due. -/
  | object (members : List (Except Fault String × Doc)) (stop : Option Break)
  /-- An array or object that lies too deep to be read. -/
  | deep (inner : Doc)
  /-- No value. -/
  | broken (b : Break)

namespace Doc

instance : Inhabited Doc := ⟨.null⟩

mutual

/-- The value of a document, or the first fault of reading it. -/
def value : Doc → Except Fault Json
  | .null => .ok .null
  | .bool b => .ok (.bool b)
  | .number none => .error .malformed
  | .number (some n) => .ok (.number n)
  | .string s => s.map .string
  | .array items stop => do
    let items ← values items
    match stop with
    | some b => .error b.read
    | none => .ok (.array items)
  | .object members stop => do
    let members ← memberValues members
    match stop with
    | some b => .error b.read
    | none => .ok (.object members)
  | .deep _ => .error .malformed
  | .broken b => .error b.read

def values : List Doc → Except Fault (List Json)
  | [] => .ok []
  | item :: rest => do
    let item ← item.value
    let rest ← values rest
    .ok (item :: rest)

def memberValues : List (Except Fault String × Doc) → Except Fault (List (String × Json))
  | [] => .ok []
  | (key, item) :: rest => do
    let key ← key
    let item ← item.value
    let rest ← memberValues rest
    .ok ((key, item) :: rest)

end

mutual

/-- The first fault met when a document is passed over. -/
def skip : Doc → Except Fault Unit
  | .array items stop => do
    skipAll items
    match stop with
    | some b => .error b.skip
    | none => .ok ()
  | .object members stop => do
    skipMembers members
    match stop with
    | some b => .error b.skip
    | none => .ok ()
  | .deep inner => inner.skip
  | .broken b => .error b.skip
  | _ => .ok ()

def skipAll : List Doc → Except Fault Unit
  | [] => .ok ()
  | item :: rest => do
    item.skip
    skipAll rest

def skipMembers : List (Except Fault String × Doc) → Except Fault Unit
  | [] => .ok ()
  | (_, item) :: rest => do
    item.skip
    skipMembers rest

end

mutual

def ofJson : Json → Doc
  | .null => .null
  | .bool b => .bool b
  | .number n => .number (some n)
  | .string s => .string (.ok s)
  | .array items => .array (ofItems items) none
  | .object members => .object (ofMembers members) none

def ofItems : List Json → List Doc
  | [] => []
  | item :: rest => ofJson item :: ofItems rest

def ofMembers : List (String × Json) → List (Except Fault String × Doc)
  | [] => []
  | (key, item) :: rest => (.ok key, ofJson item) :: ofMembers rest

end

end Doc

end Lowering.Json
