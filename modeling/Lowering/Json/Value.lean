import Lowering.Json.Basic
/-!
# Taking a JSON value apart where the reason of a failure does not matter

A member that is null counts as absent, and of two members with one key the last counts.
-/

namespace Lowering.Json

def member? (key : String) : Json → Option Json
  | .object members =>
    match members.reverse.lookup key with
    | some .null => none
    | found => found
  | _ => none

def nat? : Json → Option Nat
  | .number (.natural n) => some n.toNat
  | _ => none

/-- A number of 32 bits; of a larger one the low bits count. -/
def nat32? (j : Json) : Option Nat := (· % 0x100000000) <$> j.nat?

def int? : Json → Option Int
  | .number (.natural n) => some n.toNat
  | .number (.negative n _) => some n.toInt
  | _ => none

def bool? : Json → Option Bool
  | .bool b => some b
  | _ => none

def string? : Json → Option String
  | .string s => some s
  | _ => none

def list? {α : Type} (read : Json → Option α) : Json → Option (List α)
  | .array items => items.mapM read
  | _ => none

def word? {α : Type} (words : List (String × α)) (j : Json) : Option α := j.string?.bind fun s => words.lookup s

def get? {α : Type} (j : Json) (key : String) (read : Json → Option α) : Option α := (j.member? key).bind read

def getOption? {α : Type} (j : Json) (key : String) (read : Json → Option α) : Option (Option α) :=
  match j.member? key with
  | some value => some <$> read value
  | none => some none

def getD? {α : Type} (j : Json) (key : String) (absent : α) (read : Json → Option α) : Option α :=
  (·.getD absent) <$> j.getOption? key read

end Lowering.Json
