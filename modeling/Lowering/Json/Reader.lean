import Lowering.Json.Doc
/-!
# Readers of documents: scalars, lists, records and tagged alternatives

The fault of a reader is the first one met going through the text from left to right. For records that order is the
order of the members in the text, not of the fields: `Record` therefore notes at which member each fault was met, and
the earliest one counts. A record may also be written as an array of its fields; fields at its end may then be absent
if they can be absent at all.

A tagged alternative is judged only once all of it has been read, its tag excepted. What was read that way is
`settled`: no break is left in it.

Readers also keep the names they meet, in the order of the text (`Reading.names`). A name that was met before a fault
stays met. The value or fault of a reader never depends on them: `Reading.result` goes through sequences and records
unchanged (`Reading.result_bind`, `Record.result_conclude`).
-/

namespace Lowering.Json

/-- The surroundings of a value that is being read. -/
structure Mode where
  /-- The fault of an array with more items than the record has fields. -/
  surplus : Fault
  /-- A tag may be given by the number of its alternative. -/
  numbered : Bool
deriving DecidableEq, Repr

def Mode.text : Mode := ⟨.malformed, false⟩

def Mode.value : Mode := ⟨.misfit, false⟩

/-- A value inside a tagged alternative. -/
def Mode.settled : Mode := ⟨.misfit, true⟩

/-! ### Results -/

/-- What came of reading: the value or the first fault, and the names that were met up to there, in order. -/
structure Reading (α : Type) where
  result : Except Fault α
  names : List String := []

namespace Reading

def fault {α : Type} (f : Fault) : Reading α := ⟨.error f, []⟩

def met (name : String) : Reading Unit := ⟨.ok (), [name]⟩

/-- Reading on behind a value. -/
def andThen {α β : Type} (x : Reading α) (next : α → Reading β) : Reading β :=
  match x.result with
  | .error f => ⟨.error f, x.names⟩
  | .ok a =>
    let y := next a
    ⟨y.result, x.names ++ y.names⟩

instance : Monad Reading where
  pure a := ⟨.ok a, []⟩
  bind := andThen

instance : MonadLift (Except Fault) Reading := ⟨fun result => ⟨result, []⟩⟩

@[simp] theorem result_pure {α : Type} (a : α) : (pure a : Reading α).result = .ok a := rfl

@[simp] theorem result_bind {α β : Type} (x : Reading α) (next : α → Reading β) :
    (x >>= next).result = x.result >>= fun a => (next a).result := by
  obtain ⟨result, names⟩ := x
  cases result <;> rfl

@[simp] theorem result_map {α β : Type} (f : α → β) (x : Reading α) : (f <$> x).result = f <$> x.result := by
  obtain ⟨result, names⟩ := x
  cases result <;> rfl

end Reading

/-- A reader that meets no names. -/
def nameless {α : Type} (read : Doc → Except Fault α) (doc : Doc) : Reading α := ⟨read doc, []⟩

/-! ### Scalars and lists -/

/-- The fault of a value of another kind than the wanted one. Scalars are read before they are refused. -/
def Doc.mismatch : Doc → Fault
  | .number none => .malformed
  | .string (.error f) => f
  | .broken b => b.read
  | _ => .misfit

/-- A number from 0 to 2^64 - 1. -/
def readUInt64 : Doc → Except Fault UInt64
  | .number (some (.natural n)) => .ok n
  | doc => .error doc.mismatch

/-- A number from -2^63 to 2^63 - 1. -/
def readInt64 : Doc → Except Fault Int64
  | .number (some (.natural n)) => if n < 0x8000000000000000 then .ok n.toInt64 else .error .misfit
  | .number (some (.negative n _)) => .ok n
  | doc => .error doc.mismatch

/-- Any number, in double precision. -/
def readFloat : Doc → Except Fault Binary64
  | .number (some (.natural n)) => .ok (.ofRatio false n.toNat 1 0)
  | .number (some (.negative n _)) => .ok (.ofRatio true n.toInt.natAbs 1 0)
  | .number (some (.float x)) => .ok x
  | doc => .error doc.mismatch

def readBool : Doc → Except Fault Bool
  | .bool b => .ok b
  | doc => .error doc.mismatch

def readString : Doc → Except Fault String
  | .string s => s
  | doc => .error doc.mismatch

def readName (doc : Doc) : Reading String := do
  let name ← (readString doc : Except Fault String)
  Reading.met name
  return name

def readOption {α : Type} (read : Doc → Reading α) : Doc → Reading (Option α)
  | .null => return none
  | doc => some <$> read doc

def readItems {α : Type} (read : Doc → Reading α) : List Doc → Reading (List α)
  | [] => return []
  | item :: rest => do
    let a ← read item
    let as ← readItems read rest
    return a :: as

def readList {α : Type} (read : Doc → Reading α) : Doc → Reading (List α)
  | .array items stop => do
    let as ← readItems read items
    match stop with
    | some b => .fault b.read
    | none => return as
  | .deep _ => .fault .malformed
  | doc => .fault doc.mismatch

/-! ### Records -/

/-- A fault and the place of the member at which it was met. -/
abbrev Placed := Nat × Fault

/-- The member of a key, with its place. -/
abbrev Members := String → Option (Nat × Doc)

/-- What the members of a record give, and the names met in each of them by its place. -/
structure Fields (α : Type) where
  result : Except Placed α
  names : List (Nat × List String) := []

/-- A reader of the members of a record: the keys in the order of the fields, and what the members give. -/
structure Record (α : Type) where
  keys : List String
  read : Members → Fields α

namespace Record

/-- The place of what is known only at the end of a record. Texts are shorter. -/
def atEnd : Nat := 0x10000000000000000

def earlier (a b : Placed) : Placed := if b.1 < a.1 then b else a

/-- What two parts of a record give; of two faults the earlier one counts. -/
def both {α β : Type} : Except Placed (α → β) → Except Placed α → Except Placed β
  | .ok f, .ok a => .ok (f a)
  | .error e, .ok _ => .error e
  | .ok _, .error e => .error e
  | .error e, .error e' => .error (earlier e e')

def combine {α β : Type} (f : Record (α → β)) (r : Record α) : Record β :=
  ⟨f.keys ++ r.keys, fun members =>
    let x := f.read members
    let y := r.read members
    ⟨both x.result y.result, x.names ++ y.names⟩⟩

instance : Applicative Record where
  pure a := ⟨[], fun _ => ⟨.ok a, []⟩⟩
  seq f r := combine f (r ())

/-- What a reader makes of one member. -/
def readAt {α : Type} (read : Doc → Reading α) (place : Nat) (doc : Doc) : Fields α :=
  let r := read doc
  ⟨r.result.mapError fun f => (place, f), [(place, r.names)]⟩

def required {α : Type} (key : String) (read : Doc → Reading α) : Record α :=
  ⟨[key], fun members =>
    match members key with
    | none => ⟨.error (atEnd, .misfit), []⟩
    | some (place, doc) => readAt read place doc⟩

def optional {α : Type} (key : String) (absent : α) (read : Doc → Reading α) : Record α :=
  ⟨[key], fun members =>
    match members key with
    | none => ⟨.ok absent, []⟩
    | some (place, doc) => readAt read place doc⟩

/-- The first member with a key, its place counted from `place`. -/
def lookup (key : String) : Nat → List (Except Fault String × Doc) → Option (Nat × Doc)
  | _, [] => none
  | place, (.ok name, doc) :: rest =>
    if name = key then some (place, doc) else lookup key (place + 1) rest
  | place, (.error _, _) :: rest => lookup key (place + 1) rest

/-- The first fault of the members themselves: a key that cannot be read, a key given twice, a member without a field
that cannot be skipped, or the break behind them. -/
def disorder (keys : List String) : List String → Nat → List (Except Fault String × Doc) → Option Break →
    Option Placed
  | _, place, [], stop => stop.map fun b => (place, b.read)
  | seen, place, (key, doc) :: rest, stop =>
    match key with
    | .error f => some (place, f)
    | .ok name =>
      if keys.contains name then
        if seen.contains name then some (place, .misfit)
        else disorder keys (name :: seen) (place + 1) rest stop
      else
        match doc.skip with
        | .error f => some (place, f)
        | .ok _ => disorder keys seen (place + 1) rest stop

def itemFor (key : String) : Nat → List String → List Doc → Option (Nat × Doc)
  | place, name :: names, item :: items =>
    if name = key then some (place, item) else itemFor key (place + 1) names items
  | _, _, _ => none

/-- The result of reading members, unless they have an earlier fault of their own. -/
def settle {α : Type} (result : Except Placed α) : Option Placed → Except Placed α
  | none => result
  | some e =>
    match result with
    | .ok _ => .error e
    | .error e' => .error (earlier e e')

/-- The names met in the first members, in their order. -/
def namesIn (names : List (Nat × List String)) (count : Nat) : List String :=
  (List.range count).flatMap fun place => (names.lookup place).getD []

/-- What came of reading a record with a number of members: members behind a fault are not met any more. -/
def conclude {α : Type} (count : Nat) (fields : Fields α) (own : Option Placed) : Reading α :=
  match settle fields.result own with
  | .ok a => ⟨.ok a, namesIn fields.names count⟩
  | .error (place, f) => ⟨.error f, namesIn fields.names (min count (place + 1))⟩

/-- A record, written as an object or as an array. -/
def run {α : Type} (r : Record α) (mode : Mode) : Doc → Reading α
  | .object members stop =>
    conclude members.length (r.read fun key => lookup key 0 members) (disorder r.keys [] 0 members stop)
  | .array items stop =>
    let surplus :=
      if r.keys.length < items.length then some (r.keys.length, mode.surplus)
      else stop.map fun b => (items.length, b.read)
    conclude items.length (r.read fun key => itemFor key 0 r.keys items) surplus
  | .deep _ => .fault .malformed
  | doc => .fault doc.mismatch

theorem result_conclude {α : Type} (count : Nat) (fields : Fields α) (own : Option Placed) :
    (conclude count fields own).result = (settle fields.result own).mapError Prod.snd := by
  unfold conclude
  cases settle fields.result own <;> rfl

end Record

/-! ### Tagged alternatives -/

def tagKey : String := "type"

/-- The number of the alternative that a tag names. -/
def readTag (mode : Mode) (names : List String) : Doc → Except Fault Nat
  | .string (.ok name) =>
    match names.idxOf? name with
    | some index => .ok index
    | none => .error .misfit
  | .number (some (.natural n)) =>
    if mode.numbered && n.toNat < names.length then .ok n.toNat else .error .misfit
  | doc => .error doc.mismatch

/-- Splits the tag from the other members, which have to be readable. -/
def splitTag (mode : Mode) (names : List String) : Option Nat → List (Except Fault String × Doc) →
    Except Fault (Option Nat × List (Except Fault String × Doc))
  | tag, [] => .ok (tag, [])
  | tag, (key, doc) :: rest => do
    let name ← key
    if name = tagKey then
      if tag.isSome then throw .misfit
      let index ← readTag mode names doc
      splitTag mode names (some index) rest
    else
      let _ ← doc.value
      let (tag, others) ← splitTag mode names tag rest
      return (tag, (key, doc) :: others)

/-- The number of the alternative and the rest of the value. -/
def readTagged (mode : Mode) (names : List String) : Doc → Except Fault (Nat × Doc)
  | .object members stop => do
    let (tag, others) ← splitTag mode names none members
    match stop, tag with
    | some b, _ => throw b.read
    | none, none => throw .misfit
    | none, some index => return (index, .object others none)
  | .array [] stop => .error (match stop with
    | some b => b.read
    | none => .misfit)
  | .array (item :: items) stop => do
    let index ← readTag mode names item
    let _ ← Doc.values items
    match stop with
    | some b => throw b.read
    | none => return (index, .array items none)
  | .deep _ => .error .malformed
  | doc => .error doc.mismatch

end Lowering.Json
