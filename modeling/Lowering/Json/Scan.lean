import Lowering.Json.Doc
import Lowering.Json.Numeral
/-!
# From the characters of a JSON text to a `Doc`

Every scanner takes the characters that are left and gives what it found together with the characters behind it,
or no such characters when it met a break. Each round of a scanner takes at least one character away, so the length of
the text bounds the rounds.
-/

namespace Lowering.Json

/-- The characters behind what was scanned, or none behind a break. -/
abbrev Rest := Option (List Char)

/-- How many levels of arrays and objects can be read. -/
def nestingLimit : Nat := 128

/-- Whether a character may stand between tokens. -/
def isBlank (c : Char) : Bool :=
  c = ' ' || c = '\n' || c = '\t' || c = '\r'

def dropBlanks (cs : List Char) : List Char := cs.dropWhile isBlank

/-! ### Words -/

/-- Takes the characters of `word`. -/
def scanWord : List Char → List Char → Except Fault (List Char)
  | [], cs => .ok cs
  | _ :: _, [] => .error .cutOff
  | w :: word, c :: cs => if w = c then scanWord word cs else .error .malformed

def scanLiteral (doc : Doc) (word : List Char) (cs : List Char) : Doc × Rest :=
  match scanWord word cs with
  | .ok rest => (doc, some rest)
  | .error f => (.broken (.both f), none)

/-! ### Numbers -/

def digitValue (c : Char) : Nat := c.toNat - '0'.toNat

def scanDigits (cs : List Char) : List Nat × List Char :=
  ((cs.takeWhile Char.isDigit).map digitValue, cs.dropWhile Char.isDigit)

/-- The break where a digit is due: a number cut off by the end of the text. -/
def digitDue : List Char → Break
  | [] => ⟨.cutOff, .malformed⟩
  | _ => .both .malformed

/-- Takes the digits before the point. Only zero begins with a zero. -/
def scanWhole : List Char → Except Break (List Nat × List Char)
  | [] => .error (digitDue [])
  | '0' :: rest =>
    match rest with
    | c :: _ => if c.isDigit then .error (.both .malformed) else .ok ([0], rest)
    | [] => .ok ([0], rest)
  | c :: rest =>
    if c.isDigit then .ok (scanDigits (c :: rest)) else .error (digitDue (c :: rest))

/-- Takes a point and the digits behind it, if there is a point. -/
def scanFraction : List Char → Except Break (Option (List Nat) × List Char)
  | '.' :: rest =>
    match scanDigits rest with
    | ([], rest) => .error (digitDue rest)
    | (digits, rest) => .ok (some digits, rest)
  | cs => .ok (none, cs)

/-- Takes the sign of an exponent, if there is one, and says whether it is a minus sign. -/
def scanSign : List Char → Bool × List Char
  | '+' :: rest => (false, rest)
  | '-' :: rest => (true, rest)
  | cs => (false, cs)

def scanExponent : List Char → Except Break (Option (Bool × List Nat) × List Char)
  | [] => .ok (none, [])
  | c :: rest =>
    if c = 'e' || c = 'E' then
      let (down, rest) := scanSign rest
      match scanDigits rest with
      | ([], rest) => .error (digitDue rest)
      | (digits, rest) => .ok (some (down, digits), rest)
    else .ok (none, c :: rest)

/-- Takes a number without its minus sign. -/
def scanNumeral (minus : Bool) (cs : List Char) : Except Break (Numeral × List Char) := do
  let (whole, cs) ← scanWhole cs
  let (fraction, cs) ← scanFraction cs
  let (exponent, cs) ← scanExponent cs
  return (⟨minus, whole, fraction, exponent⟩, cs)

def scanNumber (minus : Bool) (cs : List Char) : Doc × Rest :=
  match scanNumeral minus cs with
  | .ok (n, rest) => (.number n.value, some rest)
  | .error b => (.broken b, none)

/-! ### Strings -/

def hexValue? (c : Char) : Option Nat :=
  if c.isDigit then some (c.toNat - '0'.toNat)
  else if 'a' ≤ c ∧ c ≤ 'f' then some (c.toNat - 'a'.toNat + 10)
  else if 'A' ≤ c ∧ c ≤ 'F' then some (c.toNat - 'A'.toNat + 10)
  else none

/-- Takes four hexadecimal digits. A text with fewer than four bytes left is cut off. -/
def scanHex4 (cs : List Char) : Except Fault (Nat × List Char) :=
  match cs with
  | a :: b :: c :: d :: rest =>
    match hexValue? a, hexValue? b, hexValue? c, hexValue? d with
    | some a, some b, some c, some d => .ok (((a * 16 + b) * 16 + c) * 16 + d, rest)
    | _, _, _, _ => .error .malformed
  | cs => .error (if cs.foldl (fun size c => size + c.utf8Size) 0 < 4 then .cutOff else .malformed)

/-- Takes the second half of a character that is named by two units, and gives the unit. -/
def scanLowUnit (cs : List Char) : Except Fault (Nat × List Char) :=
  match cs with
  | [] => .error .cutOff
  | ['\\'] => .error .cutOff
  | '\\' :: 'u' :: rest => do
    let (low, rest) ← scanHex4 rest
    if 0xdc00 ≤ low ∧ low ≤ 0xdfff then .ok (low, rest) else .error .malformed
  | _ => .error .malformed

/-- The character of an escape of two characters. -/
def escaped? (c : Char) : Option Char :=
  match c with
  | '"' => some '"'
  | '\\' => some '\\'
  | '/' => some '/'
  | 'b' => some '\x08'
  | 'f' => some '\x0c'
  | 'n' => some '\n'
  | 'r' => some '\r'
  | 't' => some '\t'
  | _ => none

/-- Takes a string behind its opening quote. `taken` holds the characters so far, last first, and `bad` the fault of a
half character met on the way, behind which the string is only looked through to its end. -/
def scanString : Nat → List Char → List Char → Option Fault → Except Break (Except Fault String × List Char)
  | 0, _, _, bad => .error ⟨bad.getD .cutOff, .cutOff⟩
  | rounds + 1, cs, taken, bad =>
    let stop (f : Fault) : Except Break (Except Fault String × List Char) := .error ⟨bad.getD f, f⟩
    match cs with
    | [] => stop .cutOff
    | '"' :: rest =>
      match bad with
      | none => .ok (.ok (String.ofList taken.reverse), rest)
      | some f => .ok (.error f, rest)
    | ['\\'] => stop .cutOff
    | '\\' :: 'u' :: rest =>
      match scanHex4 rest with
      | .error f => stop f
      | .ok (unit, rest) =>
        if bad.isSome then scanString rounds rest taken bad
        else if 0xd800 ≤ unit ∧ unit ≤ 0xdbff then
          match scanLowUnit rest with
          | .ok (low, rest) =>
            let point := 0x10000 + (unit - 0xd800) * 0x400 + (low - 0xdc00)
            scanString rounds rest (Char.ofNat point :: taken) none
          | .error f => scanString rounds rest taken (some f)
        else if 0xdc00 ≤ unit ∧ unit ≤ 0xdfff then scanString rounds rest taken (some .malformed)
        else scanString rounds rest (Char.ofNat unit :: taken) none
    | '\\' :: c :: rest =>
      match escaped? c with
      | some c => scanString rounds rest (c :: taken) bad
      | none => stop .malformed
    | c :: rest =>
      if c.toNat < 0x20 then stop .malformed else scanString rounds rest (c :: taken) bad

/-! ### Values -/

mutual

/-- Takes a value. `level` counts the arrays and objects around it. -/
def scanValue : Nat → Nat → List Char → Doc × Rest
  | 0, _, _ => (.broken (.both .cutOff), none)
  | rounds + 1, level, cs =>
    let nest (found : Doc × Rest) : Doc × Rest :=
      if level + 1 < nestingLimit then found else (.deep found.1, found.2)
    match dropBlanks cs with
    | [] => (.broken (.both .cutOff), none)
    | 'n' :: rest => scanLiteral .null ['u', 'l', 'l'] rest
    | 't' :: rest => scanLiteral (.bool true) ['r', 'u', 'e'] rest
    | 'f' :: rest => scanLiteral (.bool false) ['a', 'l', 's', 'e'] rest
    | '"' :: rest =>
      match scanString (rest.length + 1) rest [] none with
      | .ok (s, rest) => (.string s, some rest)
      | .error b => (.broken b, none)
    | '[' :: rest =>
      let (items, stop, rest) := scanItems rounds (level + 1) true rest
      nest (.array items stop, rest)
    | '\x7b' :: rest =>
      let (members, stop, rest) := scanMembers rounds (level + 1) true rest
      nest (.object members stop, rest)
    | '-' :: rest => scanNumber true rest
    | c :: rest =>
      if c.isDigit then scanNumber false (c :: rest) else (.broken (.both .malformed), none)

/-- Takes the items of an array; `first` until the first of them. -/
def scanItems : Nat → Nat → Bool → List Char → List Doc × Option Break × Rest
  | 0, _, _, _ => ([], some (.both .cutOff), none)
  | rounds + 1, level, first, cs =>
    let item (cs : List Char) : List Doc × Option Break × Rest :=
      match scanValue rounds level cs with
      | (doc, none) => ([doc], none, none)
      | (doc, some rest) =>
        let (items, stop, rest) := scanItems rounds level false rest
        (doc :: items, stop, rest)
    match dropBlanks cs with
    | [] => ([], some (.both .cutOff), none)
    | ']' :: rest => ([], none, some rest)
    | c :: rest =>
      if first then item (c :: rest)
      else if c = ',' then
        match dropBlanks rest with
        | [] => ([.broken (.both .cutOff)], none, none)
        | ']' :: _ => ([.broken (.both .malformed)], none, none)
        | rest => item rest
      else ([], some (.both .malformed), none)

/-- Takes the members of an object; `first` until the first of them. -/
def scanMembers : Nat → Nat → Bool → List Char →
    List (Except Fault String × Doc) × Option Break × Rest
  | 0, _, _, _ => ([], some (.both .cutOff), none)
  | rounds + 1, level, first, cs =>
    let found (key : Except Fault String) (cs : List Char) :
        List (Except Fault String × Doc) × Option Break × Rest :=
      match dropBlanks cs with
      | [] => ([(key, .broken (.both .cutOff))], none, none)
      | ':' :: rest =>
        match scanValue rounds level rest with
        | (doc, none) => ([(key, doc)], none, none)
        | (doc, some rest) =>
          let (members, stop, rest) := scanMembers rounds level false rest
          ((key, doc) :: members, stop, rest)
      | _ => ([(key, .broken (.both .malformed))], none, none)
    let member (cs : List Char) : List (Except Fault String × Doc) × Option Break × Rest :=
      match cs with
      | [] => ([], some (.both .cutOff), none)
      | '"' :: rest =>
        match scanString (rest.length + 1) rest [] none with
        | .ok (key, rest) => found key rest
        | .error b => ([], some b, none)
      | _ => ([], some (.both .malformed), none)
    match dropBlanks cs with
    | [] => ([], some (.both .cutOff), none)
    | '\x7d' :: rest => ([], none, some rest)
    | c :: rest =>
      if first then member (c :: rest)
      else if c = ',' then member (dropBlanks rest)
      else ([], some (.both .malformed), none)

end

/-- A whole text: the document at its start, and whether only blanks follow it. -/
structure Text where
  doc : Doc
  complete : Bool

/-- Scans a text. Three rounds for each character are enough: a value, its item or member, and the next one. -/
def scan (text : String) : Text :=
  let cs := text.toList
  let (doc, rest) := scanValue (3 * cs.length + 3) 0 cs
  ⟨doc, match rest with
    | none => true
    | some rest => (dropBlanks rest).isEmpty⟩

def parse (text : String) : Except Fault Json := do
  let scanned := scan text
  let value ← scanned.doc.value
  if scanned.complete then return value else throw .malformed

end Lowering.Json
