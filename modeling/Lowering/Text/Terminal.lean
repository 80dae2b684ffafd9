/-!
# Coloured text for terminals, and its removal

A `Style` is a foreground colour, possibly bold. `Palette.paint` puts the control sequence that switches to it in front
of a text and the reset sequence behind it. `strip` goes the other way: it drops every control sequence a terminal
would obey and every control character but the line feed.
-/

namespace Lowering.Terminal

/-- The foreground colours in use. -/
inductive Color where
  | red | green | yellow | blue | magenta | cyan | white | brightRed | brightGreen
deriving DecidableEq, Repr

def Color.code : Color → Nat
  | .red => 31
  | .green => 32
  | .yellow => 33
  | .blue => 34
  | .magenta => 35
  | .cyan => 36
  | .white => 37
  | .brightRed => 91
  | .brightGreen => 92

/-- A colour, possibly bold. -/
structure Style where
  color : Color
  bold : Bool := false
deriving DecidableEq, Repr

def reset : List Char := ['\x1b', '[', '0', 'm']

def Style.start (s : Style) : List Char :=
  ['\x1b', '['] ++ (if s.bold then ['1', ';'] else []) ++ (toString s.color.code).toList ++ ['m']

/-- Switches back to a style after each reset inside the text, so that text painted before keeps its surroundings. -/
def Style.resume (s : Style) : List Char → List Char
  | [] => []
  | '\x1b' :: '[' :: '0' :: 'm' :: rest => reset ++ s.start ++ s.resume rest
  | c :: rest => c :: s.resume rest

/-- Whether text for a terminal is coloured. -/
inductive Palette where
  | colored | uncolored
deriving DecidableEq, Repr

def Palette.paint (p : Palette) (s : Style) (text : String) : String :=
  match p with
  | .uncolored => text
  | .colored => String.ofList (s.start ++ s.resume text.toList ++ reset)

def Palette.tint (p : Palette) (c : Color) (text : String) : String :=
  p.paint ⟨c, false⟩ text

/-! ### Removal -/

/-- The two kinds of sequence with parameters. -/
inductive Sequence where
  /-- Tells the terminal what to do; it ends with its final character. -/
  | control
  /-- Brings data for the device behind its final character. -/
  | device
deriving DecidableEq, Repr

/-- What a terminal is reading. -/
inductive Reading where
  /-- Text to show. -/
  | text
  /-- An escape character came; `seen` tells whether an intermediate character did too. -/
  | escape (seen : Bool)
  /-- Parameters of a sequence; `fresh` until the first of them. -/
  | parameters (kind : Sequence) (fresh : Bool)
  /-- Intermediate characters of a sequence. -/
  | intermediate (kind : Sequence)
  /-- A malformed control sequence, up to its final character. -/
  | malformed
  /-- Data for the device, up to its terminator. -/
  | data
  /-- A string for the operating system or for nobody, up to an interruption. `bell` tells whether the bell
  character ends it too. -/
  | string (bell : Bool)
deriving DecidableEq, Repr

/-- What follows the final character of a sequence. -/
def Sequence.body : Sequence → Reading
  | .control => .text
  | .device => .data

/-- What a sequence is from the first misplaced character on. -/
def Sequence.spoiled : Sequence → Reading
  | .control => .malformed
  | .device => .string false

def isControl (c : Char) : Bool := c.toNat < 0x20

/-- Whether the code point of `c` lies between two others. -/
def between (low high : Nat) (c : Char) : Bool := low ≤ c.toNat && c.toNat ≤ high

/-- The bytes of a character behind the terminator of device data, if the terminator is among them. Data is read byte
by byte, so the terminator counts also where it is a part of a longer character. -/
def behindTerminator? (c : Char) : Option (List UInt8) :=
  ((String.utf8EncodeChar c).dropWhile (· != 0x9c)).tail?

/-- How a byte that is no character by itself is shown: not at all if it is a control, else by the character that
stands for what cannot be read. -/
def strayByte (b : UInt8) : List Char :=
  if b ≤ 0x9f then [] else ['\ufffd']

/-- What is read after `c`, once the characters that interrupt every sequence are handled. -/
def Reading.after (r : Reading) (c : Char) : Reading :=
  match r with
  | .text => .text
  | .escape false =>
    if between 0x20 0x2f c then .escape true
    else if c = '[' then .parameters .control true
    else if c = ']' then .string true
    else if c = 'P' then .parameters .device true
    else if c = 'X' || c = '^' || c = '_' then .string false
    else if between 0x30 0x7e c then .text
    else r
  | .escape true => if between 0x30 0x7e c then .text else r
  | .parameters kind fresh =>
    if between 0x40 0x7e c then kind.body
    else if between 0x20 0x2f c then .intermediate kind
    else if between 0x30 0x3b c then .parameters kind false
    else if between 0x3c 0x3f c then (if fresh then .parameters kind false else kind.spoiled)
    else r
  | .intermediate kind =>
    if between 0x40 0x7e c then kind.body else if between 0x30 0x3f c then kind.spoiled else r
  | .malformed => if between 0x40 0x7e c then .text else r
  | .data => if (behindTerminator? c).isSome then .text else r
  | .string bell => if bell && c = '\x07' then .text else r

/-- What a terminal that is reading `r` shows for `c`. A line feed is obeyed inside a control sequence, but not inside a
device sequence or a string. -/
def Reading.shown (r : Reading) (c : Char) : List Char :=
  match r with
  | .text => if c = '\n' || !isControl c && !between 0x80 0x9f c then [c] else []
  | .data => ((behindTerminator? c).getD []).flatMap strayByte
  | .parameters .device _ | .intermediate .device | .string _ => []
  | _ => if c = '\n' then [c] else []

/-- The characters that a terminal shows, and line feeds. -/
def stripFrom : Reading → List Char → List Char
  | _, [] => []
  | r, c :: rest =>
    if c = '\x1b' then stripFrom (.escape false) rest
    else if c = '\x18' || c = '\x1a' then stripFrom .text rest
    else r.shown c ++ stripFrom (r.after c) rest

/-- Text without control sequences and without control characters other than the line feed. -/
def strip (text : String) : String :=
  String.ofList (stripFrom .text text.toList)

end Lowering.Terminal
