import Lowering.Cli.Similarity
import Lowering.Tree.Text
/-!
# Reading the command line

Options may stand anywhere among the inputs, and everything behind `--` is an input. An argument that was started (an
option that waits for its value, or a run of inputs) is finished when the next one starts; what is wrong with it is
found then.
-/

namespace Lowering.Cli

inductive Flag where
  | output | noCache | entry | log | help | version
deriving DecidableEq, Repr

namespace Flag

def all : List Flag := [output, noCache, entry, log, help, version]

def long : Flag → String
  | output => "output"
  | noCache => "no-cache"
  | entry => "entry"
  | log => "log"
  | help => "help"
  | version => "version"

def short? : Flag → Option Char
  | output => some 'o'
  | help => some 'h'
  | version => some 'V'
  | noCache | entry | log => none

def takesValue : Flag → Bool
  | output | entry | log => true
  | noCache | help | version => false

def shown (f : Flag) : String :=
  if f.takesValue then s!"--{f.long} <{f.long.toUpper}>" else s!"--{f.long}"

end Flag

/-- What an argument belongs to. -/
inductive Item where
  | inputs
  | flag (f : Flag)
deriving DecidableEq, Repr

def Item.shown : Item → String
  | .inputs => "[INPUTS]..."
  | .flag f => f.shown

namespace Item

def all : List Item := inputs :: Flag.all.map flag

/-- Whether an item says what to compile and how, rather than asks about the program. -/
def isSetting : Item → Bool
  | flag .help | flag .version => false
  | inputs | flag _ => true

def choice : Item → String
  | inputs => "INPUTS"
  | flag f => f.shown

end Item

/-- What is wrong with a command line. -/
inductive Misuse where
  /-- There is no such option; `used` are the items read so far. -/
  | unexpected (argument : String) (similar : Option Flag) (used : List Item)
  /-- An option without a value has got one; `used` are the items finished before it. -/
  | unexpectedValue (value : String) (f : Flag) (used : List Item)
  /-- An option is given twice. -/
  | repeated (f : Flag)
  /-- A value is missing or empty. -/
  | missingValue (item : Item)
  | noInputs
  | notAFile (path : String)
deriving DecidableEq, Repr

/-- The usage line. Once items were read it shows those instead of all options. -/
def usageLine (used : List Item) : String :=
  let options := used.filterMap fun
    | .flag f => some (f.shown ++ " ")
    | .inputs => none
  if used.isEmpty then "Usage: uvc [OPTIONS] [INPUTS]..."
  else "Usage: uvc " ++ String.join options ++ if used.contains .inputs then "<INPUTS>..." else "[INPUTS]..."

/-- The usage line that shows all settings as one choice, behind those of the items that are none. -/
def choiceLine (items : List Item) : String :=
  let others := (items.filter (!·.isSetting)).map fun item => item.shown ++ " "
  "Usage: uvc " ++ String.join others ++ "<" ++
    "|".intercalate ((Item.all.filter Item.isSetting).map Item.choice) ++ ">"

namespace Misuse

def summary : Misuse → String
  | unexpected argument _ _ => s!"unexpected argument '{argument}' found"
  | unexpectedValue value f _ => s!"unexpected value '{value}' for '{f.shown}' found; no more were expected"
  | repeated f => s!"the argument '{f.shown}' cannot be used multiple times"
  | missingValue item => s!"a value is required for '{item.shown}' but none was supplied"
  | noInputs => "Missing input files!"
  | notAFile path => s!"Input path '{path}' is not a file!"

/-- What could be meant instead. -/
def tip? : Misuse → Option String
  | unexpected _ (some similar) _ => some s!"a similar argument exists: '--{similar.long}'"
  | unexpected argument none _ => some s!"to pass '{argument}' as a value, use '-- {argument}'"
  | _ => none

def usage? : Misuse → Option String
  | unexpected _ (some similar) used =>
    some (usageLine (if used.contains (.flag similar) then used else used ++ [.flag similar]))
  | unexpected _ none used => some (usageLine used)
  | unexpectedValue _ f used =>
    some (if used.any Item.isSetting then choiceLine (used ++ [.flag f]) else usageLine (used ++ [.flag f]))
  | missingValue _ => none
  | repeated _ | noInputs | notAFile _ => some (usageLine [])

/-- What a user is told about a misuse. -/
def message (m : Misuse) : String :=
  let tip := match m.tip? with
    | some tip => s!"\n\n  tip: {tip}"
    | none => ""
  let usage := match m.usage? with
    | some usage => s!"\n\n{usage}"
    | none => ""
  s!"error: {m.summary}{tip}{usage}\n\nFor more information, try '--help'.\n"

end Misuse

/-- What a command line asks for. -/
structure Invocation where
  inputs : List String := []
  output : Option String := none
  noCache : Bool := false
  entry : Option String := none
  log : Option String := none
deriving DecidableEq, Repr

/-- Why nothing is compiled. -/
inductive Exit where
  | help
  | version
  | misuse (m : Misuse)
deriving DecidableEq, Repr

/-- A command line that is being read. -/
structure Reading where
  invocation : Invocation := {}
  /-- The finished items, in order. -/
  used : List Item := []
  /-- The item that was started, and its values so far. -/
  started : Option (Item × List String) := none
  /-- Everything else is an input. -/
  inputsOnly : Bool := false
deriving DecidableEq, Repr

namespace Reading

def note (r : Reading) (item : Item) : Reading :=
  if r.used.contains item then r else { r with used := r.used ++ [item] }

def finishFlag (r : Reading) (f : Flag) (values : List String) : Except Exit Reading := do
  if r.used.contains (.flag f) then
    throw (.misuse (.repeated f))
  let i := r.invocation
  let value := values.headD ""
  match f with
  | .help => throw .help
  | .version => throw .version
  | .noCache => return { r.note (.flag f) with invocation := { i with noCache := true } }
  | .entry => return { r.note (.flag f) with invocation := { i with entry := some value } }
  | .log => return { r.note (.flag f) with invocation := { i with log := some value } }
  | .output =>
    if value.isEmpty then
      throw (.misuse (.missingValue (.flag f)))
    return { r.note (.flag f) with invocation := { i with output := some value } }

def finish (r : Reading) : Except Exit Reading := do
  match r.started with
  | none => return r
  | some (.flag f, []) => throw (.misuse (.missingValue (.flag f)))
  | some (.flag f, values) => finishFlag { r with started := none } f values
  | some (.inputs, values) =>
    if values.any String.isEmpty then
      throw (.misuse (.missingValue .inputs))
    let i := r.invocation
    return { r.note .inputs with invocation := { i with inputs := i.inputs ++ values }, started := none }

def takeFlag (r : Reading) (f : Flag) (values : List String) : Except Exit Reading := do
  let r ← r.finish
  r.finishFlag f values

/-- Starts an option that waits for its value. -/
def startFlag (r : Reading) (f : Flag) : Except Exit Reading := do
  let r ← r.finish
  return { r with started := some (.flag f, []) }

def takeInput (r : Reading) (input : String) : Except Exit Reading := do
  match r.started with
  | some (.inputs, values) => return { r with started := some (.inputs, values ++ [input]) }
  | _ =>
    let r ← r.finish
    return { r with started := some (.inputs, [input]) }

/-- The items read so far, with the one that was started if it has a value. An option that was given before and is
given again counts no more. -/
def known (r : Reading) : List Item :=
  match r.started with
  | none | some (.flag _, []) => r.used
  | some (.flag f, _) => if r.used.contains (.flag f) then r.used.erase (.flag f) else r.used ++ [.flag f]
  | some (.inputs, _) => (r.note .inputs).used

/-- Takes an option by its name, with the value behind an equals sign if there is one. -/
def takeLong (r : Reading) (name : String) (value : Option String) : Except Exit Reading := do
  match Flag.all.find? fun f => f.long == name, value with
  | none, _ =>
    let similar := (mostSimilar? name (Flag.all.map Flag.long)).bind fun word => Flag.all.find? fun f => f.long == word
    throw (.misuse (.unexpected s!"--{name}" similar r.known))
  | some f, none => if f.takesValue then r.startFlag f else r.takeFlag f []
  | some f, some value =>
    if f.takesValue then r.takeFlag f [value] else throw (.misuse (.unexpectedValue value f r.used))

/-- Takes options by their letters. The first one that takes a value takes the rest of the letters for it. -/
def takeShort (r : Reading) : List Char → Except Exit Reading
  | [] => .ok r
  | c :: rest =>
    match Flag.all.find? fun f => f.short? == some c with
    | none => .error (.misuse (.unexpected (String.ofList ['-', c]) none []))
    | some f =>
      if !f.takesValue then do
        let r ← r.takeFlag f []
        takeShort r rest
      else
        match rest with
        | [] => r.startFlag f
        | '=' :: value => r.takeFlag f [String.ofList value]
        | value => r.takeFlag f [String.ofList value]

def take (r : Reading) (argument : String) : Except Exit Reading :=
  if r.inputsOnly then r.takeInput argument
  else
    match argument.toList with
    | ['-', '-'] => .ok { r with inputsOnly := true }
    | '-' :: '-' :: rest =>
      let name := rest.takeWhile (· != '=')
      match rest.drop name.length with
      | [] => r.takeLong (String.ofList name) none
      | _ :: value => r.takeLong (String.ofList name) (some (String.ofList value))
    | '-' :: c :: rest => r.takeShort (c :: rest)
    | _ =>
      match r.started with
      | some (.flag f, []) => .ok { r with started := some (.flag f, [argument]) }
      | _ => r.takeInput argument

end Reading

def Invocation.ofArguments (arguments : List String) : Except Exit Invocation := do
  let reading ← arguments.foldlM Reading.take {}
  let reading ← reading.finish
  if reading.invocation.inputs.isEmpty then
    throw (.misuse .noInputs)
  return reading.invocation

end Lowering.Cli
