import Lowering.Cli.Arguments
import Lowering.Machine.Run
import Lowering.Machine.Text
import Lowering.Tree.Decode
import Lowering.Unit.Names
/-!
# What the command does

Every input is compiled on its own, with its place on the command line as the number of its file. The code is printed,
or collected for the output file, and an entry is run if one is named. Errors go to the error stream and make the
command fail, but do not keep it from going on with the next input.

Files are reached through a `FileSystem` over any monad, so that the command can be run on files that only exist in
memory.
-/

namespace Lowering.Cli

/-- Access to files. Failures are given by their texts. -/
structure FileSystem (m : Type → Type) where
  isFile : String → m Bool
  read : String → m (Except String String)
  write : String → String → m (Except String Unit)

/-- What the command has printed, and its exit status. -/
structure Outcome where
  stdout : String := ""
  stderr : String := ""
  status : Nat := 0
deriving DecidableEq, Repr

namespace Outcome

def print (o : Outcome) (text : String) : Outcome := { o with stdout := o.stdout ++ text }

def complain (o : Outcome) (line : String) : Outcome := { o with stderr := o.stderr ++ line ++ "\n" }

def fail (o : Outcome) : Outcome := { o with status := 1 }

end Outcome

def helpText : String :=
  "Compiles syntax trees to register code\n\n" ++ usageLine [] ++ "\n\n" ++
  "Arguments:\n" ++
  "  [INPUTS]...  Syntax trees to compile, serialized as JSON\n\n" ++
  "Options:\n" ++
  "  -o, --output <OUTPUT>  Write the plain IR here instead of printing it\n" ++
  "      --no-cache         Load and store variables on every access instead of keeping them in registers\n" ++
  "      --entry <ENTRY>    Run this function of each compiled module and print its result\n" ++
  "      --log <LOG>        Log filter\n" ++
  "  -h, --help             Print help\n" ++
  "  -V, --version          Print version\n"

def versionText : String := "uvc 0.1.0\n"

section

variable (palette : Terminal.Palette)

/-- A word in bold red that opens a complaint. -/
def alarm (word : String) : String := palette.paint ⟨.red, true⟩ word

/-- The procedure that a name of an entry means: the one of that name, or else the first one whose name begins with it
up to a dot. -/
def entryOf? (m : IR.Module) (entry : String) : Option IR.Procedure :=
  m.procedure? entry <|>
    m.procedures.find? fun p => !p.external && p.name.toList.takeWhile (· != '.') == entry.toList

/-- Runs an entry, behind all the names met so far. -/
def runEntry (names : List String) (m : IR.Module) (entry : String) (o : Outcome) : Outcome :=
  match entryOf? m entry with
  | none => (o.complain (alarm palette "error" ++ s!": no function named `{entry}`")).fail
  | some p =>
    match runFresh m p.name [] with
    | .ok (some value) => o.print (palette.tint .blue entry ++ " returned " ++ value.text ++ "\n")
    | .ok none => o.print (palette.tint .blue entry ++ " returned\n")
    | .error e => (o.complain (alarm palette "runtime error" ++ ": " ++ e.message (.ofNames names))).fail

/-- What has been done so far: what was printed, the code for the output file, and the names met on the way. -/
structure Progress where
  outcome : Outcome := {}
  output : String := ""
  names : List String := []
deriving DecidableEq, Repr

/-- Compiles a unit that was read. A broken promise of the lowering stops the command, and so does a compiler that broke
off. -/
def compileInput (i : Invocation) (fileId : Nat) (u : SourceUnit) (file : Option SourceFile) (p : Progress) :
    Except Outcome Progress :=
  let options : Options := { caching := !i.noCache }
  let (result, reporter) := compileUnit fileId options u
  if reporter.brokeOff then
    .error { p.outcome.complain Cause.sizeOverflow.message with status := 101 }
  else
  match result with
  | .error e =>
    let o := p.outcome.complain (alarm palette "internal compiler error" ++ ": " ++ e.message)
    .error { o with status := 2 }
  | .ok m =>
    let o := reporter.collected.foldl (fun o d => o.complain (d.render palette file ++ "\n")) p.outcome
    let o := if reporter.hasErrors then o.fail else o
    let (o, output) :=
      match i.output with
      | some _ => (o, p.output ++ IR.plain fun p => m.print p)
      | none => (o.print (m.print palette), p.output)
    match i.entry with
    | none => .ok { p with outcome := o, output }
    | some entry =>
      let names := p.names ++ namesOfUnit fileId options u
      .ok ⟨runEntry palette names m entry o, output, names⟩

variable {m : Type → Type} [Monad m] (files : FileSystem m)

/-- The unit in a file, or what is wrong with it, and the names met in the file. -/
def readUnit (path : String) : m (Except String SourceUnit × List String) := do
  match ← files.read path with
  | .error problem => return (.error s!"failed to read '{path}': {problem}", [])
  | .ok contents =>
    let reading := SourceUnit.ofText contents
    return (reading.result.mapError fun _ => s!"'{path}' is not a valid syntax tree", reading.names)

/-- The source text of a unit, if it can be read. -/
def readSource (u : SourceUnit) : m (Option SourceFile) := do
  match u.source with
  | none => return none
  | some path =>
    match ← files.read path with
    | .ok contents => return some ⟨contents, .file path⟩
    | .error _ => return none

/-- Compiles inputs in order, from the file number `fileId` on. -/
def compileInputs (i : Invocation) : (fileId : Nat) → List String → Progress → m (Except Outcome Progress)
  | _, [], p => return .ok p
  | fileId, path :: rest, p => do
    let (unit, names) ← readUnit files path
    let p := { p with names := p.names ++ names }
    match unit with
    | .error problem =>
      let o := (p.outcome.complain (alarm palette "error" ++ ": " ++ problem)).fail
      compileInputs i (fileId + 1) rest { p with outcome := o }
    | .ok u =>
      let file ← readSource files u
      match compileInput palette i fileId u file p with
      | .error o => return .error o
      | .ok p => compileInputs i (fileId + 1) rest p

def firstMissing : List String → m (Option String)
  | [] => return none
  | path :: rest => do
    if ← files.isFile path then firstMissing rest else return some path

def perform (i : Invocation) : m Outcome := do
  if let some path ← firstMissing files i.inputs then
    return { stderr := (Misuse.notAFile path).message, status := 2 }
  match ← compileInputs palette files i 0 i.inputs {} with
  | .error o => return o
  | .ok p =>
    match i.output with
    | none => return p.outcome
    | some path =>
      match ← files.write path p.output with
      | .ok _ => return p.outcome
      | .error problem =>
        return (p.outcome.complain (alarm palette "error" ++ s!": failed to write '{path}': {problem}")).fail

def run (arguments : List String) : m Outcome :=
  match Invocation.ofArguments arguments with
  | .ok i => perform palette files i
  | .error .help => return { stdout := helpText }
  | .error .version => return { stdout := versionText }
  | .error (.misuse e) => return { stderr := e.message, status := 2 }

end

end Lowering.Cli
