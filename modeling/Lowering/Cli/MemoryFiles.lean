import Lowering.Cli.Run
/-!
# Files that only exist in memory

A path is a sequence of names with slashes between them; one dot stays where it is, and two dots go up, but not over the
root. Only a directory can be gone on from: whatever stands behind a file or a device, be it only a slash, leads
nowhere. The working directory is a directory of its own among temporary files. Beside the files there are a few
devices, through which the two streams of the command can be written to as well.
-/

namespace Lowering.Cli

/-- Why a file cannot be used. -/
inductive FileFault where
  | missing
  | notDirectory
  | isDirectory
  | noSpace
  | nameTooLong
deriving DecidableEq, Repr

def FileFault.message : FileFault → String
  | missing => "No such file or directory (os error 2)"
  | notDirectory => "Not a directory (os error 20)"
  | isDirectory => "Is a directory (os error 21)"
  | noSpace => "No space left on device (os error 28)"
  | nameTooLong => "File name too long (os error 36)"

/-! ### Paths -/

def longestName : Nat := 255

def longestPath : Nat := 4095

/-- The names on the way from the root to a file or a directory. -/
abbrev Way := List String

/-- The directory in which paths start that do not start at the root. -/
def workingDirectory : Way := ["tmp", "work"]

/-- A directory to start from, and the names to follow. -/
structure Path where
  start : Way
  names : List String
deriving DecidableEq, Repr

namespace Path

def ofText (text : String) : Except FileFault Path :=
  if text.isEmpty then .error .missing
  else if longestPath < text.utf8ByteSize then .error .nameTooLong
  else .ok ⟨if text.startsWith "/" then [] else workingDirectory, text.splitOn "/"⟩

/-- The path that is followed to write a file. A slash at the end asks for a directory, which cannot be written, so the
last name before it is not looked up. -/
def toWrite (p : Path) : Path :=
  if p.names.getLast? = some "" then
    { p with names := ((p.names.reverse.dropWhile String.isEmpty).drop 1).reverse ++ ["."] }
  else p

end Path

/-! ### Devices -/

/-- Something that is read and written like a file, but keeps nothing. -/
inductive Device where
  /-- It is empty and takes everything. -/
  | null
  /-- It takes nothing. -/
  | full
  | stdout
  | stderr
deriving DecidableEq, Repr

/-- The devices by the ways to them. Nothing is typed in, so that the stream to read from is empty. -/
def devices : List (Way × Device) :=
  [(["dev", "null"], .null), (["dev", "full"], .full), (["dev", "stdin"], .null), (["dev", "stdout"], .stdout),
    (["dev", "stderr"], .stderr)]

/-! ### Files -/

/-- Files, and what was written to the streams. -/
structure Files where
  /-- The files by the ways to them. The first one of a way counts. -/
  entries : List (Way × ByteArray) := []
  stdout : String := ""
  stderr : String := ""

/-- Where a path leads. -/
inductive Target where
  | file (way : Way) (contents : ByteArray)
  | directory
  | device (d : Device)
  /-- Nothing is there yet. -/
  | free (way : Way)

namespace Files

/-- Adds a file, or puts it in the place of another one. -/
def put (files : Files) (way : Way) (contents : ByteArray) : Files :=
  { files with entries := (way, contents) :: files.entries }

def add (files : Files) (name : String) (contents : ByteArray) : Files :=
  files.put (workingDirectory ++ (name.splitOn "/").filter fun part => part != "" && part != ".") contents

variable (files : Files)

/-- Whether a way leads to a directory: the working directory is one, and so is everything on the way to it, to a file
or to a device. -/
def isDirectory (way : Way) : Bool :=
  way.isPrefixOf workingDirectory ||
    (files.entries.map Prod.fst ++ devices.map Prod.fst).any fun other => other != way && way.isPrefixOf other

def target (way : Way) : Target :=
  match devices.lookup way, files.entries.lookup way with
  | some d, _ => .device d
  | none, some contents => .file way contents
  | none, none => if files.isDirectory way then .directory else .free way

def follow : Way → List String → Except FileFault Target
  | _, [] => .ok .directory
  | way, name :: rest =>
    if name = "" || name = "." then follow way rest
    else if name = ".." then follow way.dropLast rest
    else if longestName < name.utf8ByteSize then .error .nameTooLong
    else
      match files.target (way ++ [name]), rest with
      | .directory, _ => follow (way ++ [name]) rest
      | found, [] => .ok found
      | .free _, _ => .error .missing
      | _, _ => .error .notDirectory

def resolve (p : Path) : Except FileFault Target := files.follow p.start p.names

def contents (path : String) : Except String String :=
  match Path.ofText path >>= files.resolve with
  | .ok (.file _ bytes) =>
    match String.fromUTF8? bytes with
    | some text => .ok text
    | none => .error "stream did not contain valid UTF-8"
  | .ok (.device .null) => .ok ""
  | .ok .directory => .error FileFault.isDirectory.message
  | .ok (.device _) | .ok (.free _) => .error FileFault.missing.message
  | .error fault => .error fault.message

/-- Writes to a device. Nothing fits even where there is no space. -/
def writeDevice (text : String) : Device → Except FileFault Files
  | .null => .ok files
  | .full => if text.isEmpty then .ok files else .error .noSpace
  | .stdout => .ok { files with stdout := files.stdout ++ text }
  | .stderr => .ok { files with stderr := files.stderr ++ text }

def write (path text : String) : Except FileFault Files := do
  match ← files.resolve (← Path.ofText path).toWrite with
  | .directory => throw .isDirectory
  | .device d => files.writeDevice text d
  | .file way _ | .free way => return files.put way text.toUTF8

def system : FileSystem (StateM Files) where
  isFile path := do
    match Path.ofText path >>= (← get).resolve with
    | .ok (.file _ _) => return true
    | _ => return false
  read path := do return (← get).contents path
  write path text := do
    match (← get).write path text with
    | .ok files =>
      set files
      return .ok ()
    | .error fault => return .error fault.message

end Files

end Lowering.Cli
