import Lowering.Cli.Run
/-!
# The command
-/

namespace Lowering.Cli

def failureText : IO.Error → String
  | .noFileOrDirectory _ code details => s!"{details} (os error {code})"
  | .inappropriateType (some _) code details => s!"{details} (os error {code})"
  | .permissionDenied (some _) code details => s!"{details} (os error {code})"
  | e => toString e

def systemFiles : FileSystem IO where
  isFile path := do
    match ← (IO.FS.Handle.mk path .read).toBaseIO with
    | .ok handle =>
      match ← (handle.read 1).toBaseIO with
      | .ok _ => return true
      | .error _ => return false
    | .error _ => return false
  read path := do
    match ← (IO.FS.readBinFile path).toBaseIO with
    | .error e => return .error (failureText e)
    | .ok bytes =>
      match String.fromUTF8? bytes with
      | some contents => return .ok contents
      | none => return .error "stream did not contain valid UTF-8"
  write path contents := do
    match ← (IO.FS.writeFile path contents).toBaseIO with
    | .ok _ => return .ok ()
    | .error e => return .error (failureText e)

end Lowering.Cli

/-- Runs the command on the files of the system, in colour on a terminal. -/
def main (arguments : List String) : IO UInt32 := do
  let stdout ← IO.getStdout
  let palette := if ← stdout.isTty then .colored else .uncolored
  let outcome ← Lowering.Cli.run palette Lowering.Cli.systemFiles arguments
  stdout.putStr outcome.stdout
  stdout.flush
  (← IO.getStderr).putStr outcome.stderr
  return UInt32.ofNat outcome.status
