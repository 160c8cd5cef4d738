import Std.Time.DateTime
import Offside.Cli.Report

/-!
# The command line tool

Reads the files named on the command line and prints what is reported on them.
-/

namespace Offside.Cli

def readErrorOf : IO.Error → ReadError
  | .noFileOrDirectory .. => .notFound
  | .inappropriateType _ 21 _ => .isDirectory
  | .inappropriateType _ 20 _ => .notDirectory
  | .invalidArgument _ 36 _ => .nameTooLong
  | e => .other (toString e)

def readFile (path : String) : IO File := do
  try
    let bytes ← IO.FS.readBinFile path
    return ⟨path, decode bytes⟩
  catch e => return ⟨path, .error (readErrorOf e)⟩

/-- The readings of a clock that was set at the start of the tool and moves on with each thousand
readings. -/
def clock : IO (Nat → Float) := do
  let now ← Std.Time.Timestamp.now
  let start := now.toMillisecondsSinceUnixEpoch.val
  return fun n => Double.ofInt (start + n / 1000)

def print (a : Answer) : IO UInt32 := do
  let stdout ← IO.getStdout
  stdout.write a.stdout
  stdout.flush
  IO.eprint a.stderr
  return a.exitCode.toUInt32

end Offside.Cli

open Offside Offside.Cli in
def main (args : List String) : IO UInt32 := do
  match readArguments args with
  | .error refusal => print (refuse refusal)
  | .ok request =>
    let files ← request.files.mapM readFile
    print (perform request.mode files Session.plenty request.limit (← clock))
