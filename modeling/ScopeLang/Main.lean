import ScopeLang.Cli
import ScopeLang.Time.Moment
import Std.Time

/-!
# The program

Reads the files that the command line names, runs it, and writes its report.
-/

namespace ScopeLang

/-- What the system says about a file that cannot be read. -/
def readFailureText : IO.Error → String
  | .noFileOrDirectory .. => "No such file or directory (os error 2)"
  | .inappropriateType .. | .resourceVanished .. => "Is a directory (os error 21)"
  | .permissionDenied .. => "Permission denied (os error 13)"
  | e => toString e

def loadFile (path : String) : IO (Except String String) := do
  try
    let bytes ← IO.FS.readBinFile path
    match String.fromUTF8? bytes with
    | some text => return .ok text
    | none => return .error "stream did not contain valid UTF-8"
  catch e => return .error (readFailureText e)

/-- The files that a request needs. -/
def Cli.Request.paths : Cli.Request → List String
  | .run c => c.config.toList ++ c.file.toList
  | _ => []

def now : IO Moment := do
  let t ← Std.Time.DateTime.now
  return {
    seconds := t.timestamp.toSecondsSinceUnixEpoch.val
    nanosecond := t.timestamp.val.nano.val.toNat
    offset := t.timezone.offset.second.val }

end ScopeLang

open ScopeLang in
def main (args : List String) : IO UInt32 := do
  let request := Cli.Request.ofArgs args
  let files ← request.paths.mapM fun path => do return (path, ← loadFile path)
  let read (path : String) : Except String String := (files.lookup path).getD (.error "")
  let report := request.answer read (← now).clock
  IO.print report.stdout
  (← IO.getStdout).flush
  IO.eprint report.stderr
  return report.exit
