import Mathlib.Tactic.DeprecateTo
import Scriptlet.CommandLine

/-!
The program itself: reads the file or the lines that the command asks for, and writes what the
command line makes of them.
-/

namespace Scriptlet.Main

open CommandLine

def readError : IO.Error → ReadError
  | .noFileOrDirectory .. => .notFound
  | .inappropriateType .. => .directory
  | e => .other (toString e)

def readFile (path : String) : IO (Except ReadError String) := do
  try
    return decode (← IO.FS.readBinFile path)
  catch e =>
    return .error (readError e)

/-- The seconds since the start of 1970 at each moment of a run.  A run cannot look at the clock of
the machine, so a microsecond is taken to go by from one moment to the next. -/
def now : IO (Nat → Float) := do
  let t ← Std.Time.Timestamp.now
  let nanoseconds := t.toNanosecondsSinceUnixEpoch.val.toNat
  return fun moment => Float.ofScientific (nanoseconds + 1000 * moment) true 9

def write (out err : String) : IO Unit := do
  IO.print out
  (← IO.getStdout).flush
  IO.eprint err

def finish (o : Outcome) : IO UInt32 := do
  write o.out o.err
  return o.code.toUInt32

/-- The bytes of the next line, with the newline that ends it; none at the end of the input. -/
partial def readLine (input : IO.FS.Stream) (line : ByteArray) : IO ByteArray := do
  let next ← input.read 1
  let line := line ++ next
  if next.isEmpty || next.toList = [10] then return line else readLine input line

partial def converse (s : Session) (input : IO.FS.Stream) : IO UInt32 := do
  write prompt ""
  let line ← readLine input .empty
  if line.isEmpty then
    finish ⟨"\n", "", ExitCode.success⟩
  else
    match decode line with
    | .error e => finish ⟨"", "error: " ++ e.message ++ "\n", ExitCode.noInput⟩
    | .ok text =>
        let (out, err, s) := turn s text
        write out err
        converse { s with settings := Session.standardSettings (← now) } input

end Scriptlet.Main

open Scriptlet Scriptlet.CommandLine Scriptlet.Main in
def main (arguments : List String) : IO UInt32 := do
  let clock ← now
  match Command.ofArguments arguments with
  | .interactive => converse (Session.standard clock) (← IO.getStdin)
  | .file action path => finish (onFile clock action path (← readFile path))
  | _ => finish (perform clock (fun _ => .error .notFound) .empty arguments)
