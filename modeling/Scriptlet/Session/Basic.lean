import Scriptlet.Machine.Eval
import Scriptlet.Session.Compile

/-!
Sessions.

A session runs one text after another on the same machine.  Each text is compiled by itself, and a
text that does not compile runs not even in part; what the earlier ones have defined stays.
-/

namespace Scriptlet

inductive RunError where
  | compile (e : CompileErrors)
  | runtime (e : RuntimeError)
  | outOfFuel
  deriving DecidableEq, Repr

namespace RunError

def text : RunError → String
  | .compile e => e.text
  | .runtime e => e.text
  | .outOfFuel => "out of fuel"

end RunError

structure Session where
  settings : Settings
  queueConfig : Diagnostic.QueueConfig
  machine : Machine

namespace Session

def standardCallDepth : Nat := 10000

def standardSettings (clock : Nat → Float) : Settings where
  maxCallDepth := standardCallDepth
  silent := false
  clock := clock
  host _ _ _ := .ok .nil

def builtins : List (String × Value) :=
  [("clock", .host ⟨"clock", 0, .clock⟩)]

def standard (clock : Nat → Float) : Session :=
  ⟨standardSettings clock, .standard, Machine.initial.withGlobals builtins⟩

def plentyOfFuel : Nat := Nat.pow 10 18

def runWith (fuel : Nat) (s : Session) (source : String) : Except RunError Unit × Session :=
  match compile s.queueConfig source with
  | .error e => (.error (.compile e), s)
  | .ok program =>
      match Run.interpret s.settings fuel program s.machine with
      | .ok _ m => (.ok (), { s with machine := m })
      | .error (.failed e) m => (.error (.runtime e), { s with machine := m })
      | .error .outOfFuel m => (.error .outOfFuel, { s with machine := m })

def run (s : Session) (source : String) : Except RunError Unit × Session :=
  s.runWith plentyOfFuel source

def takeOutput (s : Session) : String × Session :=
  let (output, m) := s.machine.takeOutput
  (output, { s with machine := m })

end Session

end Scriptlet
