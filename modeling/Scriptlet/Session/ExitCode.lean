import Scriptlet.Session.Basic

/-!
Exit codes of the command line.
-/

namespace Scriptlet

namespace ExitCode

def success : Nat := 0

def usage : Nat := 64

def compileError : Nat := 65

def noInput : Nat := 66

def runtimeError : Nat := 70

def ofResult : Except RunError Unit → Nat
  | .ok _ => success
  | .error (.compile _) => compileError
  | .error (.runtime _) | .error .outOfFuel => runtimeError

end ExitCode

end Scriptlet
