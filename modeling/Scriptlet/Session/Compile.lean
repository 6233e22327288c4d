import Scriptlet.Diagnostic.Queue
import Scriptlet.Grammar.Stmt
import Scriptlet.Source.Scanner

/-!
From source text to a program.

Reading the tokens goes on after faults in the text, so one attempt reports as much as it can.  A
text is a program only if nothing at all was reported.
-/

namespace Scriptlet

structure CompileErrors where
  diagnostics : List Diagnostic
  dropped : Nat
  deriving DecidableEq, Repr, Inhabited

def CompileErrors.text (e : CompileErrors) : String :=
  "\n".intercalate (e.diagnostics.map Diagnostic.text) ++
    if 0 < e.dropped then "\n... and " ++ toString e.dropped ++ " more error(s)" else ""

structure SourceUnit where
  lexed : Source.Lexed
  parsed : Grammar.Parsed

namespace SourceUnit

def ofSource (source : String) : SourceUnit :=
  let lexed := Source.lex source
  ⟨lexed, Grammar.parse lexed.tokens⟩

/-- The faults of the text come before the syntax errors. -/
def diagnostics (u : SourceUnit) : List Diagnostic :=
  u.lexed.errors.map Diagnostic.ofLexError ++
    u.parsed.errors.map Grammar.SyntaxError.diagnostic

end SourceUnit

def compile (config : Diagnostic.QueueConfig) (source : String) :
    Except CompileErrors (List Stmt) :=
  let u := SourceUnit.ofSource source
  let queue := (Diagnostic.Queue.empty config).extend u.diagnostics
  if queue.hasErrors then .error ⟨queue.toList, queue.dropped⟩ else .ok u.parsed.statements

end Scriptlet
