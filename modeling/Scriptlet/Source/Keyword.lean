import Scriptlet.Source.Cursor
import Scriptlet.Token.Kind

/-!
Reserved words.

Every one of them has two to six lower-case letters, so that a longer or shorter word, and one that
starts otherwise, is a name before any spelling is compared.
-/

namespace Scriptlet.Source

/-- The kind of a reserved word, by its length and then by its spelling. -/
def reserved? (word : String) : Option Kind :=
  if word.utf8ByteSize < 2 || 6 < word.utf8ByteSize || !(byteAt word 0).isLower then none
  else
    match word.utf8ByteSize with
    | 2 =>
        match word with
        | "do" => some .kwDo
        | "if" => some .kwIf
        | "in" => some .kwIn
        | "or" => some .kwOr
        | _ => none
    | 3 =>
        match word with
        | "and" => some .kwAnd
        | "def" => some .kwDef
        | "end" => some .kwEnd
        | "for" => some .kwFor
        | "nil" => some .kwNil
        | "not" => some .kwNot
        | _ => none
    | 4 =>
        match word with
        | "case" => some .kwCase
        | "else" => some .kwElse
        | "loop" => some .kwLoop
        | "next" => some .kwNext
        | "puts" => some .kwPuts
        | "redo" => some .kwRedo
        | "self" => some .kwSelf
        | "then" => some .kwThen
        | "true" => some .kwTrue
        | "when" => some .kwWhen
        | _ => none
    | 5 =>
        match word with
        | "begin" => some .kwBegin
        | "break" => some .kwBreak
        | "class" => some .kwClass
        | "elsif" => some .kwElsif
        | "false" => some .kwFalse
        | "print" => some .kwPrint
        | "retry" => some .kwRetry
        | "super" => some .kwSuper
        | "until" => some .kwUntil
        | "while" => some .kwWhile
        | _ => none
    | 6 =>
        match word with
        | "ensure" => some .kwEnsure
        | "module" => some .kwModule
        | "rescue" => some .kwRescue
        | "return" => some .kwReturn
        | "unless" => some .kwUnless
        | _ => none
    | _ => none

end Scriptlet.Source
