/-!
Kinds of token.

A kind says what a token is, never what it is worth: the value of a literal stands on the token
itself.  The kinds are listed once, in the order in which messages and listings show them, and
every kind is known by its place in that list.
-/

namespace Scriptlet

/-- Words of the language start with `kw`; every other kind is named for its shape. -/
inductive Kind where
  | leftParen | rightParen | leftBrace | rightBrace | leftBracket | rightBracket | comma | dot
  | dotDot | dotDotDot | semicolon | question | colon | colonColon
  | minus | minusEqual | plus | plusEqual | slash | slashEqual | star | starEqual | starStar
  | percent | percentEqual
  | bang | bangEqual | equal | equalEqual | greater | greaterEqual | less | lessEqual
  | ampersand | pipe | caret | tilde | leftShift | rightShift
  | identifier | string | integer | float
  | kwAnd | kwBegin | kwBreak | kwCase | kwClass | kwDef | kwDo | kwElse | kwElsif | kwEnd
  | kwEnsure | kwFalse | kwFor | kwIf | kwIn | kwLoop | kwModule | kwNext | kwNil | kwNot
  | kwOr | kwPrint | kwPuts | kwRedo | kwRescue | kwRetry | kwReturn | kwSelf | kwSuper
  | kwThen | kwTrue | kwUnless | kwUntil | kwWhen | kwWhile
  | newline | eof
  deriving DecidableEq, Repr, Inhabited

namespace Kind

def all : List Kind :=
  [.leftParen, .rightParen, .leftBrace, .rightBrace, .leftBracket, .rightBracket, .comma, .dot,
   .dotDot, .dotDotDot, .semicolon, .question, .colon, .colonColon, .minus, .minusEqual, .plus,
   .plusEqual, .slash, .slashEqual, .star, .starEqual, .starStar, .percent, .percentEqual,
   .bang, .bangEqual, .equal, .equalEqual, .greater, .greaterEqual, .less, .lessEqual,
   .ampersand, .pipe, .caret, .tilde, .leftShift, .rightShift, .identifier, .string, .integer,
   .float, .kwAnd, .kwBegin, .kwBreak, .kwCase, .kwClass, .kwDef, .kwDo, .kwElse, .kwElsif,
   .kwEnd, .kwEnsure, .kwFalse, .kwFor, .kwIf, .kwIn, .kwLoop, .kwModule, .kwNext, .kwNil,
   .kwNot, .kwOr, .kwPrint, .kwPuts, .kwRedo, .kwRescue, .kwRetry, .kwReturn, .kwSelf,
   .kwSuper, .kwThen, .kwTrue, .kwUnless, .kwUntil, .kwWhen, .kwWhile, .newline, .eof]

def index (k : Kind) : Nat :=
  k.ctorIdx

def ofIndex? (n : Nat) : Option Kind :=
  all[n]?

/-- Spelling of the kind where it has only one, and otherwise what messages call it. -/
def name : Kind → String
  | .leftParen => "("
  | .rightParen => ")"
  | .leftBrace => "\x7b"
  | .rightBrace => "\x7d"
  | .leftBracket => "["
  | .rightBracket => "]"
  | .comma => ","
  | .dot => "."
  | .dotDot => ".."
  | .dotDotDot => "..."
  | .semicolon => ";"
  | .question => "?"
  | .colon => ":"
  | .colonColon => "::"
  | .minus => "-"
  | .minusEqual => "-="
  | .plus => "+"
  | .plusEqual => "+="
  | .slash => "/"
  | .slashEqual => "/="
  | .star => "*"
  | .starEqual => "*="
  | .starStar => "**"
  | .percent => "%"
  | .percentEqual => "%="
  | .bang => "!"
  | .bangEqual => "!="
  | .equal => "="
  | .equalEqual => "=="
  | .greater => ">"
  | .greaterEqual => ">="
  | .less => "<"
  | .lessEqual => "<="
  | .ampersand => "&"
  | .pipe => "|"
  | .caret => "^"
  | .tilde => "~"
  | .leftShift => "<<"
  | .rightShift => ">>"
  | .identifier => "identifier"
  | .string => "string"
  | .integer => "integer"
  | .float => "float"
  | .kwAnd => "and"
  | .kwBegin => "begin"
  | .kwBreak => "break"
  | .kwCase => "case"
  | .kwClass => "class"
  | .kwDef => "def"
  | .kwDo => "do"
  | .kwElse => "else"
  | .kwElsif => "elsif"
  | .kwEnd => "end"
  | .kwEnsure => "ensure"
  | .kwFalse => "false"
  | .kwFor => "for"
  | .kwIf => "if"
  | .kwIn => "in"
  | .kwLoop => "loop"
  | .kwModule => "module"
  | .kwNext => "next"
  | .kwNil => "nil"
  | .kwNot => "not"
  | .kwOr => "or"
  | .kwPrint => "print"
  | .kwPuts => "puts"
  | .kwRedo => "redo"
  | .kwRescue => "rescue"
  | .kwRetry => "retry"
  | .kwReturn => "return"
  | .kwSelf => "self"
  | .kwSuper => "super"
  | .kwThen => "then"
  | .kwTrue => "true"
  | .kwUnless => "unless"
  | .kwUntil => "until"
  | .kwWhen => "when"
  | .kwWhile => "while"
  | .newline => "newline"
  | .eof => "end of file"

def label : Kind → String
  | .leftParen => "LeftParen"
  | .rightParen => "RightParen"
  | .leftBrace => "LeftBrace"
  | .rightBrace => "RightBrace"
  | .leftBracket => "LeftBracket"
  | .rightBracket => "RightBracket"
  | .comma => "Comma"
  | .dot => "Dot"
  | .dotDot => "DotDot"
  | .dotDotDot => "DotDotDot"
  | .semicolon => "Semicolon"
  | .question => "Question"
  | .colon => "Colon"
  | .colonColon => "ColonColon"
  | .minus => "Minus"
  | .minusEqual => "MinusEqual"
  | .plus => "Plus"
  | .plusEqual => "PlusEqual"
  | .slash => "Slash"
  | .slashEqual => "SlashEqual"
  | .star => "Star"
  | .starEqual => "StarEqual"
  | .starStar => "StarStar"
  | .percent => "Percent"
  | .percentEqual => "PercentEqual"
  | .bang => "Bang"
  | .bangEqual => "BangEqual"
  | .equal => "Equal"
  | .equalEqual => "EqualEqual"
  | .greater => "Greater"
  | .greaterEqual => "GreaterEqual"
  | .less => "Less"
  | .lessEqual => "LessEqual"
  | .ampersand => "Ampersand"
  | .pipe => "Pipe"
  | .caret => "Caret"
  | .tilde => "Tilde"
  | .leftShift => "LeftShift"
  | .rightShift => "RightShift"
  | .identifier => "Identifier"
  | .string => "String"
  | .integer => "Integer"
  | .float => "Float"
  | .kwAnd => "And"
  | .kwBegin => "Begin"
  | .kwBreak => "Break"
  | .kwCase => "Case"
  | .kwClass => "Class"
  | .kwDef => "Def"
  | .kwDo => "Do"
  | .kwElse => "Else"
  | .kwElsif => "Elsif"
  | .kwEnd => "End"
  | .kwEnsure => "Ensure"
  | .kwFalse => "False"
  | .kwFor => "For"
  | .kwIf => "If"
  | .kwIn => "In"
  | .kwLoop => "Loop"
  | .kwModule => "Module"
  | .kwNext => "Next"
  | .kwNil => "Nil"
  | .kwNot => "Not"
  | .kwOr => "Or"
  | .kwPrint => "Print"
  | .kwPuts => "Puts"
  | .kwRedo => "Redo"
  | .kwRescue => "Rescue"
  | .kwRetry => "Retry"
  | .kwReturn => "Return"
  | .kwSelf => "SelfValue"
  | .kwSuper => "Super"
  | .kwThen => "Then"
  | .kwTrue => "True"
  | .kwUnless => "Unless"
  | .kwUntil => "Until"
  | .kwWhen => "When"
  | .kwWhile => "While"
  | .newline => "Newline"
  | .eof => "Eof"

def isKeyword (k : Kind) : Bool :=
  kwAnd.index ≤ k.index && k.index ≤ kwWhile.index

def isOperator (k : Kind) : Bool :=
  k.index ≤ rightShift.index

def isSeparator (k : Kind) : Bool :=
  k == newline || k == semicolon

@[simp] theorem length_all : all.length = 80 := rfl

theorem ofIndex?_index (k : Kind) : ofIndex? k.index = some k := by
  cases k <;> rfl

theorem index_lt (k : Kind) : k.index < 80 := by
  cases k <;> decide

theorem index_injective {k₁ k₂ : Kind} (h : k₁.index = k₂.index) : k₁ = k₂ := by
  have h₁ := ofIndex?_index k₁
  rw [h, ofIndex?_index k₂] at h₁
  exact (Option.some.inj h₁).symm

theorem mem_all (k : Kind) : k ∈ all :=
  List.mem_of_getElem? (ofIndex?_index k)

theorem map_index_all : all.map index = List.range 80 := by
  decide +kernel

end Kind

end Scriptlet
