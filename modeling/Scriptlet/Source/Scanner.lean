import Scriptlet.Number.Decimal
import Scriptlet.Source.Cursor
import Scriptlet.Source.Keyword
import Scriptlet.Source.Lexed
import Scriptlet.Text.Quoted

/-!
The scanner.

One round of the loop reads one token, one blank, one comment or one fault, by its first character.
Strings and comments are jumped through from one byte of interest to the next, and newlines are
counted wherever they are passed.  There is no result where a round would stop or cut a text inside
a character, nor where a loop would not end.

Lines are numbers without a bound here.  With lines of thirty-two bits the tokens and faults are the
same for every text with fewer newlines than such a line can count.
-/

namespace Scriptlet.Source

def isLetter (c : Char) : Bool :=
  c.isAlpha

def isDigit (c : Char) : Bool :=
  c.isDigit

def startsName (c : Char) : Bool :=
  isLetter c || c = '_' || c = '$'

def continuesName (c : Char) : Bool :=
  isLetter c || isDigit c || c = '_'

/-! ## Lines -/

/-- Line numbers as a scanner keeps them: the first, the next, and the one after some newlines. -/
class LineCounter (ν : Type) where
  first : ν
  next : ν → ν
  skip : ν → Nat → ν
  number : ν → Nat

instance : LineCounter Nat :=
  ⟨1, (· + 1), (· + ·), id⟩

/-- A word of thirty-two bits; more newlines than it can hold count as the most it can. -/
instance : LineCounter UInt32 :=
  ⟨1, (· + 1), fun line n => line + UInt32.ofNat (min n 4294967295), UInt32.toNat⟩

structure Scanner (ν : Type) (source : String) where
  cursor : Cursor source
  /-- Where the text of the token begins. -/
  start : Nat
  line : ν
  tokens : Array Token
  errors : Array LexError

namespace Scanner

def initial (ν : Type) [LineCounter ν] (source : String) : Scanner ν source :=
  ⟨Cursor.start source, 0, LineCounter.first, #[], #[]⟩

variable {ν : Type} [LineCounter ν] {source : String}

def errorAt (s : Scanner ν source) (line : ν) (fault : Fault) : Scanner ν source :=
  { s with errors := s.errors.push ⟨LineCounter.number line, fault⟩ }

def error (s : Scanner ν source) (fault : Fault) : Scanner ν source :=
  s.errorAt s.line fault

def push (s : Scanner ν source) (kind : Kind) (lexeme : String) (literal : Option Literal)
    (line : ν) : Scanner ν source :=
  { s with tokens := s.tokens.push ⟨kind, lexeme, literal, LineCounter.number line⟩ }

def add? (s : Scanner ν source) (kind : Kind) : Option (Scanner ν source) := do
  let lexeme ← s.cursor.sliceFrom? s.start
  return s.push kind lexeme none s.line

def addIf? (s : Scanner ν source) (next : Char) (matched otherwise : Kind) :
    Option (Scanner ν source) :=
  match s.cursor.eat? next with
  | some cursor => { s with cursor }.add? matched
  | none => s.add? otherwise

def addEither? (s : Scanner ν source) (first second : Char) (ofFirst ofSecond otherwise : Kind) :
    Option (Scanner ν source) :=
  match s.cursor.eat? first with
  | some cursor => { s with cursor }.add? ofFirst
  | none => s.addIf? second ofSecond otherwise

def points? (s : Scanner ν source) : Option (Scanner ν source) :=
  match s.cursor.eat? '.' with
  | none => s.add? .dot
  | some cursor => { s with cursor }.addIf? '.' .dotDotDot .dotDot

/-! ## Loops -/

inductive Round (ν : Type) (source : String) where
  | last (s : Scanner ν source)
  | more (s : Scanner ν source)

/-- Round after round up to the last.  What a round does hangs on the place of the cursor alone, so
that a loop which comes back to a place would never end. -/
def loop? (round : Scanner ν source → Option (Round ν source)) (s : Scanner ν source) :
    Option (Scanner ν source) :=
  match round s with
  | none => none
  | some (.last t) => some t
  | some (.more t) => if s.cursor.place < t.cursor.place then loop? round t else none
termination_by source.utf8ByteSize - s.cursor.place
decreasing_by
  have hle := t.cursor.place_le
  omega

/-! ## Jumps over several lines -/

def skip (s : Scanner ν source) (length : Nat) : Scanner ν source :=
  let skipped := s.cursor.skip length
  { s with cursor := skipped.2, line := LineCounter.skip s.line skipped.1 }

def skipToEnd (s : Scanner ν source) : Scanner ν source :=
  let skipped := s.cursor.skipToEnd
  { s with cursor := skipped.2, line := LineCounter.skip s.line skipped.1 }

/-- A word that a letter follows does not close the comment. -/
def blockCommentRound (openedOn : ν) (s : Scanner ν source) : Round ν source :=
  match s.cursor.findWord? ['=', 'e', 'n', 'd'] with
  | none => .last (s.skipToEnd.errorAt openedOn .unterminatedBlockComment)
  | some offset =>
      let s := s.skip (offset + 4)
      if isLetter s.cursor.current then .more s
      else .last { s with cursor := s.cursor.skipToNewline }

def blockComment? (openedOn : ν) (s : Scanner ν source) : Option (Scanner ν source) :=
  s.loop? fun s => some (s.blockCommentRound openedOn)

/-- After a lone equals sign.  The letters behind it are read to see whether they are `begin`; if
not, they are given back. -/
def equalOrBlockComment? (s : Scanner ν source) : Option (Scanner ν source) := do
  let wordStart := s.cursor.place
  let s := { s with cursor := s.cursor.eatWhile isLetter }
  let word ← s.cursor.sliceFrom? wordStart
  if word = "begin" then s.blockComment? s.line
  else
    let s := { s with cursor := ← s.cursor.rewind? wordStart }
    s.add? .equal

/-! ## Literals and words -/

def addString? (openedOn : ν) (s : Scanner ν source) : Option (Scanner ν source) := do
  let lexeme ← s.cursor.sliceFrom? s.start
  let body ← stretch? lexeme 1 (lexeme.utf8ByteSize - 1)
  let value := String.ofList (Text.Quoted.decode body.toList)
  return s.push .string lexeme (some (.str value)) openedOn

def stringRound? (quote : Char) (openedOn : ν) (s : Scanner ν source) : Option (Round ν source) :=
  match s.cursor.find? fun c => c = quote || c = '\\' || c = '\n' with
  | none => return .last (s.skipToEnd.errorAt openedOn .unterminatedString)
  | some offset => do
      let s := s.skip offset
      let found := s.cursor.current
      let s := { s with cursor := ← s.cursor.advance? }
      if found = '\\' then
        let line := if s.cursor.current = '\n' then LineCounter.next s.line else s.line
        let (_, cursor) ← s.cursor.advanceChar?
        return .more { s with cursor, line }
      else if found = '\n' then return .more { s with line := LineCounter.next s.line }
      else return .last (← s.addString? openedOn)

def string? (quote : Char) (openedOn : ν) (s : Scanner ν source) : Option (Scanner ν source) :=
  s.loop? (stringRound? quote openedOn)

def integer? (text : String) : Option Literal :=
  let n := Decimal.natOfDigits text.toList
  if n < Nat.pow 2 63 then some (.int (Int64.ofNat n)) else none

def float? (text : String) : Option Literal :=
  match text.toList.dropWhile isDigit with
  | '.' :: fraction => some (.float (Decimal.toFloat (text.toList.takeWhile isDigit) fraction))
  | _ => none

def addNumber? (isFloat : Bool) (s : Scanner ν source) : Option (Scanner ν source) := do
  if continuesName s.cursor.current then
    return { s with cursor := s.cursor.eatWhile continuesName }.error .invalidIdentifier
  let text ← s.cursor.sliceFrom? s.start
  match if isFloat then float? text else integer? text with
  | some literal =>
      return s.push (if isFloat then .float else .integer) text (some literal) s.line
  | none => return s.error .numberOutOfRange

def number? (s : Scanner ν source) : Option (Scanner ν source) := do
  let s := { s with cursor := s.cursor.eatWhile isDigit }
  if s.cursor.current = '.' && isDigit s.cursor.peek then
    let cursor ← s.cursor.advance?
    let s := { s with cursor := cursor.eatWhile isDigit }
    s.addNumber? true
  else s.addNumber? false

def identifier? (s : Scanner ν source) : Option (Scanner ν source) := do
  let s := { s with cursor := s.cursor.eatWhile continuesName }
  let text ← s.cursor.sliceFrom? s.start
  s.add? ((reserved? text).getD .identifier)

/-! ## The loop -/

def scanBehind? (s : Scanner ν source) (b : Char) : Option (Scanner ν source) :=
  match b with
  | '(' => s.add? .leftParen
  | ')' => s.add? .rightParen
  | '\x7b' => s.add? .leftBrace
  | '\x7d' => s.add? .rightBrace
  | '[' => s.add? .leftBracket
  | ']' => s.add? .rightBracket
  | ',' => s.add? .comma
  | ';' => s.add? .semicolon
  | '?' => s.add? .question
  | '^' => s.add? .caret
  | '~' => s.add? .tilde
  | '.' => s.points?
  | '-' => s.addIf? '=' .minusEqual .minus
  | '+' => s.addIf? '=' .plusEqual .plus
  | '/' => s.addIf? '=' .slashEqual .slash
  | '%' => s.addIf? '=' .percentEqual .percent
  | '!' => s.addIf? '=' .bangEqual .bang
  | ':' => s.addIf? ':' .colonColon .colon
  | '&' => s.addIf? '&' .kwAnd .ampersand
  | '|' => s.addIf? '|' .kwOr .pipe
  | '*' => s.addEither? '=' '*' .starEqual .starStar .star
  | '<' => s.addEither? '=' '<' .lessEqual .leftShift .less
  | '>' => s.addEither? '=' '>' .greaterEqual .rightShift .greater
  | '=' =>
      match s.cursor.eat? '=' with
      | some cursor => { s with cursor }.add? .equalEqual
      | none => s.equalOrBlockComment?
  | '#' => some { s with cursor := s.cursor.skipToNewline }
  | ' ' | '\r' | '\t' => some s
  | '\n' => do
      let s ← s.add? .newline
      return { s with line := LineCounter.next s.line }
  | '"' | '\'' => s.string? b s.line
  | b =>
      if isDigit b then s.number?
      else if startsName b then s.identifier?
      else some (s.error (.unexpectedCharacter b))

def scanToken? (s : Scanner ν source) : Option (Scanner ν source) :=
  let b := s.cursor.current
  if 128 ≤ b.toNat then do
    let (c, cursor) ← s.cursor.advanceChar?
    let s := { s with cursor }
    match c with
    | some c => return s.error (.unexpectedCharacter c)
    | none => return s
  else do
    let s := { s with cursor := ← s.cursor.advance? }
    s.scanBehind? b

def round? (s : Scanner ν source) : Option (Round ν source) :=
  if s.cursor.isEof then return .last s
  else return .more (← { s with start := s.cursor.place }.scanToken?)

def run? (s : Scanner ν source) : Option Lexed := do
  let s ← s.loop? round?
  return ⟨s.tokens.toList ++ [Token.eof (LineCounter.number s.line)], s.errors.toList⟩

end Scanner

def scan? (ν : Type) [LineCounter ν] (source : String) : Option Lexed :=
  (Scanner.initial ν source).run?

def lex (source : String) : Lexed :=
  (scan? Nat source).getD ⟨[], []⟩

end Scriptlet.Source
