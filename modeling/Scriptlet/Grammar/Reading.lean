import Scriptlet.Grammar.Error

/-!
Reading a list of tokens from its front.

A reading stands at one token and knows the tokens ahead of it; what lies behind is gone.  It never
moves past an end mark.  The errors found on the way stay with it whether a construct is read or
given up.

Constructs that repeat or contain themselves are built with `rounds` and `nested`.  Each further
round and each level of nesting takes at least one token, so the number of tokens bounds both.
-/

namespace Scriptlet.Grammar

structure Reading where
  current : Token
  ahead : List Token
  errors : Array SyntaxError
  deriving DecidableEq, Repr

abbrev Parse (α : Type) : Type :=
  EStateM SyntaxError Reading α

namespace Reading

def advance (r : Reading) : Reading :=
  match r.current.kind, r.ahead with
  | .eof, _ => r
  | _, [] => r
  | _, next :: rest => { r with current := next, ahead := rest }

def pastSeparators (current : Token) : List Token → Token × List Token
  | [] => (current, [])
  | next :: rest =>
      if current.kind.isSeparator then pastSeparators next rest else (current, next :: rest)

def skipSeparators (r : Reading) : Reading :=
  let (current, ahead) := pastSeparators r.current r.ahead
  { r with current := current, ahead := ahead }

/-- The next place after `previous` where a statement may start: after a separator, before a token
of `starts`, or at an end mark. -/
def nextStart (starts : KindSet) (previous current : Token) : List Token → Token × List Token
  | [] => (current, [])
  | next :: rest =>
      if current.kind = .eof || previous.kind.isSeparator || starts.contains current.kind then
        (current, next :: rest)
      else nextStart starts current next rest

/-- Leaves the current token and goes on to where a statement may start. -/
def recover (starts : KindSet) (r : Reading) : Reading :=
  let next := r.advance
  let (current, ahead) := nextStart starts r.current next.current next.ahead
  { next with current := current, ahead := ahead }

def record (r : Reading) (e : SyntaxError) : Reading :=
  { r with errors := r.errors.push e }

end Reading

/-! ## Single tokens -/

def current : Parse Token := do
  return (← get).current

def currentKind : Parse Kind := do
  return (← get).current.kind

def advance : Parse Token := do
  let token ← current
  modify Reading.advance
  return token

def fail {α : Type} (cause : Cause) : Parse α := do
  throw ⟨← current, cause⟩

def report (token : Token) (cause : Cause) : Parse Unit :=
  modify fun r => r.record ⟨token, cause⟩

def eat (kind : Kind) : Parse Bool := do
  if (← currentKind) = kind then
    let _ ← advance
    return true
  else
    return false

def expect (kind : Kind) (cause : Cause) : Parse Token := do
  if (← currentKind) = kind then advance else fail cause

def skipSeparators : Parse Unit :=
  modify Reading.skipSeparators

/-! ## Repetition and nesting -/

inductive Round (α β : Type) where
  | again (a : α)
  | done (b : β)
  deriving Repr

def rounds {α β : Type} (step : α → Parse (Round α β)) : Nat → α → Parse β
  | 0, _ => fail .outOfFuel
  | limit + 1, a => do
      match ← step a with
      | .again a' => rounds step limit a'
      | .done b => return b

/-- A construct that contains itself, to a depth of at most `limit`. -/
def nested {α : Type} (body : Parse α → Parse α) : Nat → Parse α
  | 0 => fail .outOfFuel
  | limit + 1 => fun r => body (nested body limit) r

/-- One item, and one more after each comma.  `check` looks at the number of items read before each
item. -/
def commaSeparated {α : Type} (limit : Nat) (check : Nat → Parse Unit) (item : Parse α) :
    Parse (List α) :=
  let round (items : Array α) : Parse (Round (Array α) (List α)) := do
    check items.size
    let items := items.push (← item)
    if ← eat .comma then return .again items else return .done items.toList
  rounds round limit #[]

end Scriptlet.Grammar
