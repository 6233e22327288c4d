import Scriptlet.Grammar.Reading
import Scriptlet.Tree.Basic

/-!
Reading expressions.

From the loosest to the tightest: assignment, which groups to the right; the binary levels, which
group to the left; power, which groups to the right; the operators in front of an operand; calls;
and primaries, which are literals, names and expressions in parentheses.
-/

namespace Scriptlet.Grammar

def maxArguments : Nat := 255

def assignmentOperators : List Kind :=
  [.equal, .plusEqual, .minusEqual, .starEqual, .slashEqual, .percentEqual]

def binaryLevels : List (List Kind) :=
  [[.kwOr],
   [.kwAnd],
   [.equalEqual, .bangEqual],
   [.greater, .greaterEqual, .less, .lessEqual, .dotDot, .dotDotDot],
   [.plus, .minus],
   [.star, .slash, .percent]]

def frontOperators : List Kind :=
  [.bang, .kwNot, .minus]

/-- The node of a binary operator: its kind alone decides what sort of node it is. -/
def join (left : Expr) (op : Token) (right : Expr) : Expr :=
  match op.kind with
  | .kwOr | .kwAnd => .logical left op right
  | .dotDot => .range left op right true
  | .dotDotDot => .range left op right false
  | _ => .binary left op right

def leftChain (limit : Nat) (operators : List Kind) (operand : Parse Expr) : Parse Expr := do
  let round (left : Expr) : Parse (Round Expr Expr) := do
    if operators.contains (← currentKind) then
      let op ← advance
      return .again (join left op (← operand))
    else
      return .done left
  rounds round limit (← operand)

def binary (limit : Nat) (operand : Parse Expr) : List (List Kind) → Parse Expr
  | [] => operand
  | operators :: tighter => leftChain limit operators (binary limit operand tighter)

/-- Joins operands from the right; those before the last stand in reverse order. -/
def joinRight (before : List (Expr × Token)) (last : Expr) : Expr :=
  before.foldl (fun right (left, op) => .binary left op right) last

def power (limit : Nat) (operand : Parse Expr) : Parse Expr := do
  let round (read : List (Expr × Token) × Expr) :
      Parse (Round (List (Expr × Token) × Expr) Expr) := do
    let (before, last) := read
    if (← currentKind) = .starStar then
      let op ← advance
      return .again ((last, op) :: before, ← operand)
    else
      return .done (joinRight before last)
  rounds round limit ([], ← operand)

/-- Operators in front of an operand, the last of them first. -/
def front (limit : Nat) : Parse (List Token) :=
  let round (ops : List Token) : Parse (Round (List Token) (List Token)) := do
    if frontOperators.contains (← currentKind) then
      return .again ((← advance) :: ops)
    else
      return .done ops
  rounds round limit []

def unary (limit : Nat) (operand : Parse Expr) : Parse Expr := do
  let ops ← front limit
  return ops.foldl (fun e op => .unary op e) (← operand)

def arguments (limit : Nat) (expr : Parse Expr) : Parse (List Expr) := do
  if (← currentKind) = .rightParen then
    return []
  else
    let check (count : Nat) : Parse Unit := do
      if maxArguments ≤ count then report (← current) .tooManyArguments
    commaSeparated limit check expr

def primary (expr : Parse Expr) : Parse Expr := do
  let token ← current
  match token.kind with
  | .kwFalse => let _ ← advance; return .literal (.bool false)
  | .kwTrue => let _ ← advance; return .literal (.bool true)
  | .kwNil => let _ ← advance; return .literal .nil
  | .integer | .float | .string =>
      let _ ← advance
      return .literal (token.literal.getD .nil)
  | .identifier => let _ ← advance; return .var token
  | .leftParen =>
      let _ ← advance
      let inner ← expr
      let _ ← expect .rightParen .closingGroup
      return .group inner
  | _ => fail .expression

def call (limit : Nat) (expr : Parse Expr) : Parse Expr := do
  let round (callee : Expr) : Parse (Round Expr Expr) := do
    if ← eat .leftParen then
      let args ← arguments limit expr
      let paren ← expect .rightParen .closingArguments
      return .again (.call callee paren args)
    else
      return .done callee
  rounds round limit (← primary expr)

def operation (limit : Nat) (expr : Parse Expr) : Parse Expr :=
  binary limit (power limit (unary limit (call limit expr))) binaryLevels

/-- Anything but a name is refused as a target once the value has been read. -/
def assignment (limit : Nat) (expr : Parse Expr) : Parse Expr := do
  let target ← operation limit expr
  if assignmentOperators.contains (← currentKind) then
    let op ← advance
    let value ← expr
    match target with
    | .var name => return .assign name op value
    | other =>
        report op .assignmentTarget
        return other
  else
    return target

def expression (limit : Nat) : Parse Expr :=
  nested (assignment limit) limit

end Scriptlet.Grammar
