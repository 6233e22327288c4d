import Scriptlet.Machine.State
import Scriptlet.Value.Operator

/-!
Running programs.

Expressions are evaluated to values, statements are executed to a flow, which says how they ended.
The meaning of each construct is given in terms of two functions for its parts; `evaluate` and
`execute` close this circle with fuel, of which every level of nesting, every call and every round
of a loop takes a share.
-/

namespace Scriptlet

inductive Flow where
  | normal
  | broke (line : Nat)
  | next (line : Nat)
  | returned (v : Value)
  deriving Repr, Inhabited

/-- What a loop ends with after its body has run, unless it goes on. -/
def Flow.afterBody : Flow → Option Flow
  | .normal | .next _ => none
  | .broke _ => some .normal
  | .returned v => some (.returned v)

namespace HostFunction

def call (f : HostFunction) (settings : Settings) (moment : Nat) (args : List Value) :
    Except Failure Value :=
  match f.code with
  | .clock => .ok (.float (settings.clock moment))
  | .custom id => settings.host id moment args

end HostFunction

namespace Run

/-! ## Lists of parts -/

def evaluateAll (eval : Expr → Run Value) : List Expr → Run (List Value)
  | [] => return []
  | e :: rest => do
      let v ← eval e
      return v :: (← evaluateAll eval rest)

def defineAll : List (Token × Value) → Run Unit
  | [] => return ()
  | (name, v) :: rest => do
      define name v
      defineAll rest

def executeAll (exec : Stmt → Run Flow) : List Stmt → Run Flow
  | [] => return .normal
  | s :: rest => do
      match ← exec s with
      | .normal => executeAll exec rest
      | flow => return flow

/-! ## Expressions -/

def callClosure (settings : Settings) (exec : Stmt → Run Flow) (f : Closure) (args : List Value)
    (line : Nat) : Run Value := do
  if settings.maxCallDepth ≤ (← get).depth then
    failAt line .stackTooDeep
  else
    let flow ← inCall f <| inScope do
      defineAll (f.params.zip args)
      executeAll exec f.body
    match flow with
    | .normal => return .nil
    | .returned v => return v
    | .broke line => failAt line .invalidBreak
    | .next line => failAt line .invalidNext

def callHost (settings : Settings) (f : HostFunction) (args : List Value) (line : Nat) :
    Run Value := do
  let moment ← passMoment
  ofExcept line (f.call settings moment args)

def call (settings : Settings) (exec : Stmt → Run Flow) (callee : Value) (args : List Value)
    (line : Nat) : Run Value :=
  match callee with
  | .host f =>
      if args.length = f.arity then callHost settings f args line
      else failAt line (.arityMismatch f.arity args.length)
  | .closure f =>
      if args.length = f.params.length then callClosure settings exec f args line
      else failAt line (.arityMismatch f.params.length args.length)
  | _ => failAt line .notCallable

/-- A plain assignment binds the name in the current scope; a compound one changes the binding that
it reads. -/
def assignment (name op : Token) (v : Value) : Run Value := do
  if op.kind = .equal then
    define name v
    return v
  else
    match BinaryOp.ofCompound? op.kind with
    | none => failAt op.line (.unsupportedOperator op.lexeme)
    | some binary =>
        let old ← lookup name
        let new ← ofExcept op.line (Value.binary binary old v)
        assign name new
        return new

/-- An `or` is decided by a true left side, any other logical operator by a false one. -/
def decides (op : Token) (left : Value) : Bool :=
  if op.kind = .kwOr then left.isTruthy else !left.isTruthy

def evaluateWith (settings : Settings) (eval : Expr → Run Value) (exec : Stmt → Run Flow) :
    Expr → Run Value
  | .literal value => return .ofLiteral value
  | .group inner => eval inner
  | .unary op operand => do
      let v ← eval operand
      match UnaryOp.ofKind? op.kind with
      | none => failAt op.line (.unsupportedOperator op.lexeme)
      | some unary => ofExcept op.line (Value.unary unary v)
  | .binary left op right => do
      let l ← eval left
      let r ← eval right
      match BinaryOp.ofKind? op.kind with
      | none => failAt op.line (.unsupportedOperator op.lexeme)
      | some binary => ofExcept op.line (Value.binary binary l r)
  | .logical left op right => do
      let l ← eval left
      if decides op l then return l else eval right
  | .range left op right inclusive => do
      let l ← eval left
      let r ← eval right
      ofExcept op.line (Value.range l r inclusive)
  | .var name => lookup name
  | .assign name op value => do
      assignment name op (← eval value)
  | .call callee paren arguments => do
      let f ← eval callee
      let args ← evaluateAll eval arguments
      call settings exec f args paren.line
  | .sequence left right => do
      let _ ← eval left
      eval right

/-! ## Statements -/

def loop (round : Run (Option Flow)) : Nat → Run Flow
  | 0 => throw .outOfFuel
  | fuel + 1 => do
      match ← round with
      | none => loop round fuel
      | some flow => return flow

def conditionalRound (eval : Expr → Run Value) (exec : Stmt → Run Flow) (wanted : Bool)
    (condition : Expr) (body : List Stmt) : Run (Option Flow) := do
  if (← eval condition).isTruthy = wanted then
    return (← inScope (executeAll exec body)).afterBody
  else
    return some .normal

def forEach (exec : Stmt → Run Flow) (name : Token) (body : List Stmt) :
    List Value → Run Flow
  | [] => return .normal
  | item :: rest => do
      let flow ← inScope do
        define name item
        executeAll exec body
      match flow.afterBody with
      | none => forEach exec name body rest
      | some flow => return flow

def printAll (settings : Settings) (eval : Expr → Run Value) (ending : String) :
    List Expr → Run Unit
  | [] => return ()
  | e :: rest => do
      let v ← eval e
      print settings (v.display ++ ending)
      printAll settings eval ending rest

/-- Without values `puts` prints an empty line and `print` nothing. -/
def printStatement (settings : Settings) (eval : Expr → Run Value) (values : List Expr)
    (newline : Bool) : Run Unit :=
  if values.isEmpty && newline then print settings "\n"
  else printAll settings eval (if newline then "\n" else "") values

def orElse (exec : Stmt → Run Flow) : Option (List Stmt) → Run Flow
  | none => return .normal
  | some body => executeAll exec body

def firstTrue (eval : Expr → Run Value) (exec : Stmt → Run Flow)
    (otherwise : Option (List Stmt)) : List (Expr × List Stmt) → Run Flow
  | [] => orElse exec otherwise
  | (condition, body) :: rest => do
      if (← eval condition).isTruthy then executeAll exec body
      else firstTrue eval exec otherwise rest

/-- Values match if they are equal or are displayed alike. -/
def caseMatches (subject candidate : Value) : Bool :=
  subject.equals candidate || subject.display = candidate.display

def firstMatch (eval : Expr → Run Value) (exec : Stmt → Run Flow)
    (otherwise : Option (List Stmt)) (subject : Value) : List (Expr × List Stmt) → Run Flow
  | [] => orElse exec otherwise
  | (condition, body) :: rest => do
      if caseMatches subject (← eval condition) then executeAll exec body
      else firstMatch eval exec otherwise subject rest

def executeWith (settings : Settings) (fuel : Nat) (eval : Expr → Run Value)
    (exec : Stmt → Run Flow) : Stmt → Run Flow
  | .expr e => do
      let _ ← eval e
      return .normal
  | .print _ values newline => do
      printStatement settings eval values newline
      return .normal
  | .assign names values => do
      defineAll (names.zip (← evaluateAll eval values))
      return .normal
  | .block body => inScope (executeAll exec body)
  | .ifDo conditions branches otherwise =>
      firstTrue eval exec otherwise (conditions.zip branches)
  | .unlessDo condition body otherwise => do
      if (← eval condition).isTruthy then orElse exec otherwise else executeAll exec body
  | .whileDo condition body => loop (conditionalRound eval exec true condition body) fuel
  | .untilDo condition body => loop (conditionalRound eval exec false condition body) fuel
  | .loopDo body => inScope (loop (Flow.afterBody <$> executeAll exec body) fuel)
  | .forDo name iterable body => do
      match ← eval iterable with
      | .list items => forEach exec name body items
      | other => failAt name.line (.notIterable other.typeName)
  | .caseDo subject conditions branches otherwise => do
      firstMatch eval exec otherwise (← eval subject) (conditions.zip branches)
  | .define name params body => do
      define name (← makeClosure name params body)
      return .normal
  | .returnFrom _ value =>
      match value with
      | none => return .returned .nil
      | some e => return .returned (← eval e)
  | .breakLoop keyword => return .broke keyword.line
  | .nextRound keyword => return .next keyword.line

mutual

def evaluate (settings : Settings) : Nat → Expr → Run Value
  | 0, _ => throw .outOfFuel
  | fuel + 1, e => evaluateWith settings (evaluate settings fuel) (execute settings fuel) e

def execute (settings : Settings) : Nat → Stmt → Run Flow
  | 0, _ => throw .outOfFuel
  | fuel + 1, s =>
      executeWith settings fuel (evaluate settings fuel) (execute settings fuel) s

end

/-! ## Programs -/

/-- Runs a program.  A `return` ends it; a `break` or `next` outside of any loop is an error. -/
def interpretWith (exec : Stmt → Run Flow) : List Stmt → Run Unit
  | [] => return ()
  | s :: rest => do
      match ← exec s with
      | .normal => interpretWith exec rest
      | .returned _ => return ()
      | .broke line => failAt line .invalidBreak
      | .next line => failAt line .invalidNext

def interpret (settings : Settings) (fuel : Nat) (program : List Stmt) : Run Unit :=
  interpretWith (execute settings fuel) program

end Run

end Scriptlet
