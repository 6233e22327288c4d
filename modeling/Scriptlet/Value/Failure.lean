import Scriptlet.Value.Text

/-!
Runtime errors: what can go wrong while a program runs, and on which line it did.
-/

namespace Scriptlet

inductive Failure where
  | undefinedVariable (name : String)
  | typeMismatch (op left right : String)
  | operandNotNumber (op : String)
  | unsupportedOperator (op : String)
  | notCallable
  | arityMismatch (expected given : Nat)
  | constantReassignment (name : String)
  | dynamicConstant
  | notIterable (type : String)
  | invalidBreak
  | invalidNext
  | divisionByZero
  | integerOverflow (op : String)
  | negativeArgument
  | stackTooDeep
  | outOfMemory
  deriving DecidableEq, Repr, Inhabited

def Failure.message : Failure → String
  | .undefinedVariable name => "Undefined variable '" ++ name ++ "'."
  | .typeMismatch op left right =>
      "Unsupported operands for '" ++ op ++ "': " ++ left ++ " and " ++ right ++ "."
  | .operandNotNumber op => "Operand of '" ++ op ++ "' must be a number."
  | .unsupportedOperator op => "Unsupported operator '" ++ op ++ "'."
  | .notCallable => "Can only call functions."
  | .arityMismatch expected given =>
      "Expected " ++ toString expected ++ " arguments but got " ++ toString given ++ "."
  | .constantReassignment name => "Constant '" ++ name ++ "' cannot be reassigned."
  | .dynamicConstant => "dynamic constant assignment"
  | .notIterable type => "Can only iterate over a list, got " ++ type ++ "."
  | .invalidBreak => "invalid break"
  | .invalidNext => "invalid next"
  | .divisionByZero => "divided by 0"
  | .integerOverflow op => "integer overflow in " ++ op
  | .negativeArgument => "negative argument"
  | .stackTooDeep => "stack level too deep"
  | .outOfMemory => "failed to allocate memory"

structure RuntimeError where
  failure : Failure
  line : Nat
  deriving DecidableEq, Repr, Inhabited

def RuntimeError.text (e : RuntimeError) : String :=
  e.failure.message ++ "\n[line " ++ toString e.line ++ "]"

end Scriptlet
