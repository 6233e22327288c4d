import Scriptlet.Diagnostic.Basic
import Scriptlet.Token.KindSet

/-!
Syntax errors: a cause, and the token at which it was found.
-/

namespace Scriptlet.Grammar

inductive Construct where
  | functionBody
  | ifStatement
  | unlessStatement
  | block
  | loopBody
  | caseStatement
  deriving DecidableEq, Repr

def Construct.text : Construct → String
  | .functionBody => "function body"
  | .ifStatement => "if statement"
  | .unlessStatement => "unless statement"
  | .block => "block"
  | .loopBody => "loop body"
  | .caseStatement => "case statement"

/-- What is missing or wrong.  `outOfFuel` means that reading was cut off. -/
inductive Cause where
  | expression
  | closingGroup
  | closingArguments
  | closingParameters
  | tooManyArguments
  | tooManyParameters
  | assignmentTarget
  | functionName
  | parameterName
  | variableName
  | assignmentSign
  | valueCount (expected : Nat)
  | loopVariable
  | inAfterVariable
  | doAfterLoop
  | whenAfterSubject
  | endAfter (construct : Construct)
  | unclosed (closers : KindSet) (opener : String) (line : Nat)
  | terminator
  | outOfFuel
  deriving DecidableEq, Repr

def Cause.message : Cause → String
  | .expression => "Expect expression."
  | .closingGroup => "Expect ')' after expression."
  | .closingArguments => "Expect ')' after arguments."
  | .closingParameters => "Expect ')' after parameters."
  | .tooManyArguments => "Can't have more than 255 arguments."
  | .tooManyParameters => "Can't have more than 255 parameters."
  | .assignmentTarget => "Invalid assignment target."
  | .functionName => "Expect function name."
  | .parameterName => "Expect parameter name."
  | .variableName => "Expect variable name."
  | .assignmentSign => "Expect '=' after variable names in parallel assignment."
  | .valueCount expected =>
      "Expect " ++ toString expected ++
        " values on the right-hand side of parallel assignment."
  | .loopVariable => "Expect loop variable name."
  | .inAfterVariable => "Expect 'in' after loop variable."
  | .doAfterLoop => "Expect 'do' after 'loop'."
  | .whenAfterSubject => "Expect 'when' after case subject."
  | .endAfter construct => "Expect 'end' after " ++ construct.text ++ "."
  | .unclosed closers opener line =>
      "Expect " ++ closers.expected ++ " to close '" ++ opener ++ "' from line " ++
        toString line ++ "."
  | .terminator => "Expect newline after statement."
  | .outOfFuel => "out of fuel"

structure SyntaxError where
  token : Token
  cause : Cause
  deriving DecidableEq, Repr

def SyntaxError.diagnostic (e : SyntaxError) : Diagnostic :=
  ⟨e.token.line, Location.ofToken e.token, e.cause.message⟩

end Scriptlet.Grammar
