import Scriptlet.Grammar.Expr

/-!
Reading statements.

Simple statements end at a separator; compound statements are closed by `end`.  A statement with a
syntax error is dropped, its error goes on record and reading goes on where the next statement may
start, so no error ever escapes a block.
-/

namespace Scriptlet.Grammar

/-! ## What may follow a block -/

def closesBody : KindSet :=
  .ofList [.kwEnd]

def closesIfArm : KindSet :=
  .ofList [.kwEnd, .kwElsif, .kwElse]

def closesUnlessBody : KindSet :=
  .ofList [.kwEnd, .kwElse]

def closesWhenArm : KindSet :=
  .ofList [.kwEnd, .kwWhen, .kwElse]

def closesBlock : KindSet :=
  closesIfArm.insert .kwWhen

def startsStatement : KindSet :=
  closesBlock.union <| .ofList
    [.kwDef, .kwIf, .kwUnless, .kwWhile, .kwUntil, .kwFor, .kwLoop, .kwCase, .kwBegin, .kwPrint,
     .kwPuts, .kwReturn, .kwBreak, .kwNext]

/-! ## Ends of simple statements -/

def atTerminator : Parse Bool := do
  let kind ← currentKind
  return kind.isSeparator || kind = .eof || closesBlock.contains kind

def terminator : Parse Unit := do
  let kind ← currentKind
  if kind.isSeparator then
    let _ ← advance
  else if kind = .eof || closesBlock.contains kind then
    return ()
  else
    fail .terminator

/-! ## Blocks -/

/-- One statement; if it has a syntax error, nothing remains of it but the error. -/
def declaration (stmt : Parse Stmt) : Parse (Option Stmt) := fun r =>
  match stmt r with
  | .ok s r => .ok (some s) r
  | .error e r => .ok none ((r.record e).recover startsStatement)

def block (limit : Nat) (stmt : Parse Stmt) (closers : KindSet) (opener : Token) :
    Parse (List Stmt) :=
  let round (read : Array Stmt) : Parse (Round (Array Stmt) (List Stmt)) := do
    skipSeparators
    let kind ← currentKind
    if closers.contains kind then
      return .done read.toList
    else if kind = .eof then
      fail (.unclosed closers opener.lexeme opener.line)
    else
      match ← declaration stmt with
      | some s => return .again (read.push s)
      | none => return .again read
  rounds round limit #[]

def closedBody (limit : Nat) (stmt : Parse Stmt) (opener : Token) (construct : Construct) :
    Parse (List Stmt) := do
  let body ← block limit stmt closesBody opener
  let _ ← expect .kwEnd (.endAfter construct)
  return body

def otherwise (limit : Nat) (stmt : Parse Stmt) (opener : Token) (construct : Construct) :
    Parse (Option (List Stmt)) := do
  let hasElse ← eat .kwElse
  let body ← if hasElse then some <$> block limit stmt closesBody opener else pure none
  let _ ← expect .kwEnd (.endAfter construct)
  return body

/-! ## Definitions -/

def parameters (limit : Nat) : Parse (List Token) :=
  let round (params : Array Token) : Parse (Round (Array Token) (List Token)) := do
    if (← currentKind) = .identifier then
      if maxArguments ≤ params.size then
        report (← current) .tooManyParameters
      let params := params.push (← advance)
      if ← eat .comma then
        if (← currentKind) = .identifier then
          return .again params
        else
          fail .parameterName
      else
        return .done params.toList
    else
      return .done params.toList
  rounds round limit #[]

def definition (limit : Nat) (stmt : Parse Stmt) : Parse Stmt := do
  let keyword ← advance
  let name ← expect .identifier .functionName
  let parenthesized ← eat .leftParen
  let params ← parameters limit
  if parenthesized then
    let _ ← expect .rightParen .closingParameters
  return .define name params (← closedBody limit stmt keyword .functionBody)

/-! ## Assignments to several names -/

def moreNamesThenEqual : List Token → Bool
  | comma :: name :: rest =>
      comma.kind = .comma && name.kind = .identifier &&
        (rest.head?.any (·.kind = .equal) || moreNamesThenEqual rest)
  | _ => false

/-- A name starts such an assignment only if at least one more name comes before the sign. -/
def atParallelAssignment : Parse Bool := do
  let r ← get
  return r.current.kind = .identifier && moreNamesThenEqual r.ahead

def parallelAssignment (limit : Nat) (expr : Parse Expr) : Parse Stmt := do
  let names ← commaSeparated limit (fun _ => pure ()) (expect .identifier .variableName)
  let sign ← expect .equal .assignmentSign
  let values ← commaSeparated limit (fun _ => pure ()) expr
  if values.length = names.length then
    terminator
    return .assign names values
  else
    throw ⟨sign, .valueCount names.length⟩

/-! ## Branches -/

def ifStatement (limit : Nat) (expr : Parse Expr) (stmt : Parse Stmt) : Parse Stmt := do
  let keyword ← advance
  let round (read : Array Expr × Array (List Stmt)) :
      Parse (Round (Array Expr × Array (List Stmt)) (List Expr × List (List Stmt))) := do
    let conditions := read.1.push (← expr)
    let _ ← eat .kwThen
    let branches := read.2.push (← block limit stmt closesIfArm keyword)
    if ← eat .kwElsif then return .again (conditions, branches)
    else return .done (conditions.toList, branches.toList)
  let (conditions, branches) ← rounds round limit (#[], #[])
  return .ifDo conditions branches (← otherwise limit stmt keyword .ifStatement)

def unlessStatement (limit : Nat) (expr : Parse Expr) (stmt : Parse Stmt) : Parse Stmt := do
  let keyword ← advance
  let condition ← expr
  let _ ← eat .kwThen
  let body ← block limit stmt closesUnlessBody keyword
  return .unlessDo condition body (← otherwise limit stmt keyword .unlessStatement)

def caseStatement (limit : Nat) (expr : Parse Expr) (stmt : Parse Stmt) : Parse Stmt := do
  let keyword ← advance
  let subject ← expr
  skipSeparators
  let round (read : Array Expr × Array (List Stmt)) :
      Parse (Round (Array Expr × Array (List Stmt)) (List Expr × List (List Stmt))) := do
    if ← eat .kwWhen then
      let conditions := read.1.push (← expr)
      let _ ← eat .kwThen
      return .again (conditions, read.2.push (← block limit stmt closesWhenArm keyword))
    else
      return .done (read.1.toList, read.2.toList)
  let (conditions, branches) ← rounds round limit (#[], #[])
  if conditions.isEmpty then
    fail .whenAfterSubject
  else
    return .caseDo subject conditions branches (← otherwise limit stmt keyword .caseStatement)

/-! ## Loops and blocks -/

def beginBlock (limit : Nat) (stmt : Parse Stmt) : Parse Stmt := do
  let keyword ← advance
  return .block (← closedBody limit stmt keyword .block)

def conditionalLoop (limit : Nat) (expr : Parse Expr) (stmt : Parse Stmt) : Parse Stmt := do
  let keyword ← advance
  let condition ← expr
  let _ ← eat .kwDo
  let body ← closedBody limit stmt keyword .loopBody
  if keyword.kind = .kwWhile then
    return .whileDo condition body
  else
    return .untilDo condition body

def loopStatement (limit : Nat) (stmt : Parse Stmt) : Parse Stmt := do
  let keyword ← advance
  let _ ← expect .kwDo .doAfterLoop
  return .loopDo (← closedBody limit stmt keyword .loopBody)

def forStatement (limit : Nat) (expr : Parse Expr) (stmt : Parse Stmt) : Parse Stmt := do
  let keyword ← advance
  let name ← expect .identifier .loopVariable
  let _ ← expect .kwIn .inAfterVariable
  let iterable ← expr
  let _ ← eat .kwDo
  return .forDo name iterable (← closedBody limit stmt keyword .loopBody)

/-! ## Simple statements -/

def printStatement (limit : Nat) (expr : Parse Expr) : Parse Stmt := do
  let keyword ← advance
  let newline := keyword.kind = .kwPuts
  let values ← if ← atTerminator then pure [] else commaSeparated limit (fun _ => pure ()) expr
  terminator
  return .print keyword values newline

def returnStatement (expr : Parse Expr) : Parse Stmt := do
  let keyword ← advance
  let value ← if ← atTerminator then pure none else some <$> expr
  terminator
  return .returnFrom keyword value

def sequenceOf : List Expr → Expr
  | [] => .literal .nil
  | first :: rest => rest.foldl .sequence first

def expressionStatement (limit : Nat) (expr : Parse Expr) : Parse Stmt := do
  let values ← commaSeparated limit (fun _ => pure ()) expr
  terminator
  return .expr (sequenceOf values)

/-! ## Programs -/

def statementWith (limit : Nat) (expr : Parse Expr) (stmt : Parse Stmt) : Parse Stmt := do
  if ← atParallelAssignment then
    parallelAssignment limit expr
  else
    match ← currentKind with
    | .kwDef => definition limit stmt
    | .kwUnless => unlessStatement limit expr stmt
    | .kwIf => ifStatement limit expr stmt
    | .kwPrint | .kwPuts => printStatement limit expr
    | .kwBegin => beginBlock limit stmt
    | .kwWhile | .kwUntil => conditionalLoop limit expr stmt
    | .kwReturn => returnStatement expr
    | .kwBreak =>
        let keyword ← advance
        terminator
        return .breakLoop keyword
    | .kwNext =>
        let keyword ← advance
        terminator
        return .nextRound keyword
    | .kwLoop => loopStatement limit stmt
    | .kwFor => forStatement limit expr stmt
    | .kwCase => caseStatement limit expr stmt
    | _ => expressionStatement limit expr

def statement (limit : Nat) : Parse Stmt :=
  nested (statementWith limit (expression limit)) limit

def program (limit : Nat) : Parse (List Stmt) :=
  let round (read : Array Stmt) : Parse (Round (Array Stmt) (List Stmt)) := do
    skipSeparators
    if (← currentKind) = .eof then
      return .done read.toList
    else
      match ← declaration (statement limit) with
      | some s => return .again (read.push s)
      | none => return .again read
  rounds round limit #[]

structure Parsed where
  statements : List Stmt
  errors : List SyntaxError
  deriving Repr, Inhabited

def parse : List Token → Parsed
  | [] => ⟨[], []⟩
  | first :: ahead =>
      match program (ahead.length + 2) ⟨first, ahead, #[]⟩ with
      | .ok statements r => ⟨statements, r.errors.toList⟩
      | .error e r => ⟨[], (r.record e).errors.toList⟩

end Scriptlet.Grammar
