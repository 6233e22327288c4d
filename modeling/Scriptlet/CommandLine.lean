import Scriptlet.Session.ExitCode
import Scriptlet.Tree.Listing

/-!
The command line.

The arguments say what is to be done; what it leads to is a function of the text of the file that
they name, or of the lines of standard input.  Without arguments the lines are run one by one in one
session, and an error costs no more than its line.
-/

namespace Scriptlet.CommandLine

structure Outcome where
  out : String
  err : String
  code : Nat
  deriving DecidableEq, Repr, Inhabited

inductive Action where
  | run
  | lex
  | parse
  deriving DecidableEq, Repr

inductive Command where
  | interactive
  | help
  | version
  | file (action : Action) (path : String)
  | misuse (usage : String)
  deriving DecidableEq, Repr

inductive ReadError where
  | notFound
  | directory
  | notText
  | other (message : String)
  deriving DecidableEq, Repr

def ReadError.message : ReadError → String
  | .notFound => "No such file or directory (os error 2)"
  | .directory => "Is a directory (os error 21)"
  | .notText => "stream did not contain valid UTF-8"
  | .other message => message

def Command.onFile (action : Action) (usage : String) : List String → Command
  | [path] => .file action path
  | _ => .misuse usage

/-- The first argument is a command, or else the only argument is a file to run. -/
def Command.ofArguments : List String → Command
  | [] => .interactive
  | first :: rest =>
      match first with
      | "help" | "--help" | "-h" => .help
      | "version" | "--version" | "-V" => .version
      | "run" => .onFile .run "Usage: garnet run <file>" rest
      | "lex" => .onFile .lex "Usage: garnet lex <file>" rest
      | "parse" => .onFile .parse "Usage: garnet parse <file>" rest
      | _ => .onFile .run "Usage: garnet [script]" (first :: rest)

def usageText : String :=
  "Garnet - a small Ruby-flavoured scripting language\n" ++
  "\n" ++
  "Usage: garnet [command] [file]\n" ++
  "\n" ++
  "Commands:\n" ++
  "  <file>               Run a script\n" ++
  "  run <file>           Run a script\n" ++
  "  lex <file>           Print the token stream\n" ++
  "  parse <file>         Print the syntax tree\n" ++
  "  help                 Show this help message\n" ++
  "  version              Show version information\n" ++
  "\n" ++
  "With no arguments, starts an interactive session.\n" ++
  "\n" ++
  "Environment:\n" ++
  "  GARNET_LOG=<filter>  Enable tracing, e.g. GARNET_LOG=garnet_eval=debug\n"

def versionText : String :=
  "Garnet 0.1.0\n"

/-! ## Files -/

def errorText : Except RunError Unit → String
  | .ok _ => ""
  | .error e => e.text ++ "\n"

def runText (clock : Nat → Float) (source : String) : Outcome :=
  let (result, session) := (Session.standard clock).run source
  ⟨session.takeOutput.1, errorText result, ExitCode.ofResult result⟩

def listingOutcome (listing : String) (ds : List Diagnostic) : Outcome :=
  let queue := (Diagnostic.Queue.empty .standard).extend ds
  ⟨listing, String.join (queue.toList.map fun d => d.text ++ "\n"),
    if queue.hasErrors then ExitCode.compileError else ExitCode.success⟩

def lexText (source : String) : Outcome :=
  let lexed := Source.lex source
  listingOutcome (Token.listing lexed.tokens) (lexed.errors.map Diagnostic.ofLexError)

def parseText (source : String) : Outcome :=
  let u := SourceUnit.ofSource source
  listingOutcome (Stmt.programListing u.parsed.statements) u.diagnostics

def onText (clock : Nat → Float) : Action → String → Outcome
  | .run => runText clock
  | .lex => lexText
  | .parse => parseText

def onFile (clock : Nat → Float) (action : Action) (path : String) :
    Except ReadError String → Outcome
  | .ok source => onText clock action source
  | .error e =>
      ⟨"", "error: cannot read '" ++ path ++ "': " ++ e.message ++ "\n", ExitCode.noInput⟩

/-! ## The interactive session -/

def prompt : String := "> "

def isLineEnd (c : Char) : Bool :=
  c = '\n' || c = '\r'

/-- A line ends in one newline, however it ended when it was read. -/
def normalLine (line : String) : String :=
  String.ofList ((line.toList.reverse.dropWhile isLineEnd).reverse ++ ['\n'])

def turn (s : Session) (line : String) : String × String × Session :=
  let (result, s) := s.run (normalLine line)
  let (out, s) := s.takeOutput
  (out, errorText result, s)

def interactFrom (s : Session) (out err : String) : List (Except ReadError String) → Outcome
  | [] => ⟨out ++ prompt ++ "\n", err, ExitCode.success⟩
  | .error e :: _ => ⟨out ++ prompt, err ++ "error: " ++ e.message ++ "\n", ExitCode.noInput⟩
  | .ok line :: rest =>
      let (lineOut, lineErr, s) := turn s line
      interactFrom s (out ++ prompt ++ lineOut) (err ++ lineErr) rest

def interact (clock : Nat → Float) (lines : List (Except ReadError String)) : Outcome :=
  interactFrom (Session.standard clock) "" "" lines

/-! ## Bytes -/

def decode (bytes : ByteArray) : Except ReadError String :=
  match String.fromUTF8? bytes with
  | some text => .ok text
  | none => .error .notText

def linesFrom (line : ByteArray) : List UInt8 → List ByteArray
  | [] => if line.isEmpty then [] else [line]
  | b :: rest =>
      if b = 10 then line.push b :: linesFrom .empty rest else linesFrom (line.push b) rest

def lines (input : ByteArray) : List ByteArray :=
  linesFrom .empty input.toList

def perform (clock : Nat → Float) (files : String → Except ReadError ByteArray) (input : ByteArray)
    (arguments : List String) : Outcome :=
  match Command.ofArguments arguments with
  | .interactive => interact clock ((lines input).map decode)
  | .help => ⟨usageText, "", ExitCode.success⟩
  | .version => ⟨versionText, "", ExitCode.success⟩
  | .file action path => onFile clock action path (files path >>= decode)
  | .misuse usage => ⟨"", usage ++ "\n", ExitCode.usage⟩

end Scriptlet.CommandLine
