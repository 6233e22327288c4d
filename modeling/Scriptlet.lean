import Scriptlet.Main
import Scriptlet.Proofs.Grammar.Advance
import Scriptlet.Proofs.Grammar.CommaSeparated
import Scriptlet.Proofs.Grammar.ExprComplete
import Scriptlet.Proofs.Grammar.ExprSound
import Scriptlet.Proofs.Grammar.LineComplete
import Scriptlet.Proofs.Grammar.Precedence
import Scriptlet.Proofs.Grammar.Reads
import Scriptlet.Proofs.Grammar.Rendering
import Scriptlet.Proofs.Grammar.RoundTrip
import Scriptlet.Proofs.Grammar.StmtComplete
import Scriptlet.Proofs.Grammar.StmtSound
import Scriptlet.Proofs.Machine.Balance
import Scriptlet.Proofs.Machine.Compatible
import Scriptlet.Proofs.Scope.Chain
import Scriptlet.Proofs.Scope.Frames
import Scriptlet.Proofs.Scope.GlobalName
import Scriptlet.Token.KindSet
import Scriptlet.Proofs.Token.KindSet
import Scriptlet.Proofs.Source.Piece
import Scriptlet.Proofs.Source.Cursor
import Scriptlet.Proofs.Source.Round
import Scriptlet.Proofs.Source.Jump
import Scriptlet.Proofs.Source.Scanner
import Scriptlet.Proofs.Source.Append
import Scriptlet.Proofs.Grammar.Pairing
import Scriptlet.Proofs.Grammar.PairedExpr
import Scriptlet.Proofs.Grammar.PairedStmt
import Scriptlet.Proofs.Grammar.Append
import Scriptlet.Proofs.Value.Alike
import Scriptlet.Proofs.Machine.Simulation
import Scriptlet.Proofs.Scope.Alike
import Scriptlet.Proofs.Machine.Alike
import Scriptlet.Proofs.Session.Append
import Scriptlet.Proofs.Machine.Isolation
import Scriptlet.Proofs.Tree.Parts
import Scriptlet.Proofs.Value.Result
import Scriptlet.Proofs.Machine.Regime
import Scriptlet.Proofs.Machine.Bodies
import Scriptlet.Proofs.Machine.Start
import Scriptlet.Proofs.Machine.Cut
import Scriptlet.Proofs.Machine.Fuel
import Scriptlet.Proofs.Machine.Depth
import Scriptlet.Proofs.Machine.Termination
import Scriptlet.Proofs.Scope.Constants
import Scriptlet.Proofs.Scope.Copies
import Scriptlet.Proofs.Session.Regime
import Scriptlet.Proofs.Session.Constants
import Scriptlet.Proofs.Grammar.Gives
import Scriptlet.Proofs.Grammar.Shape
import Scriptlet.Proofs.Session.Operators
import Scriptlet.Proofs.Source.Lines
import Scriptlet.Proofs.Source.Spacing
import Scriptlet.Proofs.Source.Tiling
import Scriptlet.Proofs.Diagnostic.Queue
import Scriptlet.Proofs.CommandLine
import Scriptlet.Proofs.Machine.Jumps
import Scriptlet.Proofs.Session.Jumps
import Scriptlet.Proofs.Tree.Tokens
import Scriptlet.Proofs.Machine.Lines
import Scriptlet.Proofs.Session.Lines
import Scriptlet.Proofs.Grammar.Total
import Scriptlet.Proofs.Grammar.Progress
import Scriptlet.Proofs.Diagnostic.Repetition
import Scriptlet.Proofs.Session.Reports
import Scriptlet.Proofs.Machine.Outer
import Scriptlet.Proofs.Text.Quoted
import Scriptlet.Proofs.Source.Spelling
import Scriptlet.Proofs.Source.Strings
import Scriptlet.Proofs.Value.Integer
import Scriptlet.Proofs.Value.Power
import Scriptlet.Proofs.Value.Range
import Scriptlet.Proofs.Value.Replication
import Scriptlet.Proofs.Scope.Local
import Scriptlet.Proofs.Session.Inspect
import Scriptlet.Proofs.Value.Equality
import Scriptlet.Proofs.Machine.Ending
import Scriptlet.Proofs.Machine.Negation
import Scriptlet.Proofs.Scope.Successive
import Scriptlet.Proofs.Machine.ParallelAssignment
import Scriptlet.Proofs.Grammar.OneLine
import Scriptlet.Proofs.Grammar.Recovery
import Scriptlet.Proofs.Diagnostic.Operations
import Scriptlet.Proofs.Diagnostic.LineOrder
import Scriptlet.Proofs.Grammar.OriginExpr
import Scriptlet.Proofs.Grammar.OriginStmt
import Scriptlet.Proofs.Grammar.Separators
import Scriptlet.Proofs.Number.Decimal
import Scriptlet.Proofs.Text.Escape
import Scriptlet.Proofs.Text.Sexp
import Scriptlet.Proofs.Source.Words
import Scriptlet.Proofs.Tree.Listing
import Scriptlet.Proofs.Grammar.Names
import Scriptlet.Proofs.Grammar.Legible
import Scriptlet.Proofs.Grammar.ReadBack
import Scriptlet.Proofs.Grammar.Listing
