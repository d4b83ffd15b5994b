import Lox.Cursor
import Lox.Main
import Lox.Token.Iteration
import Lox.Proofs.Stateful
import Lox.Proofs.Grammar
import Lox.Proofs.Descent
import Lox.Proofs.Parse.Levels
import Lox.Proofs.Parse.Binding
import Lox.Proofs.Parse.ExprCompleteness
import Lox.Proofs.Parse.ExprSoundness
import Lox.Proofs.Parse.Safety
import Lox.Proofs.Parse.StmtCompleteness
import Lox.Proofs.Parse.StmtSoundness
import Lox.Proofs.Parse.Advance
import Lox.Proofs.Parse.Exactness
import Lox.Proofs.Parse.Descent
import Lox.Proofs.Parse.Trail
import Lox.Proofs.Parse.Ending
import Lox.Proofs.Parse.FaultOrder
import Lox.Proofs.Parse.Resumption
import Lox.Proofs.Scan.Tiles
import Lox.Proofs.Machine.Safety
import Lox.Proofs.Session.Safety
import Lox.Proofs.Scan.Tiling
import Lox.Proofs.Scan.Writing
import Lox.Proofs.Scan.Unexpected
import Lox.Proofs.Scan.Iteration
import Lox.Proofs.Relocation.Execute
import Lox.Proofs.Session.Join
import Lox.Proofs.Machine.Conduct
import Lox.Proofs.Machine.Evolution
import Lox.Proofs.Session.Untouched
import Lox.Proofs.Session.Verdict
import Lox.Proofs.Machine.Course
import Lox.Proofs.Machine.Nesting
import Lox.Proofs.Machine.Coupling
import Lox.Proofs.Machine.Rooted
import Lox.Proofs.Session.Stages
import Lox.Proofs.Session.Rooted
import Lox.Proofs.Machine.Renumbering
import Lox.Proofs.Session.Restart
import Lox.Proofs.Machine.Sequence
import Lox.Proofs.Machine.Silence
import Lox.Proofs.Session.Watching
import Lox.Proofs.Machine.Wrapping
import Lox.Proofs.Session.Wrapping
import Lox.Proofs.Parse.Expansion
import Lox.Proofs.Scope.LastWrite
import Lox.Proofs.Machine.Frames
import Lox.Proofs.Session.Backtrace
import Lox.Proofs.Machine.Texts
import Lox.Proofs.Parse.Texts
import Lox.Proofs.Scan.Quotation
import Lox.Proofs.Session.Quotation
import Lox.Proofs.Decimal.Rounding
import Lox.Proofs.Decimal.Pattern
import Lox.Proofs.Decimal.Reading
import Lox.Proofs.Decimal.Shortest
import Lox.Proofs.Decimal.Nearness
import Lox.Proofs.Decimal.Fewest
import Lox.Proofs.Decimal.Numeral
import Lox.Proofs.Decimal.Printing
import Lox.Proofs.Cursor.Calls
import Lox.Proofs.Session.Codes
import Lox.Proofs.Scan.Excerpts
import Lox.Proofs.Parse.ExprText
import Lox.Proofs.Scan.LiteralText
import Lox.Proofs.Session.TokenDump
