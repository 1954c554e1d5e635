import Propositional.Main
import Propositional.Proofs.Token.Balance
import Propositional.Proofs.Token.Strip
import Propositional.Proofs.Token.Window
import Propositional.Proofs.Token.Paired
import Propositional.Proofs.Token.Scope
import Propositional.Proofs.Token.Lossless
import Propositional.Proofs.Statement.Root
import Propositional.Proofs.Statement.Reader
import Propositional.Proofs.Statement.Grammar
import Propositional.Proofs.Statement.Kinds
import Propositional.Proofs.Statement.Text
import Propositional.Proofs.Statement.Printing
import Propositional.Proofs.Statement.Subspan
import Propositional.Proofs.Statement.Calls
import Propositional.Proofs.Statement.Literal
import Propositional.Proofs.Statement.Fault
import Propositional.Proofs.Statement.Compound
import Propositional.Proofs.Statement.Clash
import Propositional.Proofs.Style
import Propositional.Proofs.LetterSet
import Propositional.Proofs.LetterSet.Built
import Propositional.Proofs.Statement.Letters
import Propositional.Proofs.Statement.Parsed
import Propositional.Proofs.Statement.Nodes
import Propositional.Proofs.Statement.Yield
import Propositional.Proofs.Statement.Agreement
import Propositional.Proofs.Statement.Ambiguity
import Propositional.Proofs.Statement.Header
import Propositional.Proofs.Statement.Value
import Propositional.Proofs.Valuation.Written
import Propositional.Proofs.Valuation.Rows
import Propositional.Proofs.Text.Split
import Propositional.Proofs.Table.Grid
import Propositional.Proofs.Table.TruthTable
import Propositional.Proofs.Table.Columns
import Propositional.Proofs.Table.Cells
import Propositional.Proofs.Table.Latex
import Propositional.Proofs.Table.Labels
import Propositional.Proofs.CommandLine.Outcome
import Propositional.Proofs.Table.Aligned
import Propositional.Proofs.Token.Parallel
import Propositional.Proofs.Statement.Respelling
import Propositional.Proofs.Table.Reversed
import Propositional.Proofs.Statement.Trace
import Propositional.Proofs.Statement.EmptyGroup
