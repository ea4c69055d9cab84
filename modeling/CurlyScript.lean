import CurlyScript.Main
import CurlyScript.Proofs.Layout.Alike
import CurlyScript.Proofs.Layout.Rewritten
import CurlyScript.Proofs.Syntax.Erased
import CurlyScript.Proofs.Syntax.Everywhere
import CurlyScript.Proofs.Token.Spelling
import CurlyScript.Proofs.Token.Terminal
import CurlyScript.Proofs.Syntax.Printable
import CurlyScript.Proofs.Grammar.Cursor
import CurlyScript.Proofs.Syntax.Terminals
import CurlyScript.Proofs.Grammar.Lists
import CurlyScript.Proofs.Grammar.Operand
import CurlyScript.Proofs.Grammar.Statement
import CurlyScript.Proofs.Grammar.Program
import CurlyScript.Proofs.Layout.Ink
import CurlyScript.Proofs.Layout.Spelled
import CurlyScript.Proofs.Layout.Refused
import CurlyScript.Proofs.Layout.Flat
import CurlyScript.Proofs.Layout.ReadBack
import CurlyScript.Proofs.Grammar.Writable
import CurlyScript.Proofs.Layout.Reformat
import CurlyScript.Proofs.Layout.Diff
import CurlyScript.Proofs.Layout.Depth
import CurlyScript.Proofs.Layout.Margin
import CurlyScript.Proofs.Scope.Outline
import CurlyScript.Proofs.Scope.Sites
import CurlyScript.Proofs.Scope.Binding
import CurlyScript.Proofs.Scope.Table
import CurlyScript.Proofs.Scope.Resolution
import CurlyScript.Proofs.Scope.Walk
import CurlyScript.Proofs.Token.Stream
import CurlyScript.Proofs.Grammar.Writing
import CurlyScript.Proofs.Grammar.Derives
import CurlyScript.Proofs.Grammar.Derivation
import CurlyScript.Proofs.Syntax.Within
import CurlyScript.Proofs.Grammar.Told
import CurlyScript.Proofs.Grammar.Comments
import CurlyScript.Proofs.Grammar.Linear
import CurlyScript.Proofs.Syntax.Lines
import CurlyScript.Proofs.Grammar.Edit
import CurlyScript.Proofs.Grammar.Edited
import CurlyScript.Proofs.Scope.Rewritten
import CurlyScript.Proofs.Syntax.Words
import CurlyScript.Proofs.Scope.Uncommented
import CurlyScript.Proofs.Scope.Relocated
import CurlyScript.Proofs.Scope.Reformat
import CurlyScript.Proofs.Scope.Frames
import CurlyScript.Proofs.Scope.Ledger
import CurlyScript.Proofs.Scope.Braces
import CurlyScript.Proofs.Layout.Agreement
import CurlyScript.Proofs.Command.Overwrite
import CurlyScript.Proofs.Command.Format
import CurlyScript.Proofs.Command.Converge
import CurlyScript.Proofs.Command.Check
import CurlyScript.Proofs.Grammar.Mentions
import CurlyScript.Proofs.Scope.Accounts
import CurlyScript.Proofs.Syntax.Placed
import CurlyScript.Proofs.Grammar.Cut
import CurlyScript.Proofs.Grammar.Readings
import CurlyScript.Proofs.Grammar.Reread
import CurlyScript.Proofs.Grammar.Settled
import CurlyScript.Proofs.Token.Slice
import CurlyScript.Proofs.Grammar.Standalone
import CurlyScript.Proofs.Token.Munch
import CurlyScript.Proofs.Token.Quoted
import CurlyScript.Proofs.Grammar.Respaced
import CurlyScript.Proofs.Grammar.Barrier
import CurlyScript.Proofs.Grammar.Errors
import CurlyScript.Proofs.Number.Range
import CurlyScript.Proofs.Scope.Environment
import CurlyScript.Proofs.Grammar.Precedence
import CurlyScript.Proofs.Grammar.Grouped
import CurlyScript.Proofs.Layout.Shielded
import CurlyScript.Proofs.Layout.Slot
import CurlyScript.Proofs.Layout.OpenIf
import CurlyScript.Proofs.Grammar.Nested
import CurlyScript.Proofs.Grammar.Carried
import CurlyScript.Proofs.Grammar.Separators
import CurlyScript.Proofs.Token.Tiling
import CurlyScript.Proofs.Scope.WellFormed
import CurlyScript.Proofs.Scope.Dormant
import CurlyScript.Proofs.Scope.Tree
import CurlyScript.Proofs.Scope.Counts
import CurlyScript.Proofs.Scope.Findings
import CurlyScript.Proofs.Source.Position
import CurlyScript.Proofs.Layout.Opening
import CurlyScript.Proofs.Command.Places
import CurlyScript.Proofs.Command.Scripts
import CurlyScript.Proofs.Command.Effect
