import RubyTree.Atom
import RubyTree.Build.Arena
import RubyTree.Build.Builder
import RubyTree.Build.Callback
import RubyTree.Build.Comments
import RubyTree.Build.Effect
import RubyTree.Build.Replay
import RubyTree.Error
import RubyTree.Literal.Capture
import RubyTree.Literal.Content
import RubyTree.Literal.Escape
import RubyTree.Literal.Indent
import RubyTree.Literal.Number
import RubyTree.Log.Event
import RubyTree.Log.QuotedText
import RubyTree.Log.Reader
import RubyTree.Lower.Block
import RubyTree.Lower.Branch
import RubyTree.Lower.Call
import RubyTree.Lower.Collection
import RubyTree.Lower.Definition
import RubyTree.Lower.Field
import RubyTree.Lower.Name
import RubyTree.Lower.Operator
import RubyTree.Lower.Parameter
import RubyTree.Lower.Pattern
import RubyTree.Lower.Process
import RubyTree.Lower.Production
import RubyTree.Lower.Quote
import RubyTree.Lower.Rescue
import RubyTree.Lower.Scope
import RubyTree.Lower.Sequence
import RubyTree.Lower.Target
import RubyTree.Number.Binary64
import RubyTree.Number.Numeral
import RubyTree.Number.Power
import RubyTree.Number.Shortest
import RubyTree.Program
import RubyTree.Raw
import RubyTree.Recorder
import RubyTree.Settings
import RubyTree.Text.Blank
import RubyTree.Text.Digit
import RubyTree.Text.Identifier
import RubyTree.Text.Printable
import RubyTree.Text.Quoted
import RubyTree.Text.Surrogate
import RubyTree.Text.Upper
import RubyTree.Text.Utf8
import RubyTree.Text.Word
import RubyTree.Tree
import RubyTree.Tree.Equality
import RubyTree.Tree.Lines
import RubyTree.Tree.Print
import RubyTree.Tree.Shared
import RubyTree.Tree.Walk
import RubyTree.Proofs.Build.Step
import RubyTree.Proofs.Build.Blurred
import RubyTree.Proofs.Build.Lockstep
import RubyTree.Proofs.Build.Events
import RubyTree.Proofs.Lower.Uniform.Expression
import RubyTree.Proofs.Lower.Uniform.Construct
import RubyTree.Proofs.Lower.Depth
import RubyTree.Proofs.Lower.ScopeRestored
import RubyTree.Proofs.Log.Lexeme
import RubyTree.Proofs.Log.RoundTrip
import RubyTree.Proofs.Literal.EscapeOnLine
import RubyTree.Proofs.Literal.Lines
import RubyTree.Proofs.Lower.LiteralContent
import RubyTree.Proofs.Tree.Finished
import RubyTree.Proofs.Lower.Interim
import RubyTree.Proofs.Lower.Shape
import RubyTree.Proofs.Lower.Sound.Expression
import RubyTree.Proofs.Lower.Sound.Literal
import RubyTree.Proofs.Lower.Sound.Body
import RubyTree.Proofs.Lower.Sound.Branch
import RubyTree.Proofs.Lower.Soundness
import RubyTree.Proofs.Tree.Unlined
import RubyTree.Proofs.Program
import RubyTree.Proofs.Build.Session
import RubyTree.Proofs.Build.Values
import RubyTree.Proofs.Build.Keyword
import RubyTree.Proofs.Build.Nesting
import RubyTree.Proofs.Build.Operators
import RubyTree.Proofs.Build.Documented
import RubyTree.Proofs.Build.LiteralToken
import RubyTree.Proofs.Build.Names
import RubyTree.Proofs.Build.Delimiters
import RubyTree.Proofs.Lower.NumberedBlock
import RubyTree.Proofs.Tree.Walk
import RubyTree.Proofs.Tree.FilledLines
import RubyTree.Proofs.Tree.SharedLines
import RubyTree.Proofs.Tree.Updates
import RubyTree.Proofs.Lower.Spending.Basic
import RubyTree.Proofs.Lower.Spending.Literal
import RubyTree.Proofs.Lower.Spending.Expression
import RubyTree.Proofs.Lower.Spending.Construct
import RubyTree.Proofs.Lower.Spending.Thrifty
import RubyTree.Proofs.Lower.Spending.Branch
import RubyTree.Proofs.Lower.Spending.Definition
import RubyTree.Proofs.Lower.Spending.Grammar
import RubyTree.Proofs.Lower.Sharing
import RubyTree.Proofs.Lower.OwnScope
import RubyTree.Proofs.Lower.Compared.Place
import RubyTree.Proofs.Lower.Compared.Tree
import RubyTree.Proofs.Lower.Compared.Step
import RubyTree.Proofs.Lower.Compared.Fit
import RubyTree.Proofs.Lower.Compared.Field
import RubyTree.Proofs.Lower.Compared.Literal
import RubyTree.Proofs.Lower.Compared.Expression
import RubyTree.Proofs.Lower.Compared.Target
import RubyTree.Proofs.Lower.Compared.Parameter
import RubyTree.Proofs.Lower.Compared.Pattern
import RubyTree.Proofs.Lower.Compared.Branch
import RubyTree.Proofs.Lower.Compared.Block
import RubyTree.Proofs.Lower.Compared.Lower
import RubyTree.Proofs.Lower.Compared.Form
import RubyTree.Proofs.Lower.Unnumbered
import RubyTree.Proofs.Lower.SourceOrder
import RubyTree.Proofs.Tree.Moved
import RubyTree.Proofs.Moved
import RubyTree.Proofs.Text.Utf8
import RubyTree.Proofs.Text.Surrogate
import RubyTree.Proofs.Literal.Lexemes
import RubyTree.Proofs.Build.Immutable
import RubyTree.Proofs.Build.Shows
import RubyTree.Proofs.Build.Ownership
import RubyTree.Proofs.Build.Tracking
import RubyTree.Proofs.Build.OpenKeyword
import RubyTree.Proofs.Build.Linear
import RubyTree.Proofs.Build.TargetList
import RubyTree.Proofs.Lower.TargetList
import RubyTree.Proofs.Tree.Ledger
import RubyTree.Proofs.Lower.Accounts.Source
import RubyTree.Proofs.Lower.Accounts.Basic
import RubyTree.Proofs.Lower.Accounts.Literal
import RubyTree.Proofs.Lower.Accounts.Expression
import RubyTree.Proofs.Lower.Accounts.Construct
import RubyTree.Proofs.Lower.Accounts.Settled
import RubyTree.Proofs.Lower.Accounts.Branch
import RubyTree.Proofs.Lower.Accounts.Definition
import RubyTree.Proofs.Lower.Accounts.Grammar
import RubyTree.Proofs.Accounts
import RubyTree.Proofs.Literal.NumberText
import RubyTree.Proofs.Lower.ExactLiteral
import RubyTree.Proofs.Build.SignedNumber
import RubyTree.Proofs.Build.FoldedSign
import RubyTree.Proofs.Lower.Parenthesized
import RubyTree.Proofs.Literal.PieceStart
import RubyTree.Proofs.Lower.PieceLines
import RubyTree.Proofs.Literal.Protected
import RubyTree.Proofs.Lower.QuotedContent
import RubyTree.Proofs.Literal.HeredocLines
import RubyTree.Proofs.Build.Dedent
import RubyTree.Proofs.Log.Line
import RubyTree.Proofs.Log.Concat
import RubyTree.Proofs.Literal.NamedGroups
import RubyTree.Proofs.Lower.RegexpMatch
import RubyTree.Proofs.Tree.Printed
import RubyTree.Proofs.Literal.Columns
import RubyTree.Proofs.Literal.ContinuedLines
