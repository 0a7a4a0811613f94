import Lox.Command.Arguments
import Lox.Command.Run
import Lox.Decimal.Layout
import Lox.Decimal.Read
import Lox.Decimal.Shortest
import Lox.Diagnostic.Basic
import Lox.Diagnostic.Render
import Lox.Files
import Lox.Json.Basic
import Lox.Json.Pretty
import Lox.Log.Entry
import Lox.Log.Level
import Lox.Machine.Basic
import Lox.Machine.Fault
import Lox.Machine.Operator
import Lox.Machine.Run
import Lox.Main
import Lox.Path
import Lox.Prompt
import Lox.Proofs.Machine.CallLimit
import Lox.Proofs.Machine.Confinement
import Lox.Proofs.Session.Requests
import Lox.Proofs.Session.Units
import Lox.Scope.Forest
import Lox.Scope.Suggestion
import Lox.Session
import Lox.Settings
import Lox.Settings.Basic
import Lox.Settings.Document
import Lox.Syntax.Encode
import Lox.Syntax.Expression
import Lox.Syntax.Fault
import Lox.Syntax.Outline
import Lox.Syntax.Parser
import Lox.Syntax.Statement
import Lox.Syntax.Tree
import Lox.Text.Blank
import Lox.Text.Bytes
import Lox.Text.EditDistance
import Lox.Text.Grapheme
import Lox.Text.Printable
import Lox.Text.Quoted
import Lox.Text.Ranges
import Lox.Text.Style
import Lox.Text.Utf8
import Lox.Text.Width
import Lox.Token.Basic
import Lox.Token.Kind
import Lox.Token.Lexeme
import Lox.Token.Scan
import Lox.Token.Table
import Lox.Value
import Lox.Yaml.Character
import Lox.Yaml.Cursor
import Lox.Yaml.Node
import Lox.Yaml.Problem
import Lox.Yaml.Scalar
import Lox.Yaml.Timestamp
import Lox.Yaml.Token
import Lox.Yaml.Tokens
import Lox.Yaml.Written
import Lox.Proofs.Machine.Activity
import Lox.Proofs.Machine.Course
import Lox.Proofs.Machine.Safety
import Lox.Proofs.Syntax.Separation
import Lox.Proofs.Session.Reports
import Lox.Proofs.Machine.Provenance
import Lox.Proofs.Session.Blame
import Lox.Proofs.Prompt.Groups
import Lox.Proofs.Machine.Termination
import Lox.Proofs.Prompt.Braces
import Lox.Proofs.Scope.Bindings
import Lox.Proofs.Scope.Pairing
import Lox.Proofs.Machine.Simulation
import Lox.Proofs.Machine.Increment
import Lox.Proofs.Syntax.Progress
import Lox.Proofs.Syntax.Extension
import Lox.Proofs.Syntax.StatementAllotment
import Lox.Proofs.Syntax.Writable
import Lox.Proofs.Command.Modes
import Lox.Proofs.Syntax.Embedding
import Lox.Proofs.Syntax.StatementEmbedding
import Lox.Proofs.Syntax.Prefix
import Lox.Proofs.Syntax.Clauses
import Lox.Proofs.Syntax.Rounds
import Lox.Proofs.Scope.Lookup
import Lox.Proofs.Token.Spelling
import Lox.Proofs.Token.Rescanning
import Lox.Proofs.Machine.Declarations
import Lox.Proofs.Syntax.Height
import Lox.Proofs.Machine.EvaluationDepth
import Lox.Proofs.Syntax.StatementNesting
import Lox.Proofs.Machine.Chains
import Lox.Proofs.Syntax.Relabelling
import Lox.Proofs.Scope.Suggestion
import Lox.Proofs.Text.Utf8
import Lox.Proofs.Token.Quotation
import Lox.Proofs.Text.Plain
import Lox.Proofs.Diagnostic.Caret
import Lox.Proofs.Text.OneLine
import Lox.Proofs.Syntax.Masking
import Lox.Proofs.Syntax.OutlineLines
import Lox.Proofs.Syntax.Outline
import Lox.Proofs.Syntax.Encoding
import Lox.Proofs.Syntax.Counters
