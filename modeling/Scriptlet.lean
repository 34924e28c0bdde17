import Scriptlet.Position
import Scriptlet.Text.Quoted
import Scriptlet.Text.Blank
import Scriptlet.Token.Basic
import Scriptlet.Token.Lexeme
import Scriptlet.Token.Scan
import Scriptlet.Number.Integer
import Scriptlet.Number.Dyadic
import Scriptlet.Number.Shortest
import Scriptlet.Number.Real
import Scriptlet.Operator
import Scriptlet.Value.Basic
import Scriptlet.Value.Arithmetic
import Scriptlet.RunError
import Scriptlet.Bindings
import Scriptlet.Machine
import Scriptlet.Tree.Basic
import Scriptlet.Tree.Run
import Scriptlet.Grammar.Reply
import Scriptlet.Grammar.Expression
import Scriptlet.Grammar.Statement
import Scriptlet.CSource.Code
import Scriptlet.CSource.Layout
import Scriptlet.CSource.Counters
import Scriptlet.CSource.Draft
import Scriptlet.Script
import Scriptlet.CommandLine.Arguments
import Scriptlet.CommandLine.Files
import Scriptlet.CommandLine.Perform
import Scriptlet.Main
import Scriptlet.Proofs.Grammar.Yields
import Scriptlet.Proofs.Grammar.Phrase
import Scriptlet.Proofs.Grammar.Sound
import Scriptlet.Proofs.Grammar.Complete
import Scriptlet.Proofs.Tree.Shape
import Scriptlet.Proofs.Token.Scanned
import Scriptlet.Proofs.CSource.Drafted
import Scriptlet.Proofs.CSource.ReadBack
import Scriptlet.Proofs.C.Syntax
import Scriptlet.Proofs.C.Semantics
import Scriptlet.Proofs.CSource.Tokens
import Scriptlet.Proofs.CSource.Parsed
import Scriptlet.Proofs.Tree.Evaluation
import Scriptlet.Proofs.Tree.Visits
import Scriptlet.Proofs.CSource.Simulation
import Scriptlet.Proofs.Grammar.Names
import Scriptlet.Proofs.CSource.Portable
import Scriptlet.Proofs.Tree.Drift
import Scriptlet.Proofs.CSource.Turns
import Scriptlet.Proofs.Machine.Fails
import Scriptlet.Proofs.Tree.Outline
import Scriptlet.Proofs.C.Outline
import Scriptlet.Proofs.CSource.Outline
import Scriptlet.Proofs.CSource.Emits
import Scriptlet.Proofs.CSource.Scope
import Scriptlet.Proofs.CSource.Stops
import Scriptlet.Proofs.CSource.Effect
import Scriptlet.Proofs.CSource.OwnNames
import Scriptlet.Proofs.Grammar.Mentions
import Scriptlet.Proofs.Token.Places
import Scriptlet.Proofs.CSource.Declared
import Scriptlet.Proofs.Token.Layout
import Scriptlet.Proofs.Token.Refused
import Scriptlet.Proofs.Token.Spaced
import Scriptlet.Proofs.Grammar.Sticks
import Scriptlet.Proofs.Grammar.Exact
import Scriptlet.Proofs.Grammar.Expressions
import Scriptlet.Proofs.Grammar.Blame
import Scriptlet.Proofs.Tree.Numbers
import Scriptlet.Proofs.Tree.Safety
import Scriptlet.Proofs.CSource.Safety
import Scriptlet.Proofs.Grammar.Moved
import Scriptlet.Proofs.CSource.Moved
import Scriptlet.Proofs.Script.Places
import Scriptlet.Proofs.Script.Joined
import Scriptlet.Proofs.Grammar.Rooted
import Scriptlet.Proofs.Script.Causes
import Scriptlet.Proofs.Grammar.Terms
import Scriptlet.Proofs.Tree.Frame
import Scriptlet.Proofs.CSource.Frame
import Scriptlet.Proofs.Text.Ascii
import Scriptlet.Proofs.Script.Control
import Scriptlet.Proofs.Tree.Room
import Scriptlet.Proofs.C.Lines
import Scriptlet.Proofs.Grammar.Signs
import Scriptlet.Proofs.CommandLine.Blank
import Scriptlet.Proofs.CSource.Numbering
import Scriptlet.Proofs.CSource.Indented
import Scriptlet.Proofs.CSource.Parens
import Scriptlet.Proofs.Grammar.Progress
import Scriptlet.Proofs.Number.Nearest
import Scriptlet.Proofs.Value.Comparison
