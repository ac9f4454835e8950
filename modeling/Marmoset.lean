import Marmoset.Command
import Marmoset.Command.Arguments
import Marmoset.Comparison
import Marmoset.Dialogue
import Marmoset.Eval
import Marmoset.Main
import Marmoset.Number.Binary
import Marmoset.Number.Decimal
import Marmoset.Number.Literal
import Marmoset.Number.Word
import Marmoset.Operator
import Marmoset.Position
import Marmoset.Proofs.Arithmetic
import Marmoset.Proofs.Calls
import Marmoset.Proofs.Commas
import Marmoset.Proofs.Dialogue
import Marmoset.Proofs.Difference
import Marmoset.Proofs.Equality
import Marmoset.Proofs.Errors
import Marmoset.Proofs.Eval.Agree
import Marmoset.Proofs.Eval.Context
import Marmoset.Proofs.Eval.Frame
import Marmoset.Proofs.Eval.Invariant
import Marmoset.Proofs.Eval.Keeps
import Marmoset.Proofs.Eval.Labels
import Marmoset.Proofs.Eval.Ledger
import Marmoset.Proofs.Eval.Limits
import Marmoset.Proofs.Eval.Passing
import Marmoset.Proofs.Eval.Relabel
import Marmoset.Proofs.Eval.Stopping
import Marmoset.Proofs.Eval.Visits
import Marmoset.Proofs.HashLiterals
import Marmoset.Proofs.Hashes
import Marmoset.Proofs.Integers
import Marmoset.Proofs.Joined
import Marmoset.Proofs.Layout
import Marmoset.Proofs.Literals
import Marmoset.Proofs.Loops
import Marmoset.Proofs.Number.Literal
import Marmoset.Proofs.Number.Word
import Marmoset.Proofs.Outcome
import Marmoset.Proofs.Places
import Marmoset.Proofs.Returns
import Marmoset.Proofs.Scopes
import Marmoset.Proofs.Semicolons
import Marmoset.Proofs.Session
import Marmoset.Proofs.Slices
import Marmoset.Proofs.Store
import Marmoset.Proofs.Termination
import Marmoset.Proofs.Token.Apart
import Marmoset.Proofs.Token.Joined
import Marmoset.Proofs.Token.Lexer
import Marmoset.Proofs.Token.Order
import Marmoset.Proofs.Token.Spelling
import Marmoset.Proofs.Token.Tiling
import Marmoset.Proofs.Tree.Brackets
import Marmoset.Proofs.Tree.Completeness
import Marmoset.Proofs.Tree.Depth
import Marmoset.Proofs.Tree.Derivation
import Marmoset.Proofs.Tree.Entries
import Marmoset.Proofs.Tree.Forward
import Marmoset.Proofs.Tree.Joined
import Marmoset.Proofs.Tree.Layout
import Marmoset.Proofs.Tree.Loops
import Marmoset.Proofs.Tree.Nesting
import Marmoset.Proofs.Tree.Places
import Marmoset.Proofs.Tree.Printed
import Marmoset.Proofs.Tree.Reading
import Marmoset.Proofs.Tree.Relabel
import Marmoset.Proofs.Tree.Related
import Marmoset.Proofs.Tree.Shape
import Marmoset.Proofs.Tree.Soundness
import Marmoset.Proofs.Tree.Tracks
import Marmoset.Proofs.Tree.Whole
import Marmoset.Proofs.Tree.Words
import Marmoset.Proofs.Unclosed
import Marmoset.Proofs.Unread
import Marmoset.Proofs.Value.Equal
import Marmoset.Proofs.Value.Equivalence
import Marmoset.Proofs.Value.Lawful
import Marmoset.Proofs.Value.Parts
import Marmoset.Proofs.Value.Relabel
import Marmoset.Proofs.Value.Table
import Marmoset.Proofs.Value.Union
import Marmoset.Session
import Marmoset.Stamp
import Marmoset.Store
import Marmoset.Text.Blank
import Marmoset.Text.Digest
import Marmoset.Text.Digit
import Marmoset.Text.Printable
import Marmoset.Text.Quoted
import Marmoset.Token
import Marmoset.Token.Lexer
import Marmoset.Tree
import Marmoset.Tree.Grammar
import Marmoset.Tree.Reading
import Marmoset.Tree.Same
import Marmoset.Tree.Text
import Marmoset.Value
import Marmoset.Value.Builtin
import Marmoset.Value.Operation
import Marmoset.Value.Same
import Marmoset.Value.Table
