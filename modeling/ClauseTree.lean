import ClauseTree.Main
import ClauseTree.Query.Step
import ClauseTree.Query.Leaf
import ClauseTree.Proofs.Fragment.Members
import ClauseTree.Proofs.Fragment.Leaves
import ClauseTree.Proofs.Fragment.Text
import ClauseTree.Proofs.Statement.Composition
import ClauseTree.Proofs.Statement.Bindings
import ClauseTree.Proofs.Statement.Filling
import ClauseTree.Proofs.Fragment.Agreement
import ClauseTree.Proofs.Fragment.Vocabulary
import ClauseTree.Proofs.Statement.Inlining
import ClauseTree.Proofs.Document.Raws
import ClauseTree.Proofs.Fragment.Separation
import ClauseTree.Proofs.Statement.Undefined
import ClauseTree.Proofs.Statement.Offences
import ClauseTree.Proofs.Statement.Pruning
import ClauseTree.Proofs.Statement.Translation
import ClauseTree.Proofs.Query.Normal
import ClauseTree.Proofs.Statement.Reader
import ClauseTree.Proofs.Fragment.Reading
import ClauseTree.Proofs.Statement.Readability
import ClauseTree.Proofs.Statement.Lexing
import ClauseTree.Proofs.Statement.Reloading
import ClauseTree.Proofs.Statement.Rescanning
import ClauseTree.Proofs.Statement.Quoting
import ClauseTree.Proofs.Fragment.Places
import ClauseTree.Proofs.Statement.Connectors
import ClauseTree.Proofs.Clause.Handles
import ClauseTree.Proofs.Query.Steps
import ClauseTree.Proofs.Document.Tags
import ClauseTree.Proofs.Value.Literals
import ClauseTree.Proofs.Identifier.Qualified
import ClauseTree.Proofs.Identifier.Aliases
import ClauseTree.Proofs.Statement.Rendering
