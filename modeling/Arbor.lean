import Arbor.Language.Generate
import Arbor.Text.Width
import Arbor.Text.Order
import Arbor.Text.Blank
import Arbor.Tree.Equality
import Arbor.Tree.Construct
import Arbor.Tree.Dump
import Arbor.Phrase.Build
import Arbor.World
import Arbor.Unify.Solve
import Arbor.Traversal.Visitor
import Arbor.Reduction.Reducer
import Arbor.Make
import Arbor.Tree.Sharing
import Arbor.Proofs.Tree.Valuation
import Arbor.Proofs.Unify.Expansion
import Arbor.Proofs.Unify.Solving
import Arbor.Proofs.Unify.Correctness
import Arbor.Proofs.Float64.Decimal
import Arbor.Proofs.Phrase.Written
import Arbor.Proofs.Phrase.Reading
import Arbor.Proofs.Phrase.Numeral
import Arbor.Proofs.Tree.Nodes
import Arbor.Proofs.Phrase.Printing
import Arbor.Proofs.Language.Generated
import Arbor.Proofs.Phrase.RoundTrip
import Arbor.Proofs.Unify.Congruence
import Arbor.Proofs.Reduction.Rules
import Arbor.Proofs.Traversal.Loops
import Arbor.Proofs.Traversal.Walking
import Arbor.Proofs.Traversal.Rebuilding
import Arbor.Proofs.Reduction.NormalForm
import Arbor.Proofs.Unify.Termination
import Arbor.Proofs.Tree.Captures
import Arbor.Proofs.Unify.Idempotence
import Arbor.Proofs.Unify.Matching
import Arbor.Proofs.Unify.Symmetry
import Arbor.Proofs.Language.Hierarchy
import Arbor.Proofs.Language.Conformance
import Arbor.Proofs.Traversal.Reconstruction
import Arbor.Proofs.Reduction.Typing
import Arbor.Proofs.Traversal.Sharing
import Arbor.Proofs.Language.Subtyping
import Arbor.Proofs.Language.Acceptance
import Arbor.Proofs.Unify.Validity
import Arbor.Proofs.Phrase.Spelling
import Arbor.Proofs.Phrase.Recognition
import Arbor.Proofs.Unify.Order
import Arbor.Proofs.Traversal.Balance
import Arbor.Proofs.Limits
import Arbor.Proofs.Reduction.StepLimit
import Arbor.Proofs.Phrase.Alignment
import Arbor.Proofs.Phrase.Arguments
import Arbor.Proofs.Traversal.Positions
import Arbor.Proofs.Unify.Honesty
import Arbor.Proofs.Reduction.BottomUp
import Arbor.Proofs.Language.Ranking
import Arbor.Proofs.Float64.Comparison
import Arbor.Proofs.Tree.Equality
import Arbor.Proofs.Unify.Instances
import Arbor.Proofs.Phrase.Coloring
import Arbor.Proofs.Float64.Order
import Arbor.Proofs.Unify.Composition
import Arbor.Proofs.Phrase.Delimiting
import Arbor.Proofs.Traversal.Recursion
import Arbor.Proofs.Unify.Types
