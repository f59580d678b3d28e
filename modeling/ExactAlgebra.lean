import ExactAlgebra.Main
import ExactAlgebra.Proofs.Nodes
import ExactAlgebra.Proofs.FormalSums
import ExactAlgebra.Proofs.Polynomials
import ExactAlgebra.Proofs.Amounts
import ExactAlgebra.Proofs.CanonicalOrder
import ExactAlgebra.Proofs.Renaming
import ExactAlgebra.Proofs.Canonical.Powers
import ExactAlgebra.Proofs.Canonical.NumberPowers
import ExactAlgebra.Proofs.Canonical.Gathering
import ExactAlgebra.Proofs.Canonical.Normal
import ExactAlgebra.Proofs.Canonical.Results
import ExactAlgebra.Proofs.Canonical.Size
import ExactAlgebra.Proofs.Canonical.Fixed
import ExactAlgebra.Proofs.Canonical.Termination
import ExactAlgebra.Proofs.Canonical.Failures
import ExactAlgebra.Proofs.Canonical.Idempotence
import ExactAlgebra.Proofs.Canonical.Value
import ExactAlgebra.Proofs.Canonical.Monomials
import ExactAlgebra.Proofs.Canonical.Uniqueness
import ExactAlgebra.Proofs.Canonical.Parts
import ExactAlgebra.Proofs.Canonical.Leaves
import ExactAlgebra.Proofs.Canonical.NormalForms
import ExactAlgebra.Proofs.Canonical.Folding
import ExactAlgebra.Proofs.Canonical.Folding.Terms
import ExactAlgebra.Proofs.Canonical.Folding.Factors
import ExactAlgebra.Proofs.Canonical.Parentheses
import ExactAlgebra.Proofs.Canonical.Differences
import ExactAlgebra.Proofs.Canonical.Quotients
import ExactAlgebra.Proofs.Canonical.Inverses
import ExactAlgebra.Proofs.Canonical.Renaming
import ExactAlgebra.Proofs.Expansion.Distribution
import ExactAlgebra.Proofs.Expansion.Termination
import ExactAlgebra.Proofs.Expansion.Nesting
import ExactAlgebra.Proofs.Expansion.Value
import ExactAlgebra.Proofs.Expansion.Polynomials
import ExactAlgebra.Proofs.Expansion.CrossTerms
import ExactAlgebra.Proofs.Derivative.Rules
import ExactAlgebra.Proofs.Derivative.Value
import ExactAlgebra.Proofs.Derivative.Canonical
import ExactAlgebra.Proofs.Text.TreeForm
import ExactAlgebra.Proofs.Notation.Trees
import ExactAlgebra.Proofs.Notation.Reading
import ExactAlgebra.Proofs.Notation.Words
import ExactAlgebra.Proofs.Notation.Programs
import ExactAlgebra.Proofs.Notation.Unfolding
import ExactAlgebra.Proofs.Command.Guesses
import ExactAlgebra.Proofs.Command.Safety
import ExactAlgebra.Proofs.Command.Streams
import ExactAlgebra.Proofs.Estimate.Roots
