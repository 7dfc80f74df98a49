import Shapeline.Compilation
import Shapeline.Settings.Load
import Shapeline.Standard
import Shapeline.Proofs.Algebra.Dense
import Shapeline.Proofs.Algebra.Division
import Shapeline.Proofs.Algebra.Gcd
import Shapeline.Proofs.Algebra.Poly
import Shapeline.Proofs.Algebra.Fraction
import Shapeline.Proofs.Algebra.Named
import Shapeline.Proofs.Term.Meaning
import Shapeline.Proofs.Term.Equivalence
import Shapeline.Proofs.Term.Monomials
import Shapeline.Proofs.Term.NormalForm
import Shapeline.Proofs.Dictionary
import Shapeline.Proofs.Term.Substitution
import Shapeline.Proofs.Term.Simplify
import Shapeline.Proofs.Term.Authored
import Shapeline.Proofs.Shape
import Shapeline.Proofs.Parameters
import Shapeline.Proofs.Rule.Formula
import Shapeline.Proofs.Rule.Numbers
import Shapeline.Proofs.Rule.Application
import Shapeline.Proofs.Rule.Step
import Shapeline.Proofs.Rule.Reapplication
import Shapeline.Proofs.Term.Comparison
import Shapeline.Proofs.Rule.Correspondence
import Shapeline.Proofs.Rule.Failure
import Shapeline.Proofs.Term.Composition
import Shapeline.Proofs.Term.Expansion
import Shapeline.Proofs.Rule.Symbols
import Shapeline.Proofs.Inference.Run
import Shapeline.Proofs.Inference.Invariants
import Shapeline.Proofs.Inference.Numbers
import Shapeline.Proofs.Inference.Visits
import Shapeline.Proofs.Inference.Course
import Shapeline.Proofs.Inference.Threading
import Shapeline.Proofs.Inference.Mismatches
import Shapeline.Proofs.Inference.Trust
import Shapeline.Proofs.Inference.Splitting
import Shapeline.Proofs.Inference.Verification
import Shapeline.Proofs.Inference.Completion
import Shapeline.Proofs.Inference.Simulation
import Shapeline.Proofs.Inference.Symbols
import Shapeline.Proofs.Term.Rewording
import Shapeline.Proofs.Inference.Rewording
import Shapeline.Proofs.Inference.Erasure
import Shapeline.Proofs.Lowering
import Shapeline.Proofs.Resolution
import Shapeline.Proofs.Overrides
import Shapeline.Proofs.Planning
import Shapeline.Proofs.Resolvable
import Shapeline.Proofs.Replanning
import Shapeline.Proofs.Inference.Following
import Shapeline.Proofs.Inference.Mapping
import Shapeline.Proofs.Validation
import Shapeline.Proofs.Redeclaration.Lowering
import Shapeline.Proofs.Redeclaration.Planning
import Shapeline.Proofs.Compilation.Logging
import Shapeline.Proofs.Compilation.Stages
import Shapeline.Proofs.Compilation.Reapplication
import Shapeline.Proofs.Compilation.Soundness
import Shapeline.Proofs.Compilation.Verification
import Shapeline.Proofs.Compilation.Completion
import Shapeline.Proofs.Compilation.Redeclaration
import Shapeline.Proofs.Compilation.Introduction
import Shapeline.Proofs.Compilation.Rewording
import Shapeline.Proofs.Compilation.Reordering
import Shapeline.Proofs.Compilation.Unused
import Shapeline.Proofs.Compilation.Symbols
import Shapeline.Proofs.Compilation.Erasure
import Shapeline.Proofs.Reported.Basic
import Shapeline.Proofs.Reported.Lowering
import Shapeline.Proofs.Reported.Resolution
import Shapeline.Proofs.Reported.Planning
import Shapeline.Proofs.Reported.Inference
import Shapeline.Proofs.Compilation.Conclusion
import Shapeline.Proofs.Divisors
import Shapeline.Proofs.Term.Evaluation
import Shapeline.Proofs.Term.Folding
import Shapeline.Proofs.Reading.Alphabet
import Shapeline.Proofs.Reading.Grammar
import Shapeline.Proofs.Reading.Printed
import Shapeline.Proofs.Registration
import Shapeline.Proofs.Importing
import Shapeline.Proofs.Lowered
import Shapeline.Proofs.Planned
import Shapeline.Proofs.Unrolling.Planning
import Shapeline.Proofs.Unrolling.Lowering
import Shapeline.Proofs.Compilation.Unrolling
import Shapeline.Proofs.Renaming.Term
import Shapeline.Proofs.Renaming.Substitution
import Shapeline.Proofs.Renaming.Rule
import Shapeline.Proofs.Renaming.Inference
import Shapeline.Proofs.Renaming.Resolution
import Shapeline.Proofs.Renaming.Planning
import Shapeline.Proofs.Renaming.Program
import Shapeline.Proofs.Renaming.Lowering
import Shapeline.Proofs.Compilation.Renaming
import Shapeline.Proofs.Term.Replacement
import Shapeline.Proofs.Term.Unfolding
import Shapeline.Proofs.Bindings
import Shapeline.Proofs.Term.Constants
import Shapeline.Proofs.Rule.Checks
import Shapeline.Proofs.Rule.Acceptance
import Shapeline.Proofs.Rule.Binding
import Shapeline.Proofs.Merging
import Shapeline.Proofs.Problems
import Shapeline.Proofs.Precedence
import Shapeline.Proofs.Expressions
import Shapeline.Proofs.Inference.Moves
import Shapeline.Proofs.Inference.Containment
import Shapeline.Proofs.Compilation.Containment
import Shapeline.Proofs.Inference.Checkpoints
import Shapeline.Proofs.Compilation.Checkpoints
import Shapeline.Proofs.Rule.Outputs
import Shapeline.Proofs.Inference.Sizes
import Shapeline.Proofs.Compilation.Sizes
import Shapeline.Proofs.Located
import Shapeline.Proofs.Rule.Strides
import Shapeline.Proofs.Rule.Axes
import Shapeline.Proofs.Diagnosis
import Shapeline.Proofs.Inference.Ranks
import Shapeline.Proofs.Compilation.Ranks
import Shapeline.Proofs.Inference.Recording
import Shapeline.Proofs.Compilation.Axes
import Shapeline.Proofs.Inference.Naming
import Shapeline.Proofs.Inference.Placeholders
import Shapeline.Proofs.Compilation.Placeholders
