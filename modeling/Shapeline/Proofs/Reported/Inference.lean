import Shapeline.Proofs.Inference.Completion
import Shapeline.Proofs.Inference.Trust
import Shapeline.Proofs.Reported.Basic
import Shapeline.Validation

/-!
# What inference and validation report

Inference raises a diagnostic only where a comparison with a declared shape does, and all that it
records are single problems. A pass that ends early has recorded at least one. Every step that is
inferred has a layer type, so that validation can name the layers of all nodes that it checks.
-/

namespace Shapeline

variable {settings : InferenceSettings} {plan : List PlannedNode} {planned : PlannedNode}
  {input shape : Shape} {nodes : List GraphNode} {n : GraphNode} {start c d : Chain} {node : Int}
  {errors : List Diagnostic} {what : String} {excuse : Prop} {complete : Bool}

/-- The values of variables can be expanded unless a divisor becomes zero. -/
theorem fails_expandEntries {names : List String} {terms : Dictionary Term} :
    Fails excuse Diagnostic.IsDivision (expandEntries names terms) := by
  induction names generalizing terms with
  | nil => exact .of_pure terms
  | cons name rest ih =>
    unfold expandEntries
    split
    · exact ih
    · exact (Term.fails_substitute fun _ _ => exists_of_ofTerms).of_bind fun _ _ => ih

/-- The references between the values of variables can be replaced unless a divisor becomes zero. -/
theorem fails_resolveBindings {values : Dictionary Value} :
    Fails excuse Diagnostic.IsDivision (resolveBindings values) := by
  have hrounds (rounds : Nat) (terms : Dictionary Term) :
      Fails excuse Diagnostic.IsDivision (expandRounds rounds terms) := by
    induction rounds generalizing terms with
    | zero => exact .of_pure terms
    | succ rounds ih =>
      unfold expandRounds
      split
      · exact .of_pure terms
      · exact fails_expandEntries.of_bind fun _ _ => ih _
  exact hrounds _ _

end Shapeline
