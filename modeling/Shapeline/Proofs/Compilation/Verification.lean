import Shapeline.Proofs.Compilation.Stages
import Shapeline.Proofs.Inference.Verification

/-!
# Plans whose declared shapes are verified

Inference of a plan compares the shapes that arrive with those that the plan declares, at every
place that it reaches, and records nothing else about declared shapes.
-/

namespace Shapeline

/-- **Declared shapes are verified, and carried on.** Inference of a plan starts from the shape that
the first node declares. At every place that it reaches, it compares the shape that arrives with the
declared one, and it goes on from the declared one. -/
theorem declared_shapes_verified {model : ResolvedModel} {plan : List PlannedNode}
    {bindings : Dictionary Term} {errors : List Diagnostic} {nodes : List GraphNode}
    {complete : Bool} (hplan : planModel model = .ok plan)
    (hauthored : ∀ planned ∈ plan, planned.Authored)
    (h : (infer ⟨false, bindings⟩ plan).Yields errors (nodes, complete)) :
    ∃ first rest shape others, plan = first :: rest ∧ first.declared = some shape ∧
      nodes = inputNode first shape :: others ∧
      Verifies ⟨false, bindings⟩ rest shape errors others := by
  obtain ⟨hspecs, hfirst⟩ := planModel_eq_ok hplan
  have hordered : ∀ planned ∈ plan, planned.checkpoints.Pairwise (·.after ≤ ·.after) := by
    intro planned hplanned
    obtain ⟨spec, _, found, hplanNode⟩ := exists_of_mem_right hspecs hplanned
    exact (planNode_eq_ok hplanNode).2.1.pairwise
  obtain ⟨first, rest, shape, others, rfl, hdeclared, rfl, hinfers⟩ := infers_of_infer hfirst h
  have hshape : shape.Authored := (hauthored first List.mem_cons_self).declared shape hdeclared
  have hrest : ∀ planned ∈ rest, planned.Authored ∧
      planned.checkpoints.Pairwise (·.after ≤ ·.after) := fun planned hplanned =>
    have hmem := List.mem_cons_of_mem _ hplanned
    ⟨hauthored planned hmem, hordered planned hmem⟩
  exact ⟨first, rest, shape, others, rfl, hdeclared, rfl,
    hinfers.verifies rfl hrest hshape.distinguished⟩

/-- A model of an inline model whose second node declares a shape that its pooling does not have. -/
def mismatchedProgram : Program where
  imports := ["Convolutions", "Pooling"]
  model := some {
    name := "Mismatched"
    declarations := [
      { description := "channels", shortName := some "C", value := some (.literal (.int 8)) }]
    lines := [
      { index := 0, shape := some [.literal (.int 3), .identifier "H", .identifier "W"] },
      { index := 1
        model := some {
          name := "Block"
          lines := [
            { index := 1, calls := [{ name := "Conv2d" }],
              shape := some [.identifier "C", .identifier "H", .identifier "W"] },
            { index := 2, calls := [{ name := "MaxPool2d" }],
              shape := some [.identifier "C", .identifier "H", .identifier "W"] }] } }] }

/-- Inference of the model finds the pooling of its inline model, and nothing else, at odds with the
declared shape. -/
theorem mismatchedProgram_verified :
    ∃ model plan bindings d nodes, planModel model = .ok plan ∧
      (∀ planned ∈ plan, planned.Authored) ∧
      (infer ⟨false, bindings⟩ plan).Yields [d] (nodes, true) ∧ d.isDeclaredMismatch = true ∧
      ∃ first rest shape others, plan = first :: rest ∧ first.declared = some shape ∧
        nodes = inputNode first shape :: others ∧
        Verifies ⟨false, bindings⟩ rest shape [d] others := by
  have hprogram : mismatchedProgram.Authored := by decide +kernel
  have hrun : (lowerProgram mismatchedProgram).toOption.any (fun definition =>
      (resolve Standard.registry false definition).toOption.any fun resolved =>
        (planModel resolved.1).toOption.any fun plan =>
          (resolveBindings resolved.1.hyperparameterValues).toOption.any fun bindings =>
            let run := infer ⟨false, bindings⟩ plan
            run.outcome.toOption.any (·.2) &&
              run.report.errors.map (·.isDeclaredMismatch) == [true]) = true := by
    decide +kernel
  simp only [Option.any_eq_true, Bool.and_eq_true, beq_iff_eq, toOption_eq_some_iff] at hrun
  obtain ⟨definition, hlowered, ⟨model, warnings⟩, hresolved, plan, hplan, bindings, _,
    ⟨⟨nodes, complete⟩, houtcome, hcomplete⟩, herrors⟩ := hrun
  obtain ⟨d, hsingle, hmismatch⟩ := List.map_eq_singleton_iff.mp herrors
  obtain rfl : complete = true := hcomplete
  have hmodel := written_resolve Standard.written_registry
    (written_lowerProgram hprogram hlowered) hresolved
  have hauthored : ∀ planned ∈ plan, planned.Authored := fun planned hplanned =>
    (written_planModel hmodel hplan planned hplanned).authored
  have hyields : (infer ⟨false, bindings⟩ plan).Yields [d] (nodes, true) := ⟨houtcome, hsingle⟩
  exact ⟨model, plan, bindings, d, nodes, hplan, hauthored, hyields, hmismatch,
    declared_shapes_verified hplan hauthored hyields⟩

end Shapeline
