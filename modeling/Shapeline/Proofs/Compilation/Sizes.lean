import Shapeline.Proofs.Compilation.Stages
import Shapeline.Proofs.Inference.Sizes
import Shapeline.Proofs.Planned
import Shapeline.Standard

/-!
# Output sizes that are left to a declared shape

A node that declares a shape need not say the output size of its last convolution or dense step: the
size is taken from the first declared axis.
-/

namespace Shapeline

/-- **A missing output size is taken from the declared shape.** Let a node without inline model
declare a shape, let a convolution or a dense step of it have no output size, and let only pointwise
steps, poolings and softmaxes follow. If no step fails and the inferred shape has the declared number
of axes, the size of the step is the first declared axis, and the placeholder that stood for it
occurs nowhere in the node. Every parameter that has a value in the plan is as it was, except that
the axis of a softmax counts from the front if it selects one. -/
theorem missing_sizes_declared {program : Program} {definition : Definition} {warnUnused : Bool}
    {model : ResolvedModel} {warnings : List Warning} {plan : List PlannedNode}
    {settings : InferenceSettings} {errors : List Diagnostic} {nodes : List GraphNode}
    {complete : Bool} {i j : Nat} {planned : PlannedNode} {n : GraphNode} {shape : Shape}
    {step : PlannedStep} {output : String} (hprogram : program.Authored)
    (hlower : lowerProgram program = .ok definition)
    (hresolve : resolve Standard.registry warnUnused definition = .ok (model, warnings))
    (hplan : planModel model = .ok plan)
    (hinfer : (infer settings plan).Yields errors (nodes, complete))
    (hplanned : plan[i]? = some planned) (hn : nodes[i]? = some n)
    (hplain : planned.submodel = none) (hdeclared : planned.declared = some shape)
    (hstep : planned.steps[j]? = some step)
    (houtput : step.layerType.rule.family.outputParameter? = some output)
    (hmissing : step.params.given? output = none)
    (hlater : ∀ (k : Nat) later, j < k → planned.steps[k]? = some later →
      later.layerType.rule.family ∈ [.pointwise, .pooling, .softmax])
    (hcomplete : n.steps.length = planned.steps.length) (hrank : n.inferred.rank = shape.rank) :
    planned.Sized n j output (mintPlaceholder step.layerType planned.index j output) shape := by
  have hmodel := written_resolve Standard.written_registry
    (written_lowerProgram hprogram hlower) hresolve
  have hwritten := written_planModel hmodel hplan
  have hmem := List.mem_of_getElem? hplanned
  have hcheckpoints := checkpoints_of_plain hplan hmem hplain
  have hplannedWritten := hwritten planned hmem
  obtain ⟨first, rest, start, others, rfl, hstart, rfl, hinfers⟩ :=
    infers_of_infer (planModel_eq_ok hplan).2 hinfer
  cases i with
  | zero =>
    obtain rfl := Option.some.inj hn
    have hlt := (List.getElem?_eq_some_iff.mp hstep).1
    rw [← hcomplete] at hlt
    cases hlt
  | succ i =>
    obtain ⟨hfirst, hrest⟩ := List.forall_mem_cons.mp hwritten
    obtain ⟨found, hmade⟩ := hinfers.exists_inferNode hplanned hn
    have hinput := hinfers.flowing hrest (hfirst.declared start hstart).flowing n
      (List.mem_of_getElem? hn)
    exact sized_of_inferNode hplannedWritten hcheckpoints hdeclared hinput hmade hcomplete hrank
      hstep houtput hmissing hlater

/-- A model that leaves the output channels of two convolutions open and declares an axis that does
not match. -/
def unsizedProgram : Program where
  imports := ["Activations", "Convolutions", "Pooling"]
  model := some {
    name := "Unsized"
    lines := [
      { index := 0, shape := some [.identifier "C", .identifier "H", .identifier "W"] },
      { index := 1
        calls := [{ name := "Conv2d" }, { name := "Conv2d" }, { name := "ReLU" },
          { name := "MaxPool2d" }]
        shape := some [.literal (.int 16), .identifier "H", .identifier "W"] }] }

/-- The second convolution of the model gets the declared channels, although the other axes do not
match. -/
theorem unsizedProgram_sized :
    unsizedProgram.Authored ∧ ∃ plan bindings errors nodes planned n shape step,
      (infer ⟨false, bindings⟩ plan).Yields errors (nodes, true) ∧ errors ≠ [] ∧
      plan[1]? = some planned ∧ nodes[1]? = some n ∧ planned.submodel = none ∧
      planned.declared = some shape ∧ planned.steps[1]? = some step ∧
      step.params.given? outputChannels = none ∧ n.steps.length = planned.steps.length ∧
      n.inferred.rank = shape.rank ∧
      planned.Sized n 1 outputChannels
        (mintPlaceholder step.layerType planned.index 1 outputChannels) shape := by
  have hprogram : unsizedProgram.Authored := by decide +kernel
  have hrun : (lowerProgram unsizedProgram).toOption.any (fun definition =>
      (resolve Standard.registry false definition).toOption.any fun resolved =>
        (planModel resolved.1).toOption.any fun plan =>
          (plan[1]?).any fun planned => planned.submodel == none &&
            planned.declared.any fun shape => (planned.steps[1]?).any fun step =>
              step.layerType.rule.family.outputParameter? == some outputChannels &&
              (step.params.given? outputChannels).isNone &&
              (planned.steps.drop 2).all (fun later =>
                later.layerType.rule.family ∈ [.pointwise, .pooling, .softmax]) &&
              (resolveBindings resolved.1.hyperparameterValues).toOption.any fun bindings =>
                let run := infer ⟨false, bindings⟩ plan
                !run.report.errors.isEmpty && run.outcome.toOption.any fun result =>
                  result.2 && (result.1[1]?).any fun n =>
                    n.steps.length == planned.steps.length && n.inferred.rank == shape.rank) =
      true := by
    decide +kernel
  simp only [Option.any_eq_true, Bool.and_eq_true, beq_iff_eq, toOption_eq_some_iff,
    Option.isNone_iff_eq_none, List.all_eq_true, decide_eq_true_eq, Bool.not_eq_true',
    List.isEmpty_eq_false_iff] at hrun
  obtain ⟨definition, hlower, ⟨model, warnings⟩, hresolve, plan, hplan, planned, hplanned, hplain,
    shape, hdeclared, step, hstep, ⟨⟨houtput, hmissing⟩, hlater⟩, bindings, _, herrors,
    ⟨nodes, complete⟩, houtcome, hcomplete, n, hn, hsteps, hrank⟩ := hrun
  obtain rfl : complete = true := hcomplete
  have hyields : (infer ⟨false, bindings⟩ plan).Yields _ (nodes, true) := ⟨houtcome, rfl⟩
  have hkeep (k : Nat) (later : PlannedStep) (hk : 1 < k) (hstep : planned.steps[k]? = some later) :
      later.layerType.rule.family ∈ [.pointwise, .pooling, .softmax] := by
    refine hlater later (List.mem_of_getElem? (i := k - 2) ?_)
    rw [List.getElem?_drop, Nat.add_sub_cancel' hk, hstep]
  exact ⟨hprogram, plan, bindings, _, nodes, planned, n, shape, step, hyields, herrors, hplanned,
    hn, hplain, hdeclared, hstep, hmissing, hsteps, hrank,
    missing_sizes_declared hprogram hlower hresolve hplan hyields hplanned hn hplain hdeclared hstep
      houtput hmissing hkeep hsteps hrank⟩

/-- A model with a dense layer of open size and a softmax whose axis is counted from the end. -/
def countedProgram : Program where
  imports := ["Linear", "Softmax"]
  model := some {
    name := "Counted"
    lines := [
      { index := 0, shape := some [.identifier "C"] },
      { index := 1
        calls := [{ name := "Linear" }, {
          name := "Softmax"
          overrides := [{
            description := axisParameter
            value := some (.unary "-" (.literal (.int 1))) }] }]
        shape := some [.literal (.int 10)] }] }

/-- The axis that the author has set for the softmax is not what the node records. -/
theorem author_axis_counted :
    countedProgram.Authored ∧ ∃ definition model warnings plan bindings nodes planned n,
      lowerProgram countedProgram = .ok definition ∧
      resolve Standard.registry false definition = .ok (model, warnings) ∧
      planModel model = .ok plan ∧
      (infer ⟨false, bindings⟩ plan).Yields [] (nodes, true) ∧
      plan[1]? = some planned ∧ nodes[1]? = some n ∧ planned.submodel = none ∧
      (∃ shape, planned.declared = some shape ∧ n.inferred.rank = shape.rank) ∧
      planned.steps.map (·.layerType.rule.family) = [.dense, .softmax] ∧
      n.steps.length = planned.steps.length ∧
      (∃ step, planned.steps[0]? = some step ∧ step.params.given? outputFeatures = none) ∧
      (∃ step, planned.steps[1]? = some step ∧
        step.params.term? axisParameter .absent = some (.const (-1))) ∧
      ∃ s, n.steps[1]? = some s ∧ s.params.term? axisParameter .absent = some (.const 0) := by
  have hprogram : countedProgram.Authored := by decide +kernel
  have hrun : (lowerProgram countedProgram).toOption.any (fun definition =>
      (resolve Standard.registry false definition).toOption.any fun resolved =>
        (planModel resolved.1).toOption.any fun plan =>
          (plan[1]?).any fun planned => planned.submodel == none &&
            planned.steps.map (·.layerType.rule.family) == [.dense, .softmax] &&
            (planned.steps[0]?).any (fun step =>
              (step.params.given? outputFeatures).isNone) &&
            (planned.steps[1]?).any (fun step =>
              step.params.term? axisParameter .absent == some (.const (-1))) &&
            planned.declared.any fun shape =>
              (resolveBindings resolved.1.hyperparameterValues).toOption.any fun bindings =>
                let run := infer ⟨false, bindings⟩ plan
                run.report.errors == [] && run.outcome.toOption.any fun result =>
                  result.2 && (result.1[1]?).any fun n =>
                    n.steps.length == planned.steps.length && n.inferred.rank == shape.rank &&
                      (n.steps[1]?).any fun s =>
                        s.params.term? axisParameter .absent == some (.const 0)) = true := by
    decide +kernel
  simp only [Option.any_eq_true, Bool.and_eq_true, beq_iff_eq, toOption_eq_some_iff,
    Option.isNone_iff_eq_none] at hrun
  obtain ⟨definition, hlower, ⟨model, warnings⟩, hresolve, plan, hplan, planned, hplanned,
    ⟨⟨⟨hplain, hfamilies⟩, hdense⟩, hsoftmax⟩, shape, hdeclared, bindings, _, herrors,
    ⟨nodes, complete⟩, houtcome, hcomplete, n, hn, ⟨hsteps, hrank⟩, haxis⟩ := hrun
  obtain rfl : complete = true := hcomplete
  exact ⟨hprogram, definition, model, warnings, plan, bindings, nodes, planned, n, hlower, hresolve,
    hplan, ⟨houtcome, herrors⟩, hplanned, hn, hplain, ⟨shape, hdeclared, hrank⟩, hfamilies, hsteps,
    hdense, hsoftmax, haxis⟩

end Shapeline
