import Shapeline.Proofs.Compilation.Stages
import Shapeline.Proofs.Inference.Checkpoints
import Shapeline.Proofs.Reported.Lowering

/-!
# Plans whose inner declared shapes are all checked

The shapes that inline models declare are planned as checkpoints and compared in every run of
inference in which the steps of their nodes can be applied. None of them is skipped.
-/

namespace Shapeline

/-- **No inner declared shape is skipped.** The plan of every node that holds an inline model has, in
order, the shapes that the nodes of the model declare, each after the steps of the nodes up to its
own. Whenever inference returns, every node after the input whose steps have all been applied has
compared each of them once, in order and directly after these steps, and a step that follows is
applied to the declared shape. The input node of a program holds no inline model. -/
theorem inner_shapes_reconciled {model : ResolvedModel} {plan : List PlannedNode}
    (hplan : planModel model = .ok plan) :
    (∀ (i : Nat) spec planned inline, model.definition.nodes[i]? = some spec →
      plan[i]? = some planned → spec.inline = some inline →
        planned.checkpoints = inline.declaredShapes) ∧
      (∀ (settings : InferenceSettings) errors nodes complete,
        (infer settings plan).Yields errors (nodes, complete) →
          ∀ (i : Nat) planned n, plan[i + 1]? = some planned → nodes[i + 1]? = some n →
            n.steps.length = planned.steps.length → planned.Reconciles settings n) ∧
      ∀ program, lowerProgram program = .ok model.definition →
        ∀ spec ∈ model.definition.nodes.head?, spec.inline = none := by
  obtain ⟨hindices, _, hnodes⟩ := planModel_eq_ok_iff.mp hplan
  refine ⟨fun i spec planned inline hspec hplanned hinline => ?_,
    fun settings errors nodes complete h i planned n hplanned hn hcomplete => ?_,
    fun program hlower spec hspec => ?_⟩
  · obtain ⟨hi, rfl⟩ := List.getElem?_eq_some_iff.mp hspec
    obtain ⟨hi', rfl⟩ := List.getElem?_eq_some_iff.mp hplanned
    exact checkpoints_of_planNode hinline (hnodes.get hi hi')
  · obtain ⟨first, rest, shape, others, rfl, _, rfl, hinfers⟩ :=
      infers_of_infer (planModel_eq_ok hplan).2 h
    obtain ⟨found, hmade⟩ := hinfers.exists_inferNode hplanned hn
    have hordered := ordered_planModel hplan planned (List.mem_of_getElem? hplanned)
    exact reconciles_of_inferNode hordered hmade hcomplete
  · have hmem := List.mem_of_head? hspec
    obtain ⟨rest, hrest⟩ := List.head?_eq_some_iff.mp hspec
    have hnumbers := checkIndices_eq_ok_iff.mp hindices
    rw [hrest, List.map_cons, List.length_cons, List.range_succ_eq_map, List.map_cons,
      List.cons.injEq] at hnumbers
    exact (layerless_lowerProgram hlower spec hmem (by simpa using hnumbers.1)).2

/-- A model with an inline model that declares a shape before its first step, and two after the
fourth. -/
def checkpointedProgram : Program where
  imports := ["Activations"]
  model := some {
    name := "Checkpointed"
    lines := [
      { index := 0, shape := some [.identifier "C"] },
      { index := 1
        model := some {
          name := "Block"
          lines := [
            { index := 1, shape := some [.identifier "C"] },
            { index := 2,
              calls := [{ name := "ReLU", repetitions := .int 3 }] },
            { index := 3, calls := [{ name := "ReLU" }], shape := some [.identifier "C"] },
            { index := 4, shape := some [.identifier "C"] },
            { index := 5, calls := [{ name := "ReLU" }] }] } }] }

/-- Inference of the model compares the three shapes, of which two are due together. -/
theorem checkpointedProgram_reconciled :
    ∃ model plan bindings nodes spec inline planned n, planModel model = .ok plan ∧
      (infer ⟨false, bindings⟩ plan).Yields [] (nodes, true) ∧
      model.definition.nodes[1]? = some spec ∧ spec.inline = some inline ∧
      plan[1]? = some planned ∧ nodes[1]? = some n ∧
      planned.checkpoints.map (·.after) = [0, 4, 4] ∧ n.steps.length = 5 ∧
      planned.checkpoints = inline.declaredShapes ∧
      planned.Reconciles ⟨false, bindings⟩ n := by
  have hrun : (lowerProgram checkpointedProgram).toOption.any (fun definition =>
      (resolve Standard.registry false definition).toOption.any fun resolved =>
        (resolved.1.definition.nodes[1]?).any fun spec =>
          spec.inline.isSome &&
            (planModel resolved.1).toOption.any fun plan =>
              (plan[1]?).any fun planned =>
                planned.checkpoints.map (·.after) == [0, 4, 4] &&
                  (resolveBindings resolved.1.hyperparameterValues).toOption.any fun bindings =>
                    let run := infer ⟨false, bindings⟩ plan
                    run.report.errors == [] && run.outcome.toOption.any fun result =>
                      result.2 && (result.1[1]?).any fun n =>
                        n.steps.length == 5 && planned.steps.length == 5) = true := by
    decide +kernel
  simp only [Option.any_eq_true, Bool.and_eq_true, beq_iff_eq, toOption_eq_some_iff,
    Option.isSome_iff_exists] at hrun
  obtain ⟨definition, _, ⟨model, warnings⟩, _, spec, hspec, ⟨inline, hinline⟩, plan, hplan,
    planned, hplanned, hafter, bindings, _, herrors, ⟨nodes, complete⟩, houtcome, hcomplete, n, hn,
    hmade, hsteps⟩ := hrun
  obtain rfl : complete = true := hcomplete
  have hyields : (infer ⟨false, bindings⟩ plan).Yields [] (nodes, true) := ⟨houtcome, herrors⟩
  obtain ⟨hcheckpoints, hreconciles, _⟩ := inner_shapes_reconciled hplan
  exact ⟨model, plan, bindings, nodes, spec, inline, planned, n, hplan, hyields, hspec, hinline,
    hplanned, hn, hafter, hmade, hcheckpoints 1 spec planned inline hspec hplanned hinline,
    hreconciles _ _ _ _ hyields 0 planned n hplanned hn (hmade.trans hsteps.symm)⟩

end Shapeline
