import Shapeline.Lowering
import Shapeline.Proofs.Inference.Containment
import Shapeline.Proofs.Planned
import Shapeline.Standard

/-!
# Plans whose failures are contained

Inference of a plan records the input node and then the nodes of the plan in order. A rule that fails
ends its node, and the whole run only if nothing tells the shape that the next node starts from.
-/

namespace Shapeline

/-- **Failures are contained.** Inference of a plan that returns has made the input node and the next
nodes of the plan, in order. It is incomplete exactly if a node is left, at which a rule failed and
no shape is declared to go on from. The diagnostics fall into one report for each node after the
input, in order, and carry its number: differences from declared shapes and, if a rule fails, its
complaint at the end, the steps of the node being those before the failing one. An incomplete run has
recorded a diagnostic. -/
theorem failures_contained {model : ResolvedModel} {plan : List PlannedNode}
    {settings : InferenceSettings} {errors : List Diagnostic} {nodes : List GraphNode}
    {complete : Bool} (hplan : planModel model = .ok plan)
    (h : (infer settings plan).Yields errors (nodes, complete)) :
    ∃ first rest shape others reports, plan = first :: rest ∧ first.declared = some shape ∧
      nodes = inputNode first shape :: others ∧ errors = reports.flatten ∧
      Contained settings rest shape reports others complete ∧
      (∀ (i : Nat) n, nodes[i]? = some n → n.index = i) ∧
      (∀ (i : Nat) report, reports[i]? = some report → ∀ d ∈ report, d.node = some (i + 1 : Int)) ∧
      (complete = false → errors ≠ []) := by
  obtain ⟨first, rest, shape, others, rfl, hdeclared, rfl, hothers⟩ :=
    inferNodes_of_infer (planModel_eq_ok hplan).2 h
  have hordered := (List.forall_mem_cons.mp (ordered_planModel hplan)).2
  obtain ⟨reports, rfl, hcontained⟩ := contained_of_inferNodes hordered hothers
  have hnumber (i : Nat) (planned : PlannedNode) (hplanned : rest[i]? = some planned) :
      planned.index = (i + 1 : Int) := by
    have hindex := index_of_planModel hplan (i := i + 1) hplanned
    exact_mod_cast hindex
  have hreported (i : Nat) (hi : i < reports.length) : ∃ planned, rest[i]? = some planned := by
    have hlength := hcontained.length_reports
    exact ⟨_, List.getElem?_eq_getElem (by omega)⟩
  refine ⟨first, rest, shape, others, reports, rfl, hdeclared, rfl, rfl, hcontained, ?_, ?_,
    hcontained.flatten_ne_nil⟩
  · intro i n hn
    cases i with
    | zero =>
      obtain rfl := Option.some.inj hn
      rfl
    | succ i =>
      have hlt := (List.getElem?_eq_some_iff.mp hn).1
      have hmade : i < others.length := by simpa using hlt
      have hlength := hcontained.length_reports
      have hwithin := hcontained.within
      obtain ⟨planned, hplanned⟩ := hreported i (by omega)
      obtain ⟨c, hc⟩ := (hcontained.recorded i planned n _ hplanned hn
        (List.getElem?_eq_getElem (by omega))).made
      rw [hc]
      exact_mod_cast hnumber i planned hplanned
  · intro i report hreport d hd
    obtain ⟨planned, hplanned⟩ := hreported i (List.getElem?_eq_some_iff.mp hreport).1
    rw [hcontained.node hplanned hreport d hd, hnumber i planned hplanned]

/-- A model whose nodes end in all ways: one differs from its declared shape, then convolutions fail
at a node that declares a shape, at one whose inline model does, and at one that nothing follows
up. -/
def interruptedProgram : Program where
  imports := ["Activations", "Convolutions"]
  model := some {
    name := "Interrupted"
    lines := [
      { index := 0, shape := some [.identifier "C"] },
      { index := 1, calls := [{ name := "ReLU" }], shape := some [.identifier "H"] },
      { index := 2, calls := [{ name := "ReLU" }, { name := "Conv2d" }],
        shape := some [.identifier "C"] },
      { index := 3
        model := some {
          name := "Block"
          lines := [{ index := 1, calls := [{ name := "Conv2d" }],
                      shape := some [.identifier "C"] }] } },
      { index := 4, calls := [{ name := "Conv2d" }] },
      { index := 5, calls := [{ name := "ReLU" }] }] }

/-- Inference of the model stops at the fourth node after the input and reports each of the four. -/
theorem interruptedProgram_contained :
    ∃ model plan bindings errors nodes, planModel model = .ok plan ∧
      (infer ⟨false, bindings⟩ plan).Yields errors (nodes, false) ∧
      plan.length = 6 ∧ nodes.length = 4 ∧
      errors.map (·.isDeclaredMismatch) = [true, false, false, false] ∧
      ∃ first rest shape others reports, plan = first :: rest ∧ first.declared = some shape ∧
        nodes = inputNode first shape :: others ∧ errors = reports.flatten ∧
        Contained ⟨false, bindings⟩ rest shape reports others false ∧
        (∀ (i : Nat) n, nodes[i]? = some n → n.index = i) ∧
        (∀ (i : Nat) report, reports[i]? = some report →
          ∀ d ∈ report, d.node = some (i + 1 : Int)) ∧
        (false = false → errors ≠ []) := by
  have hrun : (lowerProgram interruptedProgram).toOption.any (fun definition =>
      (resolve Standard.registry false definition).toOption.any fun resolved =>
        (planModel resolved.1).toOption.any fun plan =>
          (resolveBindings resolved.1.hyperparameterValues).toOption.any fun bindings =>
            let run := infer ⟨false, bindings⟩ plan
            plan.length == 6 &&
              run.outcome.toOption.any (fun result => result.1.length == 4 && !result.2) &&
              run.report.errors.map (·.isDeclaredMismatch) == [true, false, false, false]) =
      true := by
    decide +kernel
  simp only [Option.any_eq_true, Bool.and_eq_true, beq_iff_eq, toOption_eq_some_iff,
    Bool.not_eq_true'] at hrun
  obtain ⟨definition, _, ⟨model, warnings⟩, _, plan, hplan, bindings, _, ⟨hlength,
    ⟨⟨nodes, complete⟩, houtcome, hnodes, hcomplete⟩⟩, herrors⟩ := hrun
  obtain rfl : complete = false := hcomplete
  have hyields : (infer ⟨false, bindings⟩ plan).Yields _ (nodes, false) := ⟨houtcome, rfl⟩
  exact ⟨model, plan, bindings, _, nodes, hplan, hyields, hlength, hnodes, herrors,
    failures_contained hplan hyields⟩

end Shapeline
