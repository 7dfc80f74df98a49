import Shapeline.Lowering
import Shapeline.Proofs.Inference.Naming
import Shapeline.Proofs.Inference.Placeholders
import Shapeline.Proofs.Planned
import Shapeline.Standard

/-!
# Placeholders of a plan

Placeholders are bound and replaced by name. This reaches no other placeholder than the one that is
meant, because the name tells the step that has minted it: the nodes of a plan are numbered apart,
and the steps of a node have different positions.
-/

namespace Shapeline

variable {model : ResolvedModel} {plan : List PlannedNode} {i i' j j' : ℕ} {p p' : Placeholder}

/-- A placeholder that a step mints has a marked name. -/
theorem Mints.marked (h : Mints plan i j p) : Marked p.name := by
  obtain ⟨planned, step, parameter, -, -, rfl⟩ := h
  exact marked_mintPlaceholder step.layerType planned.index j parameter

/-- Placeholders with one name are minted by one step, as long as the names of layer types carry no
mark. -/
theorem Mints.place_unique (hplan : planModel model = .ok plan)
    (hlayers : ∀ planned ∈ plan, ∀ step ∈ planned.steps, ¬ Marked step.layerType.name)
    (h : Mints plan i j p) (h' : Mints plan i' j' p') (hname : p.name = p'.name) :
    i = i' ∧ j = j' := by
  obtain ⟨planned, step, parameter, hplanned, hstep, rfl⟩ := h
  obtain ⟨planned', step', parameter', hplanned', hstep', rfl⟩ := h'
  have hlayer := hlayers planned (List.mem_of_getElem? hplanned) step (List.mem_of_getElem? hstep)
  have hlayer' :=
    hlayers planned' (List.mem_of_getElem? hplanned') step' (List.mem_of_getElem? hstep')
  obtain ⟨-, hindex, hposition⟩ := place_of_mintPlaceholder hlayer hlayer' hname
  rw [index_of_planModel hplan hplanned, index_of_planModel hplan hplanned'] at hindex
  exact ⟨Int.ofNat_inj.mp hindex, hposition⟩

/-- **The names of placeholders never collide.** As long as the name of a layer type carries no
mark, the name of a placeholder determines the layer type, the numbers of the node and the step and
the key of the parameter, whatever characters the key holds. So in a plan whose layer types are
named without marks, placeholders that different steps mint have different names, and no name
without a mark is one of them. When inference of the plan returns, every placeholder in the nodes
and every name that has been bound comes from a step of the plan, unless the plan mentions it
itself. -/
theorem placeholder_names_apart :
    (∀ (layer layer' : String) (node node' step step' : ℤ) (parameter parameter' : String),
      ¬ Marked layer → ¬ Marked layer' →
      (placeholderName layer node step parameter = placeholderName layer' node' step' parameter' ↔
        layer = layer' ∧ node = node' ∧ step = step' ∧ parameter = parameter')) ∧
    ∀ (model : ResolvedModel) (plan : List PlannedNode), planModel model = .ok plan →
      (∀ planned ∈ plan, ∀ step ∈ planned.steps, ¬ Marked step.layerType.name) →
      (∀ i j i' j' p p', Mints plan i j p → Mints plan i' j' p' → (i, j) ≠ (i', j') →
        p.name ≠ p'.name) ∧
      (∀ i j p name, Mints plan i j p → ¬ Marked name → p.name ≠ name) ∧
      ∀ settings report nodes complete, infer settings plan = ⟨report, .ok (nodes, complete)⟩ →
        (∀ n ∈ nodes, ∀ p, n.Mentions p → ComesFrom plan p) ∧
        ∀ name, report.Binds name → ∃ p, ComesFrom plan p ∧ p.name = name := by
  refine ⟨fun layer layer' node node' step step' parameter parameter' hlayer hlayer' =>
    placeholderName_inj hlayer hlayer', fun model plan hplan hlayers => ⟨?_, ?_, ?_⟩⟩
  · intro i j i' j' p p' h h' hne hname
    obtain ⟨rfl, rfl⟩ := h.place_unique hplan hlayers h' hname
    exact hne rfl
  · rintro i j p _ h hname rfl
    exact hname h.marked
  · intro settings report nodes complete h
    obtain ⟨hbinds, hmentions⟩ := comesFrom_of_infer (ordered_planModel hplan) h
    exact ⟨hmentions, hbinds⟩

/-- A model whose second node has twelve dense layers of open size, and whose last one, with the
number eleven, has two of them and declares its shape. -/
def deepProgram : Program where
  imports := ["Activations", "Linear"]
  model := some {
    name := "Deep"
    lines := [
      { index := 0, shape := some [.identifier "C"] },
      { index := 1, calls := [{ name := "Linear", repetitions := .int 12 }] }] ++
      (List.range 9).map (fun i => { index := i + 2, calls := [{ name := "ReLU" }] }) ++ [
      { index := 11, calls := [{ name := "Linear", repetitions := .int 2 }]
        shape := some [.literal (.int 10)] }] }

/-- The size of the last dense layer at node one stays open, and that of the last one at node eleven
is bound. Their placeholders have different names, although the same characters are in them. -/
theorem deepProgram_placeholders :
    ∃ model plan settings report nodes p p', planModel model = .ok plan ∧
      (∀ planned ∈ plan, ∀ step ∈ planned.steps, ¬ Marked step.layerType.name) ∧
      infer settings plan = ⟨report, .ok (nodes, true)⟩ ∧
      Mints plan 1 11 p ∧ p.name = "Linear#1:11.Co" ∧
      Mints plan 11 1 p' ∧ p'.name = "Linear#11:1.Co" ∧
      (placeholderName "Linear" 1 11 "Co" = placeholderName "Linear" 11 1 "Co" ↔
        "Linear" = "Linear" ∧ (1 : ℤ) = 11 ∧ (11 : ℤ) = 1 ∧ "Co" = "Co") ∧
      p.name ≠ p'.name ∧ p.name ≠ "C" ∧
      (∃ n ∈ nodes, n.Mentions p) ∧ ComesFrom plan p ∧
      report.Binds p'.name ∧ ∃ q, ComesFrom plan q ∧ q.name = p'.name := by
  have hrun : (lowerProgram deepProgram).toOption.any (fun definition =>
      (resolve Standard.registry false definition).toOption.any fun resolved =>
        (planModel resolved.1).toOption.any fun plan =>
          (plan.all fun planned => planned.steps.all fun step =>
            decide (¬ Marked step.layerType.name)) &&
          (plan[1]?).any fun planned => (planned.steps[11]?).any fun step =>
            (plan[11]?).any fun planned' => (planned'.steps[1]?).any fun step' =>
              (resolveBindings resolved.1.hyperparameterValues).toOption.any fun bindings =>
                let p := mintPlaceholder step.layerType planned.index 11 outputFeatures
                let p' := mintPlaceholder step'.layerType planned'.index 1 outputFeatures
                let run := infer ⟨false, bindings⟩ plan
                p.name == "Linear#1:11.Co" && p'.name == "Linear#11:1.Co" &&
                  (run.outcome.toOption.any fun result =>
                    result.2 && result.1.any fun n => decide (p ∈ n.output.placeholders)) &&
                  run.report.notes.any fun note =>
                    note.casesOn (fun _ found => found.contains p'.name) fun _ => false) := by
    decide +kernel
  simp only [Option.any_eq_true, List.any_eq_true, List.all_eq_true, Bool.and_eq_true, beq_iff_eq,
    decide_eq_true_eq, toOption_eq_some_iff] at hrun
  obtain ⟨definition, _, ⟨model, warnings⟩, _, plan, hplan, hlayers, planned, hplanned, step, hstep,
    planned', hplanned', step', hstep', bindings, _, ⟨⟨hp, hp'⟩, ⟨nodes, complete⟩, houtcome,
    hcomplete, n, hn, hmention⟩, note, hnote, hbound⟩ := hrun
  obtain rfl : complete = true := hcomplete
  have hmints : Mints plan 1 11 _ := ⟨planned, step, outputFeatures, hplanned, hstep, rfl⟩
  have hmints' : Mints plan 11 1 _ := ⟨planned', step', outputFeatures, hplanned', hstep', rfl⟩
  have hrun : infer ⟨false, bindings⟩ plan =
      ⟨(infer ⟨false, bindings⟩ plan).report, .ok (nodes, true)⟩ :=
    congrArg (Reporting.mk (infer ⟨false, bindings⟩ plan).report) houtcome
  have hbinds : Report.Binds (infer ⟨false, bindings⟩ plan).report
      (mintPlaceholder step'.layerType planned'.index 1 outputFeatures).name := by
    cases note with
    | bound node found => exact ⟨node, found, hnote, hbound⟩
    | stopped node => cases hbound
  obtain ⟨hnames, hplans⟩ := placeholder_names_apart
  obtain ⟨happart, hauthor, hcomes⟩ := hplans model plan hplan hlayers
  obtain ⟨hmentions, hbindings⟩ := hcomes _ _ _ _ hrun
  exact ⟨model, plan, _, _, nodes, _, _, hplan, hlayers, hrun, hmints, hp, hmints', hp',
    hnames _ _ _ _ _ _ _ _ (by decide) (by decide),
    happart _ _ _ _ _ _ hmints hmints' (by decide), hauthor _ _ _ "C" hmints (by decide),
    ⟨n, hn, .output hmention⟩, hmentions n hn _ (.output hmention), hbinds, hbindings _ hbinds⟩

end Shapeline
