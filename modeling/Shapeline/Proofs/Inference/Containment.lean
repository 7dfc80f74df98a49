import Shapeline.Proofs.Inference.Mismatches
import Shapeline.Proofs.Inference.Moves

/-!
# Failures that are contained

Every diagnostic that inference records carries the number of its node. A node records how shapes
differ from declared ones and, if a rule fails, the complaint of the rule at the end. Inference then
goes on from a declared shape, and it stops only at a node whose next shape nothing declares.
-/

namespace Shapeline

namespace PlannedNode

/-- A diagnostic is about a difference from a declared shape and carries the number of the node. -/
structure Differs (planned : PlannedNode) (d : Diagnostic) : Prop where
  /-- The diagnostic is about a declared shape. -/
  mismatch : d.isDeclaredMismatch = true
  /-- The diagnostic carries the number of the node. -/
  node : d.node = some planned.index

/-- After some steps, which are those before it in the plan, the rule of the next step fails with a
complaint. -/
structure FailsWith (settings : InferenceSettings) (planned : PlannedNode) (input : Shape)
    (steps : List LayerStep) (complaint : Diagnostic) : Prop where
  /-- The steps are the first ones of the plan. -/
  before : steps.map (·.layerType) =
    (planned.steps.take steps.length).map fun step => some step.layerType
  /-- The moves before the next step can be made, and the step cannot be applied. -/
  raised : ∃ c step d,
    (perform settings planned (planned.movesTo steps.length) ⟨[], input⟩).outcome = .ok c ∧
      c.steps = steps ∧ planned.steps[steps.length]? = some step ∧
      applyStep settings planned.index steps.length step c.shape = .error (.problem d) ∧
      complaint = d.atNode planned.index (some step.layerType.name)
  /-- The complaint is not about a declared shape. -/
  rule : complaint.isDeclaredMismatch = false
  /-- The complaint carries the number of the node. -/
  node : complaint.node = some planned.index

/-- What a node records with some of its steps: how shapes differ from declared ones, and at the end
the complaint of the rule of the next step, unless all steps could be applied. -/
inductive Ended (settings : InferenceSettings) (planned : PlannedNode) (input : Shape)
    (steps : List LayerStep) : List Diagnostic → Prop
  /-- All steps are applied. -/
  | completed {mismatches : List Diagnostic} :
    steps.map (·.layerType) = (planned.steps.map fun step => some step.layerType) →
    (∀ d ∈ mismatches, planned.Differs d) → Ended settings planned input steps mismatches
  /-- The rule of the next step fails. -/
  | failed {mismatches : List Diagnostic} {complaint : Diagnostic} :
    (∀ d ∈ mismatches, planned.Differs d) → planned.FailsWith settings input steps complaint →
    Ended settings planned input steps (mismatches ++ [complaint])

/-- A node of the graph that is made of a planned node, with what is recorded about it. -/
structure Recorded (settings : InferenceSettings) (planned : PlannedNode) (n : GraphNode)
    (report : List Diagnostic) : Prop where
  /-- The node is made of the planned one. -/
  made : ∃ c, n = planned.finish n.input c n.output
  /-- The steps of the node are those that could be applied. -/
  ended : planned.Ended settings n.input n.steps report

/-- A planned node of which no node of the graph is made: a rule fails, and neither the node nor its
inline model after the last step declares a shape. -/
structure Stopped (settings : InferenceSettings) (planned : PlannedNode) (input : Shape)
    (report : List Diagnostic) : Prop where
  /-- A rule fails, and its complaint is recorded last. -/
  failed : ∃ mismatches complaint steps, report = mismatches ++ [complaint] ∧
    (∀ d ∈ mismatches, planned.Differs d) ∧ planned.FailsWith settings input steps complaint
  /-- The node declares no shape. -/
  undeclared : planned.declared = none
  /-- The inline model declares no shape after the last step. -/
  unchecked : ∀ checkpoint ∈ planned.checkpoints, checkpoint.after ≠ planned.steps.length

end PlannedNode

variable {settings : InferenceSettings} {planned : PlannedNode} {input declared : Shape}
  {c d e : Chain} {moves : List Move} {report : Report} {errors : List Diagnostic} {what : String}
  {made : Option GraphNode} {n : GraphNode}

/-- A comparison with a shape that is called a declared one records differences from it. -/
theorem differs_of_reconcile (hwhat : "declared shape".toList.isPrefixOf what.toList = true)
    (h : (reconcile settings planned.index c declared what).Yields errors d) :
    ∀ x ∈ errors, planned.Differs x := by
  obtain ⟨_, found, _, rfl⟩ := reconcile_yields_iff.mp h
  cases found with
  | none => simp [discrepancyErrors]
  | some found =>
    simp only [discrepancyErrors, reportDiscrepancy]
    split
    · simp
    · exact List.forall_mem_singleton.mpr ⟨hwhat, rfl⟩

/-- Making moves records differences from declared shapes and nothing else. -/
theorem differs_of_perform (h : perform settings planned moves c = ⟨report, .ok d⟩) :
    ∀ x ∈ report.errors, planned.Differs x := by
  induction moves generalizing c report with
  | nil =>
    obtain ⟨rfl, -⟩ := Reporting.pure_eq_ok_iff.mp h
    simp
  | cons move rest ih =>
    cases move with
    | apply position step =>
      obtain ⟨applied, first, second, happly, hrest, rfl⟩ := Reporting.bind_eq_ok_iff.mp h
      have hnone : first.errors = [] :=
        (Reporting.yields_ofOutcome_iff.mp (Reporting.yields_of_eq happly)).1
      refine List.forall_mem_append.mpr ⟨?_, ih hrest⟩
      simp [hnone]
    | check checkpoint =>
      obtain ⟨reconciled, first, second, hfirst, hrest, rfl⟩ := Reporting.bind_eq_ok_iff.mp h
      have hdiffers := differs_of_reconcile (isPrefixOf_checkpointName checkpoint)
        (Reporting.yields_of_eq hfirst)
      exact List.forall_mem_append.mpr ⟨hdiffers, ih hrest⟩

/-- What the end of a node adds is a comparison with its declared shape. -/
theorem made_of_conclude (h : planned.conclude settings input c = ⟨report, .ok n⟩) :
    (∃ d, n = planned.finish input d n.output ∧
      d.steps.map (·.layerType) = c.steps.map (·.layerType)) ∧
      ∀ x ∈ report.errors, planned.Differs x := by
  rcases PlannedNode.conclude_eq_ok_iff.mp h with
    ⟨-, rfl, rfl⟩ | ⟨shape, d, -, hreconcile, rfl⟩
  · exact ⟨⟨c, rfl, rfl⟩, by simp⟩
  · have hyields := Reporting.yields_of_eq hreconcile
    have hwhat : "declared shape".toList.isPrefixOf "declared shape".toList = true := by
      rw [List.isPrefixOf_iff_prefix]
    exact ⟨⟨d, rfl, Chain.layerTypes_of_substitute (reconcile_yields_iff.mp hyields).1⟩,
      differs_of_reconcile hwhat hyields⟩

/-- A step that cannot be applied is complained about at its node. -/
theorem failsWith_of_applyStep {done : Nat} {step : PlannedStep} {x : Diagnostic}
    (hperform : (perform settings planned (planned.movesTo done) ⟨[], input⟩).outcome = .ok c)
    (hstep : planned.steps[done]? = some step)
    (happly : applyStep settings planned.index done step c.shape = .error (.problem x)) :
    planned.FailsWith settings input c.steps
      (x.atNode planned.index (some step.layerType.name)) := by
  have hlt := (List.getElem?_eq_some_iff.mp hstep).1
  obtain ⟨rfl, htypes⟩ := layerTypes_of_movesTo hlt.le hperform
  have hraised := raisedByRule_of_applyStep happly
  have hrule : (x.atNode planned.index (some step.layerType.name)).OfRule := hraised.ofRule
  refine ⟨htypes, ⟨c, step, x, hperform, rfl, hstep, happly, rfl⟩, hrule.isDeclaredMismatch, ?_⟩
  rw [Diagnostic.atNode, hraised.node]
  rfl

/-- Nothing tells the next shape after a failure only if neither the node nor its inline model after
the last step declares one. -/
theorem undeclared_of_fallbackShape (hplanned : planned.Ordered)
    (h : fallbackShape planned = none) :
    planned.declared = none ∧
      ∀ checkpoint ∈ planned.checkpoints, checkpoint.after ≠ planned.steps.length := by
  obtain ⟨hdeclared, hlast⟩ := Option.or_eq_none_iff.mp h
  refine ⟨hdeclared, fun checkpoint hcheckpoint hafter => ?_⟩
  cases hfinal : planned.checkpoints.getLast? with
  | none =>
    rw [List.getLast?_eq_none_iff.mp hfinal] at hcheckpoint
    cases hcheckpoint
  | some final =>
    obtain ⟨before, hsplit⟩ := List.getLast?_eq_some_iff.mp hfinal
    have hle : checkpoint.after ≤ final.after := by
      have hpairwise := hplanned.pairwise
      rw [hsplit] at hpairwise hcheckpoint
      rcases List.mem_append.mp hcheckpoint with hmem | hmem
      · exact (List.pairwise_append.mp hpairwise).2.2 _ hmem _ (List.mem_singleton_self final)
      · exact (congrArg Checkpoint.after (List.mem_singleton.mp hmem)).le
    have hbound := hplanned.bounded final (List.mem_of_getLast? hfinal)
    rw [hfinal, Option.bind_some, if_pos (by omega)] at hlast
    cases hlast

/-- Inference of a node records what it is to record, whether a node is made or not. -/
theorem recorded_of_inferNode (hplanned : planned.Ordered)
    (h : (inferNode settings planned input).Yields errors made) :
    (∀ n, made = some n → n.input = input ∧ planned.Recorded settings n errors) ∧
      (made = none → planned.Stopped settings input errors) := by
  obtain ⟨report, hreport, rfl⟩ := Reporting.yields_iff.mp h
  cases runs_of_inferNode hplanned.pairwise hreport with
  | @completed first second c n hperform hconclude =>
    obtain ⟨⟨d, hn, htypes⟩, hlast⟩ := made_of_conclude hconclude
    obtain ⟨_, hfirst⟩ := layerTypes_of_movesTo le_rfl (congrArg Reporting.outcome hperform)
    refine ⟨fun other hother => ?_, nofun⟩
    obtain rfl := Option.some.inj hother
    have hinput : n.input = input := by rw [hn]; rfl
    have hsteps : n.steps = d.steps := by rw [hn]; rfl
    refine ⟨hinput, ⟨d, hinput ▸ hn⟩, .completed ?_ ?_⟩
    · rw [hsteps, htypes, hfirst, List.take_length]
    · exact List.forall_mem_append.mpr ⟨differs_of_perform hperform, hlast⟩
  | @failed report c done step x hperform hstep happly =>
    have hfails := failsWith_of_applyStep (congrArg Reporting.outcome hperform) hstep happly
    have hdiffers := differs_of_perform hperform
    refine ⟨fun n hn => ?_, fun hnone => ?_⟩
    · obtain ⟨output, _, rfl⟩ := Option.map_eq_some_iff.mp hn
      exact ⟨rfl, ⟨c, rfl⟩, .failed hdiffers hfails⟩
    · obtain ⟨hundeclared, hunchecked⟩ :=
        undeclared_of_fallbackShape hplanned (Option.map_eq_none_iff.mp hnone)
      exact ⟨⟨_, _, _, rfl, hdiffers, hfails⟩, hundeclared, hunchecked⟩

/-- What inference makes of the nodes after the input, with what it records about each. -/
structure Contained (settings : InferenceSettings) (plan : List PlannedNode) (input : Shape)
    (reports : List (List Diagnostic)) (nodes : List GraphNode) (complete : Bool) : Prop where
  /-- The nodes that are made are the first ones of the plan. -/
  within : nodes.length ≤ plan.length
  /-- The run is incomplete exactly if a node is left. -/
  complete_iff : complete = false ↔ nodes.length < plan.length
  /-- There is a report for every node that is made, and for the one that inference stops at. -/
  length_reports : reports.length = min (nodes.length + 1) plan.length
  /-- Every node that is made is that of its place in the plan, and is reported at that place. -/
  recorded : ∀ (i : Nat) (planned : PlannedNode) (n : GraphNode) (report : List Diagnostic),
    plan[i]? = some planned → nodes[i]? = some n → reports[i]? = some report →
      planned.Recorded settings n report
  /-- Every node starts from the output of the one before. -/
  chained : ∀ (i : Nat) (n : GraphNode), nodes[i]? = some n →
    n.input = ((nodes.take i).map (·.output)).getLastD input
  /-- Inference stops only at a node without a shape to go on from. -/
  stopped : ∀ (planned : PlannedNode) (report : List Diagnostic),
    plan[nodes.length]? = some planned → reports[nodes.length]? = some report →
      planned.Stopped settings ((nodes.map (·.output)).getLastD input) report

/-- Inference of several nodes contains their failures. -/
theorem contained_of_inferNodes {plan : List PlannedNode} {nodes : List GraphNode}
    {complete : Bool} (hplan : ∀ planned ∈ plan, planned.Ordered)
    (h : (inferNodes settings plan input).Yields errors (nodes, complete)) :
    ∃ reports, errors = reports.flatten ∧ Contained settings plan input reports nodes complete := by
  induction plan generalizing input errors nodes complete with
  | nil =>
    obtain ⟨rfl, rfl, rfl⟩ := yields_inferNodes_nil_iff.mp h
    exact ⟨[], rfl, le_rfl, by simp, rfl, by simp, by simp, by simp⟩
  | cons planned rest ih =>
    obtain ⟨hplanned, hrest⟩ := List.forall_mem_cons.mp hplan
    rcases yields_inferNodes_cons_iff.mp h with
      ⟨hmade, rfl, rfl⟩ | ⟨first, second, n, others, hmade, hothers, rfl, rfl⟩
    · obtain ⟨-, hstopped⟩ := recorded_of_inferNode hplanned hmade
      refine ⟨[errors], by simp, Nat.zero_le _, by simp, by simp, by simp, by simp, ?_⟩
      intro other report hother hreport
      obtain rfl := Option.some.inj hother
      obtain rfl := Option.some.inj hreport
      exact hstopped rfl
    · obtain ⟨hrecorded, -⟩ := recorded_of_inferNode hplanned hmade
      obtain ⟨reports, rfl, hcontained⟩ := ih hrest hothers
      obtain ⟨hinput, hfirst⟩ := hrecorded n rfl
      refine ⟨first :: reports, by simp, ?_, ?_, ?_, ?_, ?_, ?_⟩
      · exact Nat.succ_le_succ hcontained.within
      · simpa using hcontained.complete_iff
      · have hlength := hcontained.length_reports
        simp only [List.length_cons]
        omega
      · intro i other m report hother hm hreport
        cases i with
        | zero =>
          obtain rfl := Option.some.inj hother
          obtain rfl := Option.some.inj hm
          obtain rfl := Option.some.inj hreport
          exact hfirst
        | succ i => exact hcontained.recorded i other m report hother hm hreport
      · intro i m hm
        cases i with
        | zero =>
          obtain rfl := Option.some.inj hm
          exact hinput
        | succ i =>
          rw [List.take_succ_cons, List.map_cons, List.getLastD_cons]
          exact hcontained.chained i m hm
      · intro other report hother hreport
        rw [List.map_cons, List.getLastD_cons]
        exact hcontained.stopped other report hother hreport

/-- What a node records carries its number, whether all steps are applied or not. -/
theorem PlannedNode.Ended.node {steps : List LayerStep}
    (h : planned.Ended settings input steps errors) : ∀ d ∈ errors, d.node = some planned.index := by
  cases h with
  | completed _ hdiffers => exact fun d hd => (hdiffers d hd).node
  | failed hdiffers hfails =>
    exact List.forall_mem_append.mpr ⟨fun d hd => (hdiffers d hd).node,
      List.forall_mem_singleton.mpr hfails.node⟩

namespace Contained

variable {plan : List PlannedNode} {nodes : List GraphNode} {reports : List (List Diagnostic)}
  {complete : Bool}

/-- A report is about the node at its place in the plan. -/
theorem node (h : Contained settings plan input reports nodes complete) {i : Nat}
    {report : List Diagnostic} (hplanned : plan[i]? = some planned)
    (hreport : reports[i]? = some report) : ∀ d ∈ report, d.node = some planned.index := by
  have hlt := (List.getElem?_eq_some_iff.mp hreport).1
  have hlength := h.length_reports
  rcases Nat.lt_or_ge i nodes.length with hmade | hleft
  · have hrecorded := h.recorded i planned _ report hplanned (List.getElem?_eq_getElem hmade) hreport
    exact hrecorded.ended.node
  · obtain rfl : i = nodes.length := by omega
    obtain ⟨mismatches, complaint, steps, rfl, hdiffers, hfails⟩ :=
      (h.stopped planned report hplanned hreport).failed
    exact (PlannedNode.Ended.failed hdiffers hfails).node

/-- A run that is incomplete has recorded the complaint of a rule. -/
theorem flatten_ne_nil (h : Contained settings plan input reports nodes complete)
    (hcomplete : complete = false) : reports.flatten ≠ [] := by
  have hlt := h.complete_iff.mp hcomplete
  have hlength : nodes.length < reports.length := by
    rw [h.length_reports]
    omega
  obtain ⟨mismatches, complaint, steps, hreport, _⟩ :=
    (h.stopped _ _ (List.getElem?_eq_getElem hlt) (List.getElem?_eq_getElem hlength)).failed
  intro hnil
  have hempty := List.flatten_eq_nil_iff.mp hnil _ (List.getElem_mem hlength)
  simp [hreport] at hempty

end Contained

end Shapeline
