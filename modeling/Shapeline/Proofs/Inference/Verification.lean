import Shapeline.Proofs.Inference.Mismatches
import Shapeline.Proofs.Inference.Threading

/-!
# Verifying declared shapes

Inference compares the shape that arrives at every place of a node with the shape that the place
declares, and goes on from the declared shape. It records what the comparisons find and, if a rule
fails, what the rule complains about, which is never taken for a difference from a declared shape.
-/

namespace Shapeline

variable {settings : InferenceSettings} {planned : PlannedNode} {c : Chain}
  {input shape front : Shape} {errors failure last : List Diagnostic} {made : Option GraphNode}
  {outputs : List Shape} {reports : List (List Diagnostic)} {before : List (String × Shape)}

/-- A recorded node passes on what it is given: it starts from the input, its steps follow one
another past the declared shapes between them, and its output is the declared shape if there is
one. -/
structure PlannedNode.Carries (planned : PlannedNode) (input : Shape) (outputs : List Shape)
    (n : GraphNode) : Prop where
  /-- The node has the number of the planned one. -/
  index : n.index = planned.index
  /-- The node starts from the input. -/
  start : n.input = input
  /-- The node has the declared shape of the planned one. -/
  declared : n.declared = planned.declared
  /-- A declared shape is the output. -/
  output : ∀ shape, n.declared = some shape → n.output = shape
  /-- Without a declared shape, what is left after all steps is the output. -/
  undeclared : n.declared = none → outputs.length = planned.steps.length →
    n.output = planned.upcoming input outputs
  /-- The steps that have been applied are recorded. -/
  length : n.steps.length = outputs.length
  /-- The first step starts from the input, or from the last shape that is declared before it, with
  the placeholders replaced that have been bound since. -/
  first : ∀ s, n.steps[0]? = some s →
    rewritten (planned.visits input outputs) (carried n.input (planned.due 0)) = .ok s.input
  /-- Every other step starts from the output of the step before, or from the last shape that is
  declared in between. -/
  between : ∀ (j : Nat) (s t : LayerStep), n.steps[j]? = some s → n.steps[j + 1]? = some t →
    t.input = carried s.output (planned.due (j + 1))

/-- What inference does with a node: its first steps have the given outputs, and the reports belong
to the places that are visited. -/
structure PlannedNode.Verified (settings : InferenceSettings) (planned : PlannedNode)
    (input : Shape) (outputs : List Shape) (reports : List (List Diagnostic))
    (errors : List Diagnostic) (made : Option GraphNode) : Prop where
  /-- The steps are applied. -/
  course : Course settings planned input outputs
  /-- At every place the arriving shape is compared with the declared one. -/
  verdicts : List.Forall₂ (Visit.Verdict (.ofTerms settings.bindings))
    (planned.visits input outputs) reports
  /-- What is recorded besides is why the course ends. -/
  recorded : ∃ failure, CourseEnds settings planned input outputs failure ∧
    errors = reports.flatten ++ failure
  /-- No other difference from a declared shape is recorded. -/
  mismatches : errors.filter (·.isDeclaredMismatch) = reports.flatten
  /-- A node that is recorded passes on what it is given. -/
  carries : ∀ n, made = some n → planned.Carries input outputs n
  /-- A node is not recorded only if a rule fails and the next shape is not declared. -/
  stops : made = none → outputs.length < planned.steps.length ∧ fallbackShape planned = none

/-- The node that is made of a threaded chain passes on what it is given. -/
theorem Chain.Threaded.carries
    (h : Chain.Threaded planned input before (planned.visits input outputs) ⟨c.steps, front⟩)
    (hlength : c.steps.length = outputs.length)
    (hdeclared : ∀ declared, planned.declared = some declared → shape = declared)
    (hundeclared : planned.declared = none → outputs.length = planned.steps.length →
      shape = planned.upcoming input outputs) :
    planned.Carries input outputs (planned.finish input c shape) where
  index := rfl
  start := rfl
  declared := rfl
  output := hdeclared
  undeclared := hundeclared
  length := hlength
  first := h.first
  between := h.between

/-- The shape that the next node starts from after a failure tells placeholders from the author's
symbols. -/
theorem PlannedNode.Authored.fallback (hplanned : planned.Authored)
    (h : fallbackShape planned = some shape) : shape.Authored := by
  rcases declared_of_fallbackShape h with hdeclared | ⟨checkpoint, hcheckpoint, rfl⟩
  · exact hplanned.declared shape hdeclared
  · exact hplanned.checkpoints checkpoint hcheckpoint

/-- What becomes of the chain at the end of the course of a node: it is recorded with the shape that
a failure leaves, with its own shape, or with the declared one after a comparison. -/
inductive PlannedNode.Closes (settings : InferenceSettings) (planned : PlannedNode) (input : Shape)
    (outputs : List Shape) (c : Chain) : List Diagnostic → Option GraphNode → Prop
  /-- Some step has not been applied. -/
  | failed : outputs.length < planned.steps.length →
    Closes settings planned input outputs c []
      ((fallbackShape planned).map (planned.finish input c))
  /-- No shape is declared. -/
  | undeclared : outputs.length = planned.steps.length → planned.declared = none →
    Closes settings planned input outputs c [] (some (planned.finish input c c.shape))
  /-- The declared shape is compared. -/
  | declared {shape : Shape} {d : Chain} {last : List Diagnostic} :
    outputs.length = planned.steps.length → planned.declared = some shape →
    (reconcile settings planned.index c shape "declared shape").Yields last d →
    Closes settings planned input outputs c last (some (planned.finish input d shape))

/-- Inference of a node visits the places of its inline model up to the end of its course. -/
theorem closes_of_inferNode (htrust : settings.trustDeclared = false)
    (hordered : planned.checkpoints.Pairwise (·.after ≤ ·.after))
    (h : (inferNode settings planned input).Yields errors made) :
    ∃ outputs reports failure last c,
      Reaches settings planned input outputs c (planned.innerVisits input outputs) ∧
        List.Forall₂ (Visit.Verdict (.ofTerms settings.bindings))
          (planned.innerVisits input outputs) reports ∧
        CourseEnds settings planned input outputs failure ∧
        planned.Closes settings input outputs c last made ∧
        errors = reports.flatten ++ (failure ++ last) := by
  obtain ⟨report, hreport, rfl⟩ := Reporting.yields_iff.mp h
  cases runs_of_inferNode hordered hreport with
  | @completed first second c n hperform hconclude =>
    obtain ⟨outputs, visits, reports, hlength, hreaches, hverdicts, herrors⟩ :=
      reaches_of_perform htrust le_rfl hperform
    obtain ⟨_, _, rfl⟩ := hreaches.visits_eq
    refine ⟨outputs, reports, [], second.errors, c, hreaches, hverdicts, .complete hlength, ?_, ?_⟩
    · rcases PlannedNode.conclude_eq_ok_iff.mp hconclude with
        ⟨hnone, rfl, rfl⟩ | ⟨shape, d, hsome, hlast, rfl⟩
      · exact .undeclared hlength hnone
      · exact .declared hlength hsome (Reporting.yields_of_eq hlast)
    · rw [← herrors]
      rfl
  | @failed report c done step d hperform hstep happly =>
    have hlt := (List.getElem?_eq_some_iff.mp hstep).1
    obtain ⟨outputs, visits, reports, rfl, hreaches, hverdicts, herrors⟩ :=
      reaches_of_perform htrust hlt.le hperform
    obtain ⟨hshape, _, rfl⟩ := hreaches.visits_eq
    rw [hshape] at happly
    refine ⟨outputs, reports, _, [], c, hreaches, hverdicts, .failed hstep happly, .failed hlt, ?_⟩
    rw [← herrors, List.append_nil]
    rfl

/-- The places that a node visits before the end of its course are those of its inline model. -/
theorem PlannedNode.visits_of_lt (h : outputs.length < planned.steps.length) :
    planned.visits input outputs = planned.innerVisits input outputs := by
  have hne : outputs.length ≠ planned.steps.length := by omega
  rw [visits, if_neg hne, List.append_nil]

/-- A node without a declared shape visits the places of its inline model. -/
theorem PlannedNode.visits_of_undeclared (h : planned.declared = none) :
    planned.visits input outputs = planned.innerVisits input outputs := by
  have hown : planned.own = [] := by rw [own, h, Option.toList_none, List.map_nil]
  rw [visits, hown]
  simp [visitsAt]

/-- A node with a declared shape visits its place after all steps. -/
theorem PlannedNode.visits_of_declared (hlength : outputs.length = planned.steps.length)
    (h : planned.declared = some shape) :
    planned.visits input outputs = planned.innerVisits input outputs ++
      [⟨planned.index, planned.layerBefore outputs.length, "declared shape", shape,
        planned.upcoming input outputs⟩] := by
  have hown : planned.own = [("declared shape", shape)] := by
    rw [own, h, Option.toList_some, List.map_singleton]
  rw [visits, if_pos hlength, hown]
  rfl

/-- After all steps nothing but the comparison with the declared shape is left. -/
theorem CourseEnds.eq_nil (h : CourseEnds settings planned input outputs failure)
    (hlength : outputs.length = planned.steps.length) : failure = [] := by
  cases h with
  | complete _ => rfl
  | failed hstep _ =>
    have hlt := (List.getElem?_eq_some_iff.mp hstep).1
    omega

/-- Either the course of a node fails or the comparison with its own declared shape is made, so the
order of what they record does not matter. -/
theorem PlannedNode.Closes.append_comm (h : planned.Closes settings input outputs c last made)
    (hends : CourseEnds settings planned input outputs failure) :
    failure ++ last = last ++ failure := by
  cases h with
  | failed _ => simp
  | undeclared _ _ => simp
  | declared hcomplete _ _ => simp [hends.eq_nil hcomplete]

/-- The places that are left at the end are compared too. -/
theorem PlannedNode.Closes.verdicts (h : planned.Closes settings input outputs c last made)
    (htrust : settings.trustDeclared = false) (hshape : c.shape = planned.upcoming input outputs)
    (hlayer : c.lastLayer = planned.layerBefore outputs.length)
    (hverdicts : List.Forall₂ (Visit.Verdict (.ofTerms settings.bindings))
      (planned.innerVisits input outputs) reports) :
    ∃ all, List.Forall₂ (Visit.Verdict (.ofTerms settings.bindings)) (planned.visits input outputs)
      all ∧ all.flatten = reports.flatten ++ last := by
  cases h with
  | failed hlt =>
    rw [PlannedNode.visits_of_lt hlt]
    exact ⟨reports, hverdicts, (List.append_nil _).symm⟩
  | undeclared _ hnone =>
    rw [PlannedNode.visits_of_undeclared hnone]
    exact ⟨reports, hverdicts, (List.append_nil _).symm⟩
  | declared hcomplete hsome hlast =>
    obtain ⟨_, hverdict⟩ := verdict_of_reconcile htrust hlast
    rw [hshape, hlayer] at hverdict
    rw [PlannedNode.visits_of_declared hcomplete hsome]
    have hall := List.rel_append hverdicts (.cons hverdict .nil)
    exact ⟨reports ++ [last], hall, by simp⟩

/-- The node that is made of a threaded chain passes on what it is given, and its output tells
placeholders from the author's symbols. -/
theorem PlannedNode.Closes.carries (h : planned.Closes settings input outputs c last made)
    (hplanned : planned.Authored)
    (hthreaded : c.Threaded planned input before (planned.innerVisits input outputs))
    (hlength : c.steps.length = outputs.length) (hshape : c.shape = planned.upcoming input outputs) :
    ∀ n, made = some n → planned.Carries input outputs n ∧ n.output.Distinguished := by
  intro n hn
  cases h with
  | failed hlt =>
    obtain ⟨shape, hfallback, rfl⟩ := Option.map_eq_some_iff.mp hn
    rw [← PlannedNode.visits_of_lt hlt] at hthreaded
    refine ⟨hthreaded.carries hlength (fun declared hdeclared => ?_) fun _ hcomplete => ?_,
      (hplanned.fallback hfallback).distinguished⟩
    · rw [fallbackShape, hdeclared] at hfallback
      exact (Option.some.inj hfallback).symm
    · omega
  | undeclared _ hnone =>
    obtain rfl := Option.some.inj hn
    rw [← PlannedNode.visits_of_undeclared hnone] at hthreaded
    refine ⟨hthreaded.carries hlength (fun declared hdeclared => ?_) fun _ _ => hshape,
      hthreaded.distinguished⟩
    cases hnone.symm.trans hdeclared
  | @declared shape d _ hcomplete hsome hlast =>
    obtain rfl := Option.some.inj hn
    have hsubstitute := (reconcile_yields_iff.mp hlast).1
    have hdeclared : shape.Authored := hplanned.declared shape hsome
    have hchecked : Chain.Threaded planned input (before ++ [("declared shape", shape)])
        (planned.innerVisits input outputs ++ [⟨planned.index, planned.layerBefore outputs.length,
          "declared shape", shape, c.shape⟩]) ⟨d.steps, shape⟩ :=
      hthreaded.check hplanned hdeclared hsubstitute
    have hsteps := (Chain.substitute_eq_ok_iff.mp hsubstitute).2.length_eq
    rw [hshape, ← PlannedNode.visits_of_declared hcomplete hsome] at hchecked
    refine ⟨hchecked.carries (hsteps.symm.trans hlength) (fun declared hother => ?_)
      fun hnone _ => ?_, hdeclared.distinguished⟩
    · exact Option.some.inj (hsome.symm.trans hother)
    · cases hsome.symm.trans hnone

/-- A node is not recorded only if a step has failed and no shape is left to go on from. -/
theorem PlannedNode.Closes.stops (h : planned.Closes settings input outputs c last made)
    (hnone : made = none) :
    outputs.length < planned.steps.length ∧ fallbackShape planned = none := by
  cases h with
  | failed hlt => exact ⟨hlt, Option.map_eq_none_iff.mp hnone⟩
  | undeclared _ _ => cases hnone
  | declared _ _ _ => cases hnone

/-- **Inference verifies the declared shapes of a node.** -/
theorem verified_of_inferNode (htrust : settings.trustDeclared = false)
    (hplanned : planned.Authored) (hordered : planned.checkpoints.Pairwise (·.after ≤ ·.after))
    (hinput : input.Distinguished) (h : (inferNode settings planned input).Yields errors made) :
    (∃ outputs reports, planned.Verified settings input outputs reports errors made) ∧
      ∀ n, made = some n → n.output.Distinguished := by
  obtain ⟨outputs, reports, failure, last, c, hreaches, hverdicts, hends, hcloses, rfl⟩ :=
    closes_of_inferNode htrust hordered h
  have hthreaded := hreaches.threaded hplanned hinput
  have hlength := hreaches.length_steps
  obtain ⟨hshape, hlayer, _⟩ := hreaches.visits_eq
  obtain ⟨all, hall, hflatten⟩ := hcloses.verdicts htrust hshape hlayer hverdicts
  have herrors : reports.flatten ++ (failure ++ last) = all.flatten ++ failure := by
    rw [hcloses.append_comm hends, hflatten, List.append_assoc]
  have hcarries := hcloses.carries hplanned hthreaded hlength hshape
  rw [herrors]
  exact ⟨⟨outputs, all, hreaches.course, hall, ⟨failure, hends, rfl⟩,
    filter_isDeclaredMismatch hall hends, fun n hn => (hcarries n hn).1, hcloses.stops⟩,
    fun n hn => (hcarries n hn).2⟩

/-- Inference verifies one planned node after another, each from the output of the one before, and
records what it finds at each, until a node cannot be recorded. -/
inductive Verifies (settings : InferenceSettings) :
    List PlannedNode → Shape → List Diagnostic → List GraphNode → Prop
  /-- No node is left. -/
  | nil (input : Shape) : Verifies settings [] input [] []
  /-- A node is recorded, and the others are verified from its output. -/
  | cons {planned : PlannedNode} {rest : List PlannedNode} {input : Shape} {outputs : List Shape}
    {reports : List (List Diagnostic)} {first second : List Diagnostic} {n : GraphNode}
    {nodes : List GraphNode} : planned.Verified settings input outputs reports first (some n) →
    Verifies settings rest n.output second nodes →
    Verifies settings (planned :: rest) input (first ++ second) (n :: nodes)
  /-- A node is not recorded. -/
  | stop {planned : PlannedNode} {rest : List PlannedNode} {input : Shape} {outputs : List Shape}
    {reports : List (List Diagnostic)} {errors : List Diagnostic} :
    planned.Verified settings input outputs reports errors none →
    Verifies settings (planned :: rest) input errors []

/-- Inference verifies all nodes up to the last one that it reaches. -/
theorem Infers.verifies {plan : List PlannedNode} {nodes : List GraphNode}
    (h : Infers settings plan input errors nodes) (htrust : settings.trustDeclared = false)
    (hplan : ∀ planned ∈ plan, planned.Authored ∧
      planned.checkpoints.Pairwise (·.after ≤ ·.after))
    (hinput : input.Distinguished) : Verifies settings plan input errors nodes := by
  induction h with
  | nil input => exact .nil input
  | cons hmade _ ih =>
    obtain ⟨⟨hauthored, hordered⟩, hrest⟩ := List.forall_mem_cons.mp hplan
    obtain ⟨⟨outputs, reports, hverified⟩, houtput⟩ :=
      verified_of_inferNode htrust hauthored hordered hinput hmade
    have hothers := ih hrest (houtput _ rfl)
    exact .cons hverified hothers
  | stop hmade =>
    obtain ⟨⟨hauthored, hordered⟩, _⟩ := List.forall_mem_cons.mp hplan
    obtain ⟨⟨outputs, reports, hverified⟩, _⟩ :=
      verified_of_inferNode htrust hauthored hordered hinput hmade
    exact .stop hverified

end Shapeline
