import Shapeline.Proofs.Inference.Run
import Shapeline.Proofs.Planning
import Shapeline.Proofs.Rule.Failure

/-!
# How inference ends

A rule that fails does not stop inference: its diagnostic is recorded at the node, and the next node
starts from the shape that is declared. Only the comparison with a declared shape can fail without
being caught, because a divisor becomes zero under the values of the model's variables. This is then
the one diagnostic that is raised, and all that was recorded before is lost.
-/

namespace Shapeline

variable {settings : InferenceSettings} {planned : PlannedNode} {node : Int}
  {c d start : Chain} {declared input : Shape} {what : String} {errors : List Diagnostic}
  {failure : Failure} {plan : List PlannedNode}

/-- The values of variables are terms. -/
theorem exists_of_ofTerms {terms : Dictionary Term} {name : String} {r : Outcome Term}
    (h : Substitution.ofTerms terms name = some r) : ∃ t, r = .ok t := by
  obtain ⟨t, _, ht⟩ := Substitution.ofTerms_eq_some_iff.mp h
  exact ⟨t, ht⟩

/-- A substitution in a shape fails on divisions only. -/
theorem Shape.fails_substitute {excuse : Prop} {terms : Dictionary Term} {s : Shape} :
    Fails excuse Diagnostic.IsDivision (s.substitute (.ofTerms terms)) :=
  (Fails.of_mapM fun _ => Term.fails_substitute fun _ _ => exists_of_ofTerms).of_bind
    fun _ _ => .of_pure _

/-- A substitution in parameters fails on divisions only. -/
theorem Parameters.fails_substitute {excuse : Prop} {terms : Dictionary Term} {p : Parameters} :
    Fails excuse Diagnostic.IsDivision (p.substitute (.ofTerms terms)) := by
  refine Fails.of_bind (Fails.of_mapM fun entry => Fails.of_bind ?_ fun _ _ => .of_pure _)
    fun _ _ => .of_pure _
  cases entry.2 with
  | dim t =>
    exact (Term.fails_substitute fun _ _ => exists_of_ofTerms).of_bind fun _ _ => .of_pure _
  | _ => exact .of_pure _

/-- A substitution in a chain fails on divisions only. -/
theorem Chain.fails_substitute {excuse : Prop} {terms : Dictionary Term} :
    Fails excuse Diagnostic.IsDivision (c.substitute (.ofTerms terms)) := by
  have hstep (s : LayerStep) :
      Fails excuse Diagnostic.IsDivision (s.substitute (.ofTerms terms)) :=
    Parameters.fails_substitute.of_bind fun _ _ => Shape.fails_substitute.of_bind fun _ _ =>
      Shape.fails_substitute.of_bind fun _ _ => .of_pure _
  exact Shape.fails_substitute.of_bind fun _ _ => (Fails.of_mapM hstep).of_bind fun _ _ =>
    .of_pure _

/-- A comparison of shapes fails on divisions only. -/
theorem fails_discrepancy {excuse : Prop} {terms : Dictionary Term} {a b : Shape} :
    Fails excuse Diagnostic.IsDivision (discrepancy (.ofTerms terms) a b) := by
  have hmismatches (position : Nat) (as bs : List Term) : Fails excuse Diagnostic.IsDivision
      (Shape.mismatchesFrom (.ofTerms terms) position as bs) := by
    induction as generalizing position bs with
    | nil => exact .of_pure _
    | cons a as ih =>
      cases bs with
      | nil => exact .of_pure _
      | cons b bs =>
        exact (Term.fails_substitute fun _ _ => exists_of_ofTerms).of_bind fun _ _ =>
          (Term.fails_substitute fun _ _ => exists_of_ofTerms).of_bind fun _ _ =>
            Term.fails_equivalent.of_bind fun _ _ => (ih _ _).of_bind fun _ _ => .of_pure _
  refine .of_ite (fun _ => (hmismatches 0 _ _).of_bind fun found _ => ?_) fun _ => .of_pure _
  cases found <;> exact .of_pure _

/-- The comparison with a declared shape fails on divisions only. -/
theorem fails_reconcile {excuse : Prop} :
    Fails excuse Diagnostic.IsDivision (reconcile settings node c declared what).outcome := by
  intro failure h
  rcases Reporting.outcome_bind_eq_error h with h | ⟨d, _, h⟩
  · unfold bindPlaceholders at h
    dsimp only at h
    split at h
    · cases h
    · rcases Reporting.outcome_bind_eq_error h with h | ⟨_, _, h⟩
      · cases h
      · exact Chain.fails_substitute failure h
  · rcases Reporting.outcome_bind_eq_error h with h | ⟨found, _, h⟩
    · exact fails_discrepancy failure h
    · cases found with
      | none => cases h
      | some found =>
        rcases Reporting.outcome_bind_eq_error h with h | ⟨_, _, h⟩ <;> cases h

/-- A planned step whose rule cannot fail without a diagnostic. -/
structure PlannedStep.Applicable (step : PlannedStep) : Prop where
  /-- No accepted number of axes is zero by mistake. -/
  spatialRank : 0 ≤ step.layerType.rule.spatialRank
  /-- What the rule reads as a dimension is one. -/
  params : step.params.Readable

/-- A step that cannot be applied raises a diagnostic of its rule. -/
theorem PlannedStep.Applicable.fails_applyStep {step : PlannedStep} (hstep : step.Applicable)
    {position : Nat} {shape : Shape} :
    Fails False Diagnostic.RaisedByRule (applyStep settings node position step shape) :=
  (step.layerType.rule.fails_apply (fun _ _ => exists_of_ofTerms) (fun _ => hstep.params)
    fun _ => hstep.spatialRank).of_bind fun _ _ => .of_pure _

/-- Inference of a node reaches a declared shape, its own or one of its inline model, and the
comparison fails with a diagnostic. -/
inductive PlannedNode.Breaks (settings : InferenceSettings) (planned : PlannedNode)
    (input : Shape) (d : Diagnostic) : Prop
  /-- The comparison with a shape that an inline model declares fails. -/
  | inner {errors : List Diagnostic} {c : Chain} {checkpoint : Checkpoint} :
    Chain.Evolves settings planned ⟨[], input⟩ errors c → checkpoint ∈ planned.checkpoints →
    (reconcile settings planned.index c checkpoint.shape
      (checkpointName planned checkpoint)).outcome = .error (.problem d) →
    Breaks settings planned input d
  /-- The comparison with the declared shape of the node fails. -/
  | own {errors : List Diagnostic} {c : Chain} {shape : Shape} :
    Chain.Evolves settings planned ⟨[], input⟩ errors c → planned.declared = some shape →
    (reconcile settings planned.index c shape "declared shape").outcome = .error (.problem d) →
    Breaks settings planned input d

/-- Checking the declared shapes that are due fails only if a comparison does. -/
theorem breaks_of_checkDue {done : Nat} {pending : List Checkpoint}
    (hstart : Chain.Evolves settings planned ⟨[], input⟩ errors c)
    (hpending : ∀ checkpoint ∈ pending, checkpoint ∈ planned.checkpoints)
    (h : (checkDue settings planned done pending c).outcome = .error failure) :
    ∃ d, failure = .problem d ∧ planned.Breaks settings input d := by
  induction pending generalizing c errors with
  | nil => cases h
  | cons checkpoint rest ih =>
    obtain ⟨hcheckpoint, hrest⟩ := List.forall_mem_cons.mp hpending
    unfold checkDue at h
    split at h
    · rcases Reporting.outcome_bind_eq_error h with h | ⟨reconciled, hyields, h⟩
      · obtain ⟨d, rfl, _⟩ := fails_reconcile.exists_problem h
        exact ⟨d, rfl, .inner hstart hcheckpoint h⟩
      · exact ih (hstart.check hcheckpoint hyields) hrest h
    · cases h

/-- Applying the steps of a node fails only if a comparison does. -/
theorem breaks_of_runSteps {position : Nat} {steps : List PlannedStep} {pending : List Checkpoint}
    (happlicable : ∀ step ∈ steps, step.Applicable)
    (hstart : Chain.Evolves settings planned ⟨[], input⟩ errors c)
    (hsteps : ∀ step ∈ steps, step ∈ planned.steps)
    (hpending : ∀ checkpoint ∈ pending, checkpoint ∈ planned.checkpoints)
    (h : (runSteps settings planned position steps pending c).outcome = .error failure) :
    ∃ d, failure = .problem d ∧ planned.Breaks settings input d := by
  induction steps generalizing position pending c errors with
  | nil => cases h
  | cons step rest ih =>
    obtain ⟨happlicable, hothers⟩ := List.forall_mem_cons.mp happlicable
    obtain ⟨hstep, hrest⟩ := List.forall_mem_cons.mp hsteps
    unfold runSteps at h
    split at h
    · rename_i applied happlied
      have hnext := hstart.apply hstep happlied
      rcases Reporting.outcome_bind_eq_error h with h | ⟨⟨later, d⟩, hyields, h⟩
      · exact breaks_of_checkDue hnext hpending h
      · obtain ⟨hd, hlater⟩ := evolves_of_checkDue hnext hpending hyields
        exact ih hothers hd hrest hlater h
    · rcases Reporting.outcome_bind_eq_error h with h | ⟨_, _, h⟩ <;> cases h
    · rename_i other hne happlied
      obtain ⟨d, rfl, _⟩ := happlicable.fails_applyStep.exists_problem happlied
      exact absurd rfl (hne d)

/-- Inference of a node fails only if a comparison does. -/
theorem breaks_of_inferNode (happlicable : ∀ step ∈ planned.steps, step.Applicable)
    (h : (inferNode settings planned input).outcome = .error failure) :
    ∃ d, failure = .problem d ∧ planned.Breaks settings input d := by
  unfold inferNode at h
  rcases Reporting.outcome_bind_eq_error h with h | ⟨⟨pending, c⟩, hc, h⟩
  · exact breaks_of_checkDue .refl (fun _ hmem => hmem) h
  obtain ⟨hc, hpending⟩ := evolves_of_checkDue .refl (fun _ hmem => hmem) hc
  rcases Reporting.outcome_bind_eq_error h with h | ⟨⟨e, complete⟩, he, h⟩
  · exact breaks_of_runSteps happlicable hc (fun _ hmem => hmem) hpending h
  obtain ⟨_, _, hevolves, _, _⟩ := evolves_of_runSteps hc (fun _ hmem => hmem) hpending he
  dsimp only at h
  cases complete with
  | false => cases h
  | true =>
    rw [if_pos rfl] at h
    split at h
    · cases h
    · rename_i shape hshape
      rcases Reporting.outcome_bind_eq_error h with h | ⟨_, _, h⟩
      · obtain ⟨d, rfl, _⟩ := fails_reconcile.exists_problem h
        exact ⟨d, rfl, .own hevolves hshape h⟩
      · cases h

/-- Inference of several nodes reaches a declared shape where the comparison fails: at the first
node, or at a later one after the nodes before it have been recorded. -/
inductive Breaks (settings : InferenceSettings) :
    List PlannedNode → Shape → Diagnostic → Prop
  /-- The comparison fails at the first node. -/
  | here {planned : PlannedNode} {rest : List PlannedNode} {input : Shape} {d : Diagnostic} :
    planned.Breaks settings input d → Breaks settings (planned :: rest) input d
  /-- The first node is recorded, and the comparison fails at a later one. -/
  | later {planned : PlannedNode} {rest : List PlannedNode} {input : Shape} {d : Diagnostic}
    {errors : List Diagnostic} {n : GraphNode} :
    (inferNode settings planned input).Yields errors (some n) → Breaks settings rest n.output d →
    Breaks settings (planned :: rest) input d

/-- Inference of several nodes fails only if a comparison does. -/
theorem breaks_of_inferNodes
    (happlicable : ∀ planned ∈ plan, ∀ step ∈ planned.steps, step.Applicable)
    (h : (inferNodes settings plan input).outcome = .error failure) :
    ∃ d, failure = .problem d ∧ Breaks settings plan input d := by
  induction plan generalizing input with
  | nil => cases h
  | cons planned rest ih =>
    obtain ⟨hplanned, hrest⟩ := List.forall_mem_cons.mp happlicable
    unfold inferNodes at h
    rcases Reporting.outcome_bind_eq_error h with h | ⟨made, hmade, h⟩
    · obtain ⟨d, rfl, hbreaks⟩ := breaks_of_inferNode hplanned h
      exact ⟨d, rfl, .here hbreaks⟩
    · cases made with
      | none => rcases Reporting.outcome_bind_eq_error h with h | ⟨_, _, h⟩ <;> cases h
      | some n =>
        rcases Reporting.outcome_bind_eq_error h with h | ⟨_, _, h⟩
        · obtain ⟨d, rfl, hbreaks⟩ := ih hrest h
          exact ⟨d, rfl, .later hmade hbreaks⟩
        · cases h

/-- A comparison that breaks inference off has met a divisor that is zero. -/
theorem PlannedNode.Breaks.isDivision {d : Diagnostic} (h : planned.Breaks settings input d) :
    d.IsDivision := by
  have hcomparison {c : Chain} {declared : Shape} {what : String} :
      Fails False Diagnostic.IsDivision
        (reconcile settings planned.index c declared what).outcome := fails_reconcile
  cases h with
  | inner _ _ hfailed => exact hcomparison.of_error hfailed
  | own _ _ hfailed => exact hcomparison.of_error hfailed

/-- What breaks inference off is a divisor that is zero. -/
theorem Breaks.isDivision {d : Diagnostic} (h : Breaks settings plan input d) :
    d.IsDivision := by
  induction h with
  | here hbreaks => exact hbreaks.isDivision
  | later _ _ ih => exact ih

end Shapeline
