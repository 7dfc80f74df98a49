import Shapeline.Proofs.Inference.Checkpoints
import Shapeline.Proofs.Inference.Sizes

/-!
# Records of planned steps

A node records its planned steps in order, each with its layer type and with the values that its
parameters have in the plan. Comparisons with declared shapes do not change this, wherever they
come. A step is missing only if a rule has failed.
-/

namespace Shapeline

variable {settings : InferenceSettings} {planned : PlannedNode} {step : PlannedStep}
  {steps : List PlannedStep} {plan : List PlannedNode} {nodes : List GraphNode}
  {input shape : Shape} {c d : Chain} {s s' : LayerStep} {n : GraphNode} {σ : Substitution}
  {moves : List Move} {errors : List Diagnostic} {done : ℕ}

/-- A recorded step applies the layer type of a planned one and keeps the values in the plan. -/
structure PlannedStep.RecordedAs (step : PlannedStep) (s : LayerStep) : Prop where
  /-- The layer type is the same. -/
  layerType : s.layerType = some step.layerType
  /-- The values are kept. -/
  kept : step.KeptBy s

/-- The steps of a chain record planned steps, and its shape occurs in inference. -/
structure Chain.Records (steps : List PlannedStep) (c : Chain) : Prop where
  /-- The steps are recorded. -/
  steps : List.Forall₂ PlannedStep.RecordedAs steps c.steps
  /-- The shape occurs in inference. -/
  flowing : c.shape.Flowing

/-- A step that is applied records itself. -/
theorem recordedAs_of_applyStep {node : ℤ} {position : ℕ}
    (h : applyStep settings node position step shape = .ok s) : step.RecordedAs s := by
  obtain ⟨outcome, houtcome, h⟩ := bind_eq_ok_iff.mp h
  obtain rfl := pure_eq_ok_iff.mp h
  exact ⟨rfl, fun _ _ hv => Rule.get?_merged_of_apply houtcome hv⟩

/-- A step is still recorded after placeholders have been replaced. -/
theorem PlannedStep.RecordedAs.substitute (h : step.RecordedAs s) (hstep : step.params.Written)
    (hmarked : ∀ name, (σ name).isSome → Marked name) (hs : s.substitute σ = .ok s') :
    step.RecordedAs s' where
  layerType := (LayerStep.substitute_eq_ok_iff.mp hs).1.trans h.layerType
  kept := h.kept.substitute (fun name t ht => (hstep name t ht).authored) hmarked hs

/-- A chain records the same steps after a comparison with a declared shape. -/
theorem Chain.Records.reconcile {node : ℤ} {what : String} (hc : c.Records steps)
    (hsteps : ∀ step ∈ steps, step.params.Written) (hshape : shape.Written)
    (h : (reconcile settings node c shape what).Yields errors d) : d.Records steps := by
  have hsubstitute := (reconcile_yields_iff.mp h).1
  obtain ⟨hshape', hsteps'⟩ := Chain.substitute_eq_ok_iff.mp hsubstitute
  have hmarked := hc.flowing.distinguished.marked_binding (b := shape)
  refine ⟨?_, hc.flowing.substitute (hc.flowing.fills_binding hshape) hshape'⟩
  have hself : List.Forall₂ (fun step step' : PlannedStep => step = step' ∧ step.params.Written)
      steps steps := List.forall₂_same.mpr fun step hstep => ⟨rfl, hsteps step hstep⟩
  refine forall₂_transport (fun step s step' s' hrecorded hsame hs => ?_) hc.steps hself hsteps'
  obtain ⟨rfl, hwritten⟩ := hsame
  exact hrecorded.substitute hwritten hmarked hs

/-- Moves add the steps that they apply to the record. -/
theorem Chain.Records.perform (hc : c.Records steps)
    (hsteps : ∀ step ∈ steps ++ moves.filterMap Move.step?, step.params.Written)
    (hchecks : ∀ checkpoint ∈ moves.filterMap Move.checkpoint?, checkpoint.shape.Written)
    (h : (perform settings planned moves c).outcome = .ok d) :
    d.Records (steps ++ moves.filterMap Move.step?) := by
  induction moves generalizing c steps with
  | nil =>
    obtain rfl := Except.ok.inj h
    rw [List.filterMap_nil, List.append_nil]
    exact hc
  | cons move rest ih =>
    cases move with
    | apply position step =>
      obtain ⟨s, happly, hrest⟩ := Reporting.outcome_bind_eq_ok_iff.mp h
      have hall : steps ++ (Move.apply position step :: rest).filterMap Move.step? =
          steps ++ [step] ++ rest.filterMap Move.step? := by simp [Move.step?]
      rw [hall] at hsteps ⊢
      have hstep : step.params.Written := hsteps step (by simp)
      obtain ⟨-, -, hflowing⟩ := valid_of_applyStep happly hstep hc.flowing
      refine ih ⟨?_, hflowing⟩ hsteps hchecks hrest
      exact List.rel_append hc.steps (.cons (recordedAs_of_applyStep happly) .nil)
    | check checkpoint =>
      obtain ⟨e, hreconcile, hrest⟩ := Reporting.outcome_bind_eq_ok_iff.mp h
      have hwritten : checkpoint.shape.Written := hchecks checkpoint (by simp [Move.checkpoint?])
      have hknown : ∀ step ∈ steps, step.params.Written := fun step hstep =>
        hsteps step (List.mem_append_left _ hstep)
      have he := hc.reconcile hknown hwritten ⟨hreconcile, rfl⟩
      have hnext : Chain.Records steps ⟨e.steps, checkpoint.shape⟩ :=
        ⟨he.steps, hwritten.flowing⟩
      exact ih hnext hsteps
        (fun other hother => hchecks other (by simp [Move.checkpoint?, hother])) hrest

/-- The moves of a node up to a place record its first steps. -/
theorem records_of_movesTo (hplanned : planned.Written)
    (hordered : planned.checkpoints.Pairwise (·.after ≤ ·.after)) (hinput : input.Flowing)
    (h : (perform settings planned (planned.movesTo done) ⟨[], input⟩).outcome = .ok c) :
    c.Records (planned.steps.take done) := by
  have hstart : Chain.Records [] ⟨[], input⟩ := ⟨.nil, hinput⟩
  rw [← filterMap_step?_movesTo, ← List.nil_append (List.filterMap _ _)]
  refine hstart.perform (fun step hstep => ?_) (fun checkpoint hcheckpoint => ?_) h
  · rw [List.nil_append, filterMap_step?_movesTo] at hstep
    exact hplanned.steps step (List.mem_of_mem_take hstep)
  · rw [filterMap_checkpoint?_movesTo hordered] at hcheckpoint
    exact hplanned.checkpoints checkpoint (List.mem_filter.mp hcheckpoint).1

/-- What inference records of a planned node: its first steps, and all of them if no rule has
failed. -/
structure PlannedNode.RecordedAs (planned : PlannedNode) (errors : List Diagnostic)
    (n : GraphNode) : Prop where
  /-- The steps are those of the plan. -/
  steps : List.Forall₂ PlannedStep.RecordedAs (planned.steps.take n.steps.length) n.steps
  /-- Without diagnostics none is missing. -/
  complete : errors = [] → n.steps.length = planned.steps.length

/-- The steps of a node that inference makes are recorded. -/
theorem recordedAs_of_inferNode (hplanned : planned.Written)
    (hordered : planned.checkpoints.Pairwise (·.after ≤ ·.after)) (hinput : input.Flowing)
    (h : (inferNode settings planned input).Yields errors (some n)) :
    planned.RecordedAs errors n := by
  obtain ⟨report, hreport, rfl⟩ := Reporting.yields_iff.mp h
  have hruns := runs_of_inferNode hordered hreport
  have hrecorded {done : ℕ} (hdone : done ≤ planned.steps.length)
      (hsteps : List.Forall₂ PlannedStep.RecordedAs (planned.steps.take done) n.steps) :
      n.steps.length = done ∧
        List.Forall₂ PlannedStep.RecordedAs (planned.steps.take n.steps.length) n.steps := by
    have hlength := hsteps.length_eq
    rw [List.length_take, Nat.min_eq_left hdone] at hlength
    exact ⟨hlength.symm, hlength ▸ hsteps⟩
  generalize hmade : some n = made at hruns
  cases hruns with
  | @completed _ _ c m hperform hconclude =>
    obtain rfl := Option.some.inj hmade
    have hc := records_of_movesTo hplanned hordered hinput (congrArg Reporting.outcome hperform)
    have hn : List.Forall₂ PlannedStep.RecordedAs
        (planned.steps.take planned.steps.length) n.steps := by
      rcases PlannedNode.conclude_eq_ok_iff.mp hconclude with
        ⟨-, -, rfl⟩ | ⟨shape, d, hshape, hreconcile, rfl⟩
      · exact hc.steps
      · have hsteps : ∀ step ∈ planned.steps.take planned.steps.length, step.params.Written :=
          fun step hstep => hplanned.steps step (List.mem_of_mem_take hstep)
        exact (hc.reconcile hsteps (hplanned.declared shape hshape)
          (Reporting.yields_of_eq hreconcile)).steps
    obtain ⟨hlength, hsteps⟩ := hrecorded le_rfl hn
    exact ⟨hsteps, fun _ => hlength⟩
  | @failed report c done step d hperform hstep _ =>
    obtain ⟨output, -, rfl⟩ := Option.map_eq_some_iff.mp hmade.symm
    have hlt := (List.getElem?_eq_some_iff.mp hstep).1
    have hc := records_of_movesTo hplanned hordered hinput (congrArg Reporting.outcome hperform)
    refine ⟨(hrecorded hlt.le hc.steps).2, fun hnil => ?_⟩
    exact absurd (List.append_eq_nil_iff.mp hnil).2 (List.cons_ne_nil _ _)

/-- Inference that comes to its end makes a node of every planned node. -/
theorem forall₂_of_inferNodes (hplan : ∀ planned ∈ plan, planned.Written ∧ planned.Ordered)
    (hinput : input.Flowing)
    (h : (inferNodes settings plan input).Yields errors (nodes, true)) :
    List.Forall₂ (fun planned n => ∃ found, (errors = [] → found = []) ∧
      planned.RecordedAs found n) plan nodes := by
  induction plan generalizing input errors nodes with
  | nil =>
    obtain ⟨-, rfl, -⟩ := yields_inferNodes_nil_iff.mp h
    exact .nil
  | cons planned rest ih =>
    obtain ⟨⟨hwritten, hordered⟩, hrest⟩ := List.forall_mem_cons.mp hplan
    rcases yields_inferNodes_cons_iff.mp h with
      ⟨-, -, hcomplete⟩ | ⟨first, second, n, others, hmade, hothers, rfl, rfl⟩
    · cases hcomplete
    · obtain ⟨c, _, _, hevolves, hends, -⟩ := ends_of_inferNode hmade
      have houtput := hends.flowing hwritten (hevolves.flowing hwritten hinput)
      refine .cons ⟨first, fun hnil => (List.append_eq_nil_iff.mp hnil).1,
        recordedAs_of_inferNode hwritten hordered.pairwise hinput hmade⟩ ?_
      refine (ih hrest houtput hothers).imp fun _ _ hmade => ?_
      obtain ⟨found, hfound, hrecorded⟩ := hmade
      exact ⟨found, fun hnil => hfound (List.append_eq_nil_iff.mp hnil).2, hrecorded⟩

end Shapeline
