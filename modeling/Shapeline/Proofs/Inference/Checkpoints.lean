import Shapeline.Proofs.Inference.Moves
import Shapeline.Proofs.Planned

/-!
# Checkpoints that are due

The plan of an inline model lists every shape that a node of the model declares, with the number of
steps up to there. Inference of a node whose steps can all be applied compares each of them once, in
order and directly after that many steps, and the next step starts from the last of them.
-/

namespace Shapeline

/-- The number of steps of a node of an inline model. -/
def LineSpec.stepCount (line : LineSpec) : Nat := (line.calls.map (·.repetitions)).sum

/-- The shapes that the nodes of an inline model declare, each after as many steps as the nodes up to
and including its own have. -/
def InlineSpec.declaredShapes (inline : InlineSpec) : List Checkpoint :=
  inline.lines.zipIdx.filterMap fun (line, i) => line.declared.map fun shape =>
    ⟨((inline.lines.take (i + 1)).map (·.stepCount)).sum, line.index, shape⟩

section Planning

variable {model : ResolvedModel} {node : Int} {steps : List PlannedStep}
  {checkpoints : List Checkpoint} {calls : List CallSpec} {before rest : List LineSpec}
  {spec : NodeSpec} {planned : PlannedNode} {inline : InlineSpec}

/-- Every use of a layer is planned as many times as it is repeated. -/
theorem length_of_planCalls (h : planCalls model node calls = .ok (steps, [])) :
    steps.length = (calls.map (·.repetitions)).sum := by
  induction calls generalizing steps with
  | nil =>
    rw [planCalls_nil_eq_nil_iff.mp h]
    rfl
  | cons call rest ih =>
    obtain ⟨first, others, hfirst, hothers, rfl⟩ := planCalls_cons_eq_nil_iff.mp h
    obtain ⟨step, _, rfl⟩ := planCall_eq_nil_iff.mp hfirst
    rw [List.length_append, List.length_replicate, ih hothers, List.map_cons, List.sum_cons]

/-- The nodes of an inline model that follow others are planned after the steps of these. -/
theorem checkpoints_of_planLines
    (h : planLines model node (before.map (·.stepCount)).sum rest = .ok (steps, checkpoints, [])) :
    checkpoints = (rest.zipIdx before.length).filterMap fun (line, i) =>
      line.declared.map fun shape =>
        ⟨(((before ++ rest).take (i + 1)).map (·.stepCount)).sum, line.index, shape⟩ := by
  induction rest generalizing before steps checkpoints with
  | nil =>
    obtain ⟨_, hpair⟩ := Prod.mk.inj (pure_eq_ok_iff.mp h)
    exact (Prod.mk.inj hpair).1
  | cons line rest ih =>
    obtain ⟨first, others, later, hfirst, hothers, rfl, rfl⟩ := planLines_cons_eq_nil_iff.mp h
    have hsplit : before ++ line :: rest = before ++ [line] ++ rest := by simp
    have hlength : (before ++ [line]).length = before.length + 1 := by simp
    have hdone : (before.map (·.stepCount)).sum + first.length =
        ((before ++ [line]).map (·.stepCount)).sum := by
      rw [length_of_planCalls hfirst, List.map_append, List.sum_append]
      rfl
    have htake : (before ++ line :: rest).take (before.length + 1) = before ++ [line] := by
      rw [hsplit, ← hlength, List.take_left]
    rw [hdone] at hothers ⊢
    rw [ih hothers, List.zipIdx_cons, List.filterMap_cons, hlength, ← hsplit]
    dsimp only
    rw [htake]
    cases line.declared <;> rfl

/-- The checkpoints of a node that holds an inline model are the shapes that its nodes declare. -/
theorem checkpoints_of_planNode (hinline : spec.inline = some inline)
    (h : planNode model spec = .ok (planned, [])) : planned.checkpoints = inline.declaredShapes := by
  obtain ⟨_, steps, checkpoints, hlines, rfl⟩ := (planNode_inline_iff hinline).mp h
  have hstart : planLines model spec.index (([] : List LineSpec).map (·.stepCount)).sum
      inline.lines = .ok (steps, checkpoints, []) := hlines
  exact checkpoints_of_planLines hstart

end Planning

/-- Moves are in time, the first of them after a number of steps: steps stand at their positions, and
declared shapes where they are due. -/
def InTime : Nat → List Move → Prop
  | _, [] => True
  | done, .apply position _ :: rest => position = done ∧ InTime (done + 1) rest
  | done, .check checkpoint :: rest => checkpoint.after = done ∧ InTime done rest

variable {settings : InferenceSettings} {planned : PlannedNode} {input : Shape}
  {first second : List Move} {done : Nat} {checkpoints : List Checkpoint} {n : GraphNode}
  {errors : List Diagnostic}

/-- Moves in a row are in time if those of the second part are after the steps of the first. -/
theorem inTime_append : InTime done (first ++ second) ↔
    InTime done first ∧ InTime (done + (first.filterMap Move.step?).length) second := by
  induction first generalizing done with
  | nil => simp [InTime]
  | cons move rest ih =>
    cases move with
    | apply position step =>
      have hcount : done + ((Move.apply position step :: rest).filterMap Move.step?).length =
          done + 1 + (rest.filterMap Move.step?).length := by
        simp only [List.filterMap_cons, Move.step?, List.length_cons]
        omega
      rw [List.cons_append, InTime, InTime, ih, hcount, and_assoc]
    | check checkpoint => rw [List.cons_append, InTime, InTime, ih, and_assoc]; rfl

/-- The declared shapes that are due are in time. -/
theorem inTime_checksAt : InTime done (planned.checksAt done) := by
  have hall : ∀ checkpoints : List Checkpoint, (∀ x ∈ checkpoints, x.after = done) →
      InTime done (checkpoints.map .check) := by
    intro checkpoints hdue
    induction checkpoints with
    | nil => trivial
    | cons checkpoint rest ih =>
      obtain ⟨hfirst, hrest⟩ := List.forall_mem_cons.mp hdue
      exact ⟨hfirst, ih hrest⟩
  exact hall _ fun x hx => by simpa using (List.mem_filter.mp hx).2

/-- The moves of a node are in time. -/
theorem inTime_movesTo (hdone : done ≤ planned.steps.length) :
    InTime 0 (planned.movesTo done) := by
  induction done with
  | zero => exact inTime_checksAt
  | succ done ih =>
    have hcount : ((planned.movesTo done).filterMap Move.step?).length = done := by
      rw [filterMap_step?_movesTo, List.length_take]
      omega
    rw [PlannedNode.movesTo, inTime_append, hcount, List.getElem?_eq_getElem hdone, Nat.zero_add]
    exact ⟨ih (Nat.le_of_succ_le hdone), rfl, inTime_checksAt⟩

/-- Of checkpoints in order, those that are due after a further step come after those before. -/
theorem filter_after_succ (hordered : checkpoints.Pairwise (·.after ≤ ·.after)) :
    checkpoints.filter (·.after ≤ done) ++ checkpoints.filter (·.after = done + 1) =
      checkpoints.filter (·.after ≤ done + 1) := by
  induction checkpoints with
  | nil => rfl
  | cons checkpoint rest ih =>
    obtain ⟨hfirst, hrest⟩ := List.pairwise_cons.mp hordered
    by_cases hearly : checkpoint.after ≤ done
    · have hnot : ¬ checkpoint.after = done + 1 := by omega
      have hle : checkpoint.after ≤ done + 1 := by omega
      simp [hearly, hnot, hle, ← ih hrest]
    · have hlate : ∀ other ∈ checkpoint :: rest, ¬ other.after ≤ done := by
        refine List.forall_mem_cons.mpr ⟨hearly, fun other hother => ?_⟩
        have hle := hfirst other hother
        omega
      have hnone : (checkpoint :: rest).filter (·.after ≤ done) = [] :=
        List.filter_eq_nil_iff.mpr fun other hother => by simpa using hlate other hother
      rw [hnone, List.nil_append]
      refine List.filter_congr fun other hother => ?_
      have hlt := hlate other hother
      rw [decide_eq_decide]
      omega

/-- The declared shapes that are compared up to a place are those that are due by then, in order. -/
theorem filterMap_checkpoint?_movesTo
    (hordered : planned.checkpoints.Pairwise (·.after ≤ ·.after)) :
    (planned.movesTo done).filterMap Move.checkpoint? =
      planned.checkpoints.filter (·.after ≤ done) := by
  have hchecks (done : Nat) : (planned.checksAt done).filterMap Move.checkpoint? =
      planned.checkpoints.filter (·.after = done) := by
    rw [PlannedNode.checksAt, List.filterMap_map]
    exact List.filterMap_some
  induction done with
  | zero =>
    rw [PlannedNode.movesTo, hchecks]
    simp
  | succ done ih =>
    rw [PlannedNode.movesTo, List.filterMap_append, List.filterMap_append, ih, hchecks,
      ← filter_after_succ hordered]
    cases planned.steps[done]? <;> rfl

/-- All declared shapes of an inline model are compared in the run of a node. -/
structure PlannedNode.Reconciles (settings : InferenceSettings) (planned : PlannedNode)
    (n : GraphNode) : Prop where
  /-- The run of the node makes its moves and compares the declared shape of the node. -/
  run : ∃ c first second, perform settings planned planned.moves ⟨[], n.input⟩ = ⟨first, .ok c⟩ ∧
    planned.conclude settings n.input c = ⟨second, .ok n⟩ ∧
      inferNode settings planned n.input = ⟨first ++ second, .ok (some n)⟩
  /-- Every step is applied once, in order. -/
  steps : planned.moves.filterMap Move.step? = planned.steps
  /-- Every declared shape is compared once, in order. -/
  once : planned.moves.filterMap Move.checkpoint? = planned.checkpoints
  /-- A declared shape is compared directly after the steps that it comes after. -/
  placed : ∀ before checkpoint after, planned.moves = before ++ .check checkpoint :: after →
    (before.filterMap Move.step?).length = checkpoint.after
  /-- A step after a declared shape is applied to it. -/
  carried : ∀ before checkpoint position step after,
    planned.moves = before ++ .check checkpoint :: .apply position step :: after →
      ∃ c s, (perform settings planned (before ++ [.check checkpoint]) ⟨[], n.input⟩).outcome =
        .ok c ∧ c.shape = checkpoint.shape ∧
          applyStep settings planned.index position step checkpoint.shape = .ok s

/-- A comparison that is followed by a step leaves the declared shape to it. -/
theorem exists_of_perform_check {before after : List Move} {checkpoint : Checkpoint}
    {position : Nat} {step : PlannedStep} {c d : Chain}
    (h : (perform settings planned
      (before ++ .check checkpoint :: .apply position step :: after) c).outcome = .ok d) :
    ∃ e s, (perform settings planned (before ++ [.check checkpoint]) c).outcome = .ok e ∧
      e.shape = checkpoint.shape ∧
        applyStep settings planned.index position step checkpoint.shape = .ok s := by
  rw [perform_append] at h
  obtain ⟨e, hbefore, hrest⟩ := Reporting.outcome_bind_eq_ok_iff.mp h
  obtain ⟨reconciled, hreconcile, hrest⟩ := Reporting.outcome_bind_eq_ok_iff.mp hrest
  obtain ⟨s, happly, _⟩ := Reporting.outcome_bind_eq_ok_iff.mp hrest
  refine ⟨⟨reconciled.steps, checkpoint.shape⟩, s, ?_, rfl, happly⟩
  rw [perform_append]
  exact Reporting.outcome_bind_eq_ok_iff.mpr
    ⟨e, hbefore, Reporting.outcome_bind_eq_ok_iff.mpr ⟨reconciled, hreconcile, rfl⟩⟩

/-- A node whose steps have all been applied compares all declared shapes of its inline model. -/
theorem reconciles_of_inferNode (hplanned : planned.Ordered)
    (h : (inferNode settings planned n.input).Yields errors (some n))
    (hcomplete : n.steps.length = planned.steps.length) : planned.Reconciles settings n := by
  obtain ⟨report, hreport, rfl⟩ := Reporting.yields_iff.mp h
  have hbounded : planned.checkpoints.filter (·.after ≤ planned.steps.length) =
      planned.checkpoints :=
    List.filter_eq_self.mpr fun x hx => decide_eq_true (hplanned.bounded x hx)
  obtain ⟨c, first, second, hperform, hconclude, rfl⟩ :=
    completed_of_inferNode hplanned.pairwise hreport hcomplete
  refine ⟨⟨c, first, second, hperform, hconclude, hreport⟩, ?_, ?_, ?_, ?_⟩
  · rw [PlannedNode.moves, filterMap_step?_movesTo, List.take_length]
  · rw [PlannedNode.moves, filterMap_checkpoint?_movesTo hplanned.pairwise, hbounded]
  · intro before checkpoint after hsplit
    have hintime : InTime 0 planned.moves := inTime_movesTo le_rfl
    rw [hsplit, inTime_append] at hintime
    have hdue := hintime.2.1
    omega
  · intro before checkpoint position step after hsplit
    rw [hsplit] at hperform
    exact exists_of_perform_check (congrArg Reporting.outcome hperform)

end Shapeline
