import Shapeline.Proofs.Inference.Run
import Shapeline.Proofs.Planning

/-!
# The moves of a node

Inference of a node alternates between two kinds of moves: a step is applied, or a shape that the
inline model declares is compared and carried on. The plan fixes their order. So inference of a node
performs all its moves and compares the shape that the node itself declares at the end, or it
performs the moves before a step whose rule fails.
-/

namespace Shapeline

/-- What inference of a node does at one time. -/
inductive Move
  /-- The step at a position is applied. -/
  | apply (position : Nat) (step : PlannedStep)
  /-- A shape that an inline model declares is compared and carried on. -/
  | check (checkpoint : Checkpoint)

/-- The step that is applied. -/
def Move.step? : Move → Option PlannedStep
  | apply _ step => some step
  | check _ => none

/-- The declared shape that is compared. -/
def Move.checkpoint? : Move → Option Checkpoint
  | apply _ _ => none
  | check checkpoint => some checkpoint

/-- Make several moves, one after another. -/
def perform (settings : InferenceSettings) (planned : PlannedNode) :
    List Move → Chain → Reporting Chain
  | [], c => pure c
  | .apply position step :: rest, c => do
    let applied ← Reporting.ofOutcome (applyStep settings planned.index position step c.shape)
    perform settings planned rest ⟨c.steps ++ [applied], applied.output⟩
  | .check checkpoint :: rest, c => do
    let reconciled ← reconcile settings planned.index c checkpoint.shape
      (checkpointName planned checkpoint)
    perform settings planned rest { reconciled with shape := checkpoint.shape }

namespace PlannedNode

/-- The declared shapes that are due after a number of steps are compared. -/
def checksAt (planned : PlannedNode) (done : Nat) : List Move :=
  (planned.checkpoints.filter (·.after = done)).map .check

/-- The first steps of a node are applied, and the declared shapes that are due by then are
compared. -/
def movesTo (planned : PlannedNode) : Nat → List Move
  | 0 => planned.checksAt 0
  | done + 1 => planned.movesTo done ++
      ((planned.steps[done]?.toList.map (.apply done)) ++ planned.checksAt (done + 1))

/-- All moves of a node. -/
def moves (planned : PlannedNode) : List Move := planned.movesTo planned.steps.length

/-- The node that is made of a chain after all moves, once its shape has been compared with the one
that the node declares. -/
def conclude (settings : InferenceSettings) (planned : PlannedNode) (input : Shape) (c : Chain) :
    Reporting GraphNode :=
  match planned.declared with
  | none => pure (planned.finish input c c.shape)
  | some declared => do
    let c ← reconcile settings planned.index c declared "declared shape"
    pure (planned.finish input c declared)

/-- How inference of a node goes, with all that it records: all moves are made and the declared
shape is compared, or the rule of some step fails after the moves before it. -/
inductive Runs (settings : InferenceSettings) (planned : PlannedNode) (input : Shape) :
    Report → Option GraphNode → Prop
  /-- All moves are made. -/
  | completed {first second : Report} {c : Chain} {n : GraphNode} :
    perform settings planned planned.moves ⟨[], input⟩ = ⟨first, .ok c⟩ →
    planned.conclude settings input c = ⟨second, .ok n⟩ →
    Runs settings planned input (first ++ second) (some n)
  /-- The rule of a step fails. -/
  | failed {report : Report} {c : Chain} {done : Nat} {step : PlannedStep} {d : Diagnostic} :
    perform settings planned (planned.movesTo done) ⟨[], input⟩ = ⟨report, .ok c⟩ →
    planned.steps[done]? = some step →
    applyStep settings planned.index done step c.shape = .error (.problem d) →
    Runs settings planned input
      (report ++ { errors := [d.atNode planned.index (some step.layerType.name)] })
      ((fallbackShape planned).map (planned.finish input c))

end PlannedNode

variable {settings : InferenceSettings} {planned : PlannedNode} {input : Shape} {c d e start : Chain}
  {first second : List Move} {moves : List Move} {report known : Report} {done position : Nat}
  {made : Option GraphNode} {errors : List Diagnostic}

/-- Moves in a row are made one after another. -/
theorem perform_append : perform settings planned (first ++ second) c =
    perform settings planned first c >>= perform settings planned second := by
  induction first generalizing c with
  | nil => exact (pure_bind c _).symm
  | cons move rest ih =>
    cases move with
    | apply position step =>
      rw [List.cons_append, perform, perform, bind_assoc]
      exact bind_congr fun _ => ih
    | check checkpoint =>
      rw [List.cons_append, perform, perform, bind_assoc]
      exact bind_congr fun _ => ih

/-- Making moves adds the layer types of the steps that are applied. -/
theorem layerTypes_of_perform (h : (perform settings planned moves c).outcome = .ok d) :
    d.steps.map (·.layerType) = c.steps.map (·.layerType) ++
      (moves.filterMap Move.step?).map fun step => some step.layerType := by
  induction moves generalizing c with
  | nil =>
    obtain rfl := Except.ok.inj h
    exact (List.append_nil _).symm
  | cons move rest ih =>
    cases move with
    | apply position step =>
      obtain ⟨applied, happly, hrest⟩ := Reporting.outcome_bind_eq_ok_iff.mp h
      have hlayer : applied.layerType = some step.layerType := (applyStep_eq_ok happly).1
      rw [ih hrest]
      simp [Move.step?, hlayer]
    | check checkpoint =>
      obtain ⟨reconciled, hreconcile, hrest⟩ := Reporting.outcome_bind_eq_ok_iff.mp h
      have hsubstitute := (reconcile_yields_iff.mp ⟨hreconcile, rfl⟩).1
      rw [ih hrest, Chain.layerTypes_of_substitute hsubstitute]
      rfl

/-- The declared shapes that are due are compared without applying a step. -/
theorem filterMap_step?_checksAt : (planned.checksAt done).filterMap Move.step? = [] := by
  rw [PlannedNode.checksAt, List.filterMap_map]
  exact List.filterMap_eq_nil_iff.mpr fun _ _ => rfl

/-- The steps that are applied up to a place are the first ones of the node, in order. -/
theorem filterMap_step?_movesTo :
    (planned.movesTo done).filterMap Move.step? = planned.steps.take done := by
  induction done with
  | zero => exact filterMap_step?_checksAt
  | succ done ih =>
    rw [PlannedNode.movesTo, List.filterMap_append, List.filterMap_append, ih,
      filterMap_step?_checksAt, List.append_nil, List.take_add_one, List.filterMap_map]
    cases planned.steps[done]? <;> rfl

/-- The steps that are recorded by making moves up to a place are the first ones of the node. -/
theorem layerTypes_of_movesTo (hdone : done ≤ planned.steps.length)
    (h : (perform settings planned (planned.movesTo done) ⟨[], input⟩).outcome = .ok c) :
    c.steps.length = done ∧ c.steps.map (·.layerType) =
      (planned.steps.take done).map fun step => some step.layerType := by
  have htypes := layerTypes_of_perform h
  rw [filterMap_step?_movesTo, List.map_nil, List.nil_append] at htypes
  have hlength := congrArg List.length htypes
  simp only [List.length_map, List.length_take] at hlength
  exact ⟨by omega, htypes⟩

/-- Checking the declared shapes that are due makes the moves that compare them. The others
remain. -/
theorem checkDue_eq_perform {pending : List Checkpoint}
    (hordered : pending.Pairwise (·.after ≤ ·.after))
    (hpending : ∀ checkpoint ∈ pending, done ≤ checkpoint.after) :
    checkDue settings planned done pending c =
      perform settings planned ((pending.filter (·.after = done)).map .check) c >>= fun d =>
        pure (pending.filter (done < ·.after), d) := by
  induction pending generalizing c with
  | nil => rfl
  | cons checkpoint rest ih =>
    obtain ⟨hfirst, hrest⟩ := List.pairwise_cons.mp hordered
    obtain ⟨hbound, hbounds⟩ := List.forall_mem_cons.mp hpending
    unfold checkDue
    split
    · rename_i hdue
      rw [List.filter_cons_of_pos (by simp [hdue]), List.map_cons, perform, bind_assoc,
        List.filter_cons_of_neg (by simp [hdue])]
      exact bind_congr fun _ => ih hrest hbounds
    · rename_i hnot
      have hlater : ∀ other ∈ checkpoint :: rest, done < other.after := by
        refine List.forall_mem_cons.mpr ⟨by omega, fun other hother => ?_⟩
        have hle := hfirst other hother
        omega
      have hnone : (checkpoint :: rest).filter (·.after = done) = [] := by
        refine List.filter_eq_nil_iff.mpr fun other hother => ?_
        have hlt := hlater other hother
        simp only [decide_eq_true_eq]
        omega
      have hall : (checkpoint :: rest).filter (done < ·.after) = checkpoint :: rest :=
        List.filter_eq_self.mpr fun other hother => decide_eq_true (hlater other hother)
      rw [hnone, hall]
      rfl

/-- Checking the declared shapes of a node that are due after a number of steps. -/
theorem checkDue_eq_checksAt (hordered : planned.checkpoints.Pairwise (·.after ≤ ·.after)) :
    checkDue settings planned done (planned.checkpoints.filter (done ≤ ·.after)) c =
      perform settings planned (planned.checksAt done) c >>= fun d =>
        pure (planned.checkpoints.filter (done + 1 ≤ ·.after), d) := by
  have hdue : (planned.checkpoints.filter (done ≤ ·.after)).filter (·.after = done) =
      planned.checkpoints.filter (·.after = done) := by
    rw [List.filter_filter]
    refine List.filter_congr fun checkpoint _ => ?_
    simp only [← Bool.decide_and, decide_eq_decide]
    omega
  have hrest : (planned.checkpoints.filter (done ≤ ·.after)).filter (done < ·.after) =
      planned.checkpoints.filter (done + 1 ≤ ·.after) := by
    rw [List.filter_filter]
    refine List.filter_congr fun checkpoint _ => ?_
    simp only [← Bool.decide_and, decide_eq_decide]
    omega
  rw [checkDue_eq_perform (hordered.filter _) fun checkpoint hcheckpoint => by
    simpa using (List.mem_filter.mp hcheckpoint).2, hdue, hrest]
  rfl

/-- The first steps of a node have been applied, and those that are left are applied next: all of
them, or those before the first whose rule fails. -/
theorem performs_of_runSteps {steps : List PlannedStep} {complete : Bool}
    (hordered : planned.checkpoints.Pairwise (·.after ≤ ·.after))
    (hposition : position ≤ planned.steps.length) (hsteps : planned.steps.drop position = steps)
    (hstart : perform settings planned (planned.movesTo position) start = ⟨known, .ok c⟩)
    (h : runSteps settings planned position steps
      (planned.checkpoints.filter (position + 1 ≤ ·.after)) c = ⟨report, .ok (e, complete)⟩) :
    complete = true ∧ perform settings planned planned.moves start = ⟨known ++ report, .ok e⟩ ∨
      complete = false ∧ ∃ done step d found,
        perform settings planned (planned.movesTo done) start = ⟨known ++ found, .ok e⟩ ∧
        planned.steps[done]? = some step ∧
        applyStep settings planned.index done step e.shape = .error (.problem d) ∧
        report = found ++ { errors := [d.atNode planned.index (some step.layerType.name)] } := by
  induction steps generalizing position c known report with
  | nil =>
    obtain ⟨rfl, heq⟩ := Reporting.pure_eq_ok_iff.mp h
    obtain ⟨rfl, rfl⟩ := Prod.mk.inj heq
    have hlength : position = planned.steps.length := by
      have hle := List.drop_eq_nil_iff.mp hsteps
      omega
    refine Or.inl ⟨rfl, ?_⟩
    rw [PlannedNode.moves, ← hlength, hstart]
    exact congrArg₂ Reporting.mk known.append_empty.symm rfl
  | cons step rest ih =>
    have hstep : planned.steps[position]? = some step := by
      rw [← Nat.add_zero position, ← List.getElem?_drop, hsteps]
      rfl
    have hrest : planned.steps.drop (position + 1) = rest := by
      rw [← List.tail_drop, hsteps, List.tail_cons]
    have hlt : position < planned.steps.length := (List.getElem?_eq_some_iff.mp hstep).1
    unfold runSteps at h
    split at h
    · rename_i applied happly
      rw [checkDue_eq_checksAt hordered, bind_assoc] at h
      obtain ⟨d, first, second, hfirst, hsecond, rfl⟩ := Reporting.bind_eq_ok_iff.mp h
      have hnext : perform settings planned (planned.movesTo (position + 1)) start =
          ⟨known ++ first, .ok d⟩ := by
        rw [PlannedNode.movesTo, perform_append, hstep, hstart]
        refine Reporting.bind_eq_ok_iff.mpr ⟨c, known, first, rfl, ?_, rfl⟩
        rw [Option.toList_some, List.map_singleton, List.singleton_append, perform, happly]
        refine Reporting.bind_eq_ok_iff.mpr ⟨applied, {}, first, rfl, hfirst, rfl⟩
      have hdone := ih hlt hrest hnext hsecond
      simp only [Report.append_assoc] at hdone
      refine hdone.imp_right fun ⟨hfalse, last, other, found, report, hperform, hrest⟩ => ?_
      obtain ⟨hother, hfails, rfl⟩ := hrest
      exact ⟨hfalse, last, other, found, first ++ report, hperform, hother, hfails,
        (Report.append_assoc ..).symm⟩
    · rename_i d hfails
      obtain ⟨rfl, heq⟩ := Reporting.mk.inj h
      obtain ⟨rfl, rfl⟩ := Prod.mk.inj (Except.ok.inj heq)
      refine Or.inr ⟨rfl, position, step, d, {}, ?_, hstep, hfails, ?_⟩
      · rw [known.append_empty, hstart]
      · rfl
    · cases (Reporting.mk.inj h).2

/-- The end of a node makes the node of the chain as it is, or compares it with the declared
shape. -/
theorem PlannedNode.conclude_eq_ok_iff {n : GraphNode} :
    planned.conclude settings input c = ⟨report, .ok n⟩ ↔
      (planned.declared = none ∧ report = {} ∧ n = planned.finish input c c.shape) ∨
      ∃ shape d, planned.declared = some shape ∧
        reconcile settings planned.index c shape "declared shape" = ⟨report, .ok d⟩ ∧
        n = planned.finish input d shape := by
  cases hdeclared : planned.declared with
  | none => simp [conclude, hdeclared, Reporting.pure_eq_ok_iff]
  | some shape => simp [conclude, hdeclared, Reporting.bind_pure_eq_ok_iff, -bind_pure_comp]

/-- Inference of a node that returns makes the moves of the node. -/
theorem runs_of_inferNode (hordered : planned.checkpoints.Pairwise (·.after ≤ ·.after))
    (h : inferNode settings planned input = ⟨report, .ok made⟩) :
    planned.Runs settings input report made := by
  have hall : planned.checkpoints.filter (0 ≤ ·.after) = planned.checkpoints := by simp
  unfold inferNode at h
  rw [← hall, checkDue_eq_checksAt hordered, bind_assoc] at h
  obtain ⟨c, first, rest, hfirst, hrest, rfl⟩ := Reporting.bind_eq_ok_iff.mp h
  rw [pure_bind] at hrest
  obtain ⟨⟨e, complete⟩, second, last, hsecond, hlast, rfl⟩ := Reporting.bind_eq_ok_iff.mp hrest
  dsimp only at hsecond hlast
  rcases performs_of_runSteps hordered (Nat.zero_le _) rfl hfirst hsecond with
    ⟨rfl, hperform⟩ | ⟨rfl, done, step, d, found, hperform, hstep, hfails, rfl⟩
  · rw [if_pos rfl] at hlast
    rw [← Report.append_assoc]
    split at hlast
    · rename_i hnone
      obtain ⟨rfl, rfl⟩ := Reporting.pure_eq_ok_iff.mp hlast
      exact .completed hperform (PlannedNode.conclude_eq_ok_iff.mpr (Or.inl ⟨hnone, rfl, rfl⟩))
    · rename_i shape hsome
      obtain ⟨d, hreconcile, rfl⟩ := Reporting.bind_pure_eq_ok_iff.mp hlast
      exact .completed hperform
        (PlannedNode.conclude_eq_ok_iff.mpr (Or.inr ⟨shape, d, hsome, hreconcile, rfl⟩))
  · obtain ⟨rfl, rfl⟩ := Reporting.pure_eq_ok_iff.mp hlast
    rw [Report.append_assoc, Report.append_empty, ← Report.append_assoc]
    exact .failed hperform hstep hfails

/-- A node with all its steps has made all moves, and nothing has failed. -/
theorem completed_of_inferNode {n : GraphNode}
    (hordered : planned.checkpoints.Pairwise (·.after ≤ ·.after))
    (h : inferNode settings planned n.input = ⟨report, .ok (some n)⟩)
    (hcomplete : n.steps.length = planned.steps.length) :
    ∃ c first second, perform settings planned planned.moves ⟨[], n.input⟩ = ⟨first, .ok c⟩ ∧
      planned.conclude settings n.input c = ⟨second, .ok n⟩ ∧ report = first ++ second := by
  have hruns := runs_of_inferNode hordered h
  generalize hmade : some n = made at hruns
  cases hruns with
  | @completed first second c m hperform hconclude =>
    obtain rfl := Option.some.inj hmade
    exact ⟨c, first, second, hperform, hconclude, rfl⟩
  | @failed report c done step x hperform hstep _ =>
    exfalso
    obtain ⟨output, _, hn⟩ := Option.map_eq_some_iff.mp hmade.symm
    have hsteps : n.steps = c.steps := by
      rw [← hn]
      rfl
    have hlt := (List.getElem?_eq_some_iff.mp hstep).1
    obtain ⟨hlength, _⟩ := layerTypes_of_movesTo hlt.le (congrArg Reporting.outcome hperform)
    rw [hsteps] at hcomplete
    omega

end Shapeline
