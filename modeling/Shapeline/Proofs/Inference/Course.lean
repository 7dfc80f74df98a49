import Shapeline.Proofs.Inference.Moves
import Shapeline.Proofs.Inference.Visits

/-!
# The course of a node

Inference of a node carries a chain of steps past the places that declare shapes. What it records at
each place is the verdict on the visit, and the chain that it reaches follows the course of the
node.
-/

namespace Shapeline

/-- The comparison of a chain with the shapes of several places, one after another, each of which is
carried on. -/
inductive Checks (node : Int) : List (String × Shape) → Chain → List Visit → Chain → Prop
  /-- There is no place. -/
  | nil {c : Chain} : Checks node [] c [] c
  /-- The placeholders of the chain are bound at the first place. -/
  | cons {what : String} {declared : Shape} {places : List (String × Shape)} {c d e : Chain}
    {visits : List Visit} : c.substitute (c.shape.binding declared) = .ok d →
    Checks node places ⟨d.steps, declared⟩ visits e →
    Checks node ((what, declared) :: places) c
      (⟨node, c.lastLayer, what, declared, c.shape⟩ :: visits) e

/-- The chain of a node after some steps, whose outputs are given, and past the places that are due
by then. -/
inductive Reaches (settings : InferenceSettings) (planned : PlannedNode) (input : Shape) :
    List Shape → Chain → List Visit → Prop
  /-- No step is applied. -/
  | start {visits : List Visit} {c : Chain} :
    Checks planned.index (planned.due 0) ⟨[], input⟩ visits c →
    Reaches settings planned input [] c visits
  /-- A further step is applied. -/
  | step {outputs : List Shape} {visits more : List Visit} {c d : Chain} {step : PlannedStep}
    {s : LayerStep} : Reaches settings planned input outputs c visits →
    planned.steps[outputs.length]? = some step →
    applyStep settings planned.index outputs.length step c.shape = .ok s →
    Checks planned.index (planned.due (outputs.length + 1)) ⟨c.steps ++ [s], s.output⟩ more d →
    Reaches settings planned input (outputs ++ [s.output]) d (visits ++ more)

variable {settings : InferenceSettings} {planned : PlannedNode} {node : Int} {σ π : Substitution}
  {c d e : Chain} {declared input : Shape} {what : String} {errors : List Diagnostic}
  {visits more : List Visit} {places : List (String × Shape)}

/-- A substitution keeps the layer types of the steps. -/
theorem Chain.lastLayer_of_substitute (h : c.substitute π = .ok d) : d.lastLayer = c.lastLayer := by
  have hlast : d.steps.getLast?.map (·.layerType) = c.steps.getLast?.map (·.layerType) := by
    rw [← List.getLast?_map, Chain.layerTypes_of_substitute h, List.getLast?_map]
  unfold lastLayer
  cases hd : d.steps.getLast? with
  | none =>
    rw [hd, Option.map_none, eq_comm, Option.map_eq_none_iff] at hlast
    rw [hlast]
  | some t =>
    rw [hd, Option.map_some, eq_comm, Option.map_eq_some_iff] at hlast
    obtain ⟨s, hs, hst⟩ := hlast
    rw [hs, Option.bind_some, Option.bind_some, hst]

/-- What a comparison records is the verdict on the place. -/
theorem verdict_of_reconcile (htrust : settings.trustDeclared = false)
    (h : (reconcile settings node c declared what).Yields errors d) :
    c.substitute (c.shape.binding declared) = .ok d ∧
      Visit.Verdict (.ofTerms settings.bindings) ⟨node, c.lastLayer, what, declared, c.shape⟩
        errors := by
  obtain ⟨hsubstitute, found, hfound, rfl⟩ := reconcile_yields_iff.mp h
  have hbound := (Chain.substitute_eq_ok_iff.mp hsubstitute).1
  have hlayer := Chain.lastLayer_of_substitute hsubstitute
  refine ⟨hsubstitute, ?_⟩
  have hdescribes := describes_of_discrepancy hfound
  cases found with
  | none => exact .same hbound hdescribes
  | some found =>
    have herrors : discrepancyErrors settings node d declared what (some found) =
        [Visit.mismatch ⟨node, c.lastLayer, what, declared, c.shape⟩ d.shape found.position?] := by
      simp [discrepancyErrors, reportDiscrepancy, htrust, Visit.mismatch, hlayer]
    rw [herrors]
    cases found with
    | rank => exact .rank hbound hdescribes
    | axis position => exact .axis hbound hdescribes.1 hdescribes.2

/-- The moves that compare declared shapes visit their places. -/
theorem checks_of_perform {checkpoints : List Checkpoint} {report : Report}
    (htrust : settings.trustDeclared = false)
    (h : perform settings planned (checkpoints.map .check) c = ⟨report, .ok d⟩) :
    ∃ visits reports, Checks planned.index (planned.placesOf checkpoints) c visits d ∧
      List.Forall₂ (Visit.Verdict (.ofTerms settings.bindings)) visits reports ∧
        report.errors = reports.flatten := by
  induction checkpoints generalizing c report with
  | nil =>
    obtain ⟨rfl, rfl⟩ := Reporting.pure_eq_ok_iff.mp h
    exact ⟨[], [], .nil, .nil, rfl⟩
  | cons checkpoint rest ih =>
    obtain ⟨reconciled, first, second, hreconcile, hsecond, rfl⟩ := Reporting.bind_eq_ok_iff.mp h
    obtain ⟨hsubstitute, hverdict⟩ := verdict_of_reconcile htrust (Reporting.yields_of_eq hreconcile)
    obtain ⟨visits, reports, hchecks, hverdicts, herrors⟩ := ih hsecond
    refine ⟨_, _, .cons hsubstitute hchecks, .cons hverdict hverdicts, ?_⟩
    rw [List.flatten_cons, ← herrors]
    rfl

/-- The moves up to a place reach it. -/
theorem reaches_of_perform {done : Nat} {report : Report} (htrust : settings.trustDeclared = false)
    (hdone : done ≤ planned.steps.length)
    (h : perform settings planned (planned.movesTo done) ⟨[], input⟩ = ⟨report, .ok c⟩) :
    ∃ outputs visits reports, outputs.length = done ∧
      Reaches settings planned input outputs c visits ∧
        List.Forall₂ (Visit.Verdict (.ofTerms settings.bindings)) visits reports ∧
          report.errors = reports.flatten := by
  induction done generalizing c report with
  | zero =>
    obtain ⟨visits, reports, hchecks, hverdicts, herrors⟩ := checks_of_perform htrust h
    exact ⟨[], visits, reports, rfl, .start hchecks, hverdicts, herrors⟩
  | succ done ih =>
    have hstep : planned.steps[done]? = some planned.steps[done] := List.getElem?_eq_getElem hdone
    rw [PlannedNode.movesTo, hstep, perform_append] at h
    obtain ⟨e, first, rest, hfirst, hrest, rfl⟩ := Reporting.bind_eq_ok_iff.mp h
    obtain ⟨outputs, visits, reports, rfl, hreaches, hverdicts, herrors⟩ :=
      ih (Nat.le_of_succ_le hdone) hfirst
    obtain ⟨s, begun, second, happly, hsecond, rfl⟩ := Reporting.bind_eq_ok_iff.mp hrest
    obtain ⟨hnone, happly⟩ := Reporting.yields_ofOutcome_iff.mp (Reporting.yields_of_eq happly)
    obtain ⟨more, reports', hchecks, hverdicts', herrors'⟩ := checks_of_perform htrust hsecond
    refine ⟨outputs ++ [s.output], visits ++ more, reports ++ reports', by simp,
      .step hreaches hstep happly hchecks, List.rel_append hverdicts hverdicts', ?_⟩
    have hjoin : (first ++ (begun ++ second)).errors =
        first.errors ++ (begun.errors ++ second.errors) := rfl
    rw [List.flatten_append, ← herrors, ← herrors', hjoin, hnone]
    rfl

/-- The comparison with several places visits them in their order and carries the last declared
shape on. -/
theorem Checks.visits_eq (h : Checks node places c visits d) :
    visits = visitsAt node c.lastLayer c.shape places ∧ d.lastLayer = c.lastLayer ∧
      d.shape = carried c.shape places := by
  induction h with
  | nil => exact ⟨rfl, rfl, rfl⟩
  | @cons what declared places c d e visits hsubstitute _ ih =>
    obtain ⟨hvisits, hlayer, hshape⟩ := ih
    have hsame : Chain.lastLayer ⟨d.steps, declared⟩ = c.lastLayer := by
      rw [← Chain.lastLayer_of_substitute hsubstitute]
      rfl
    rw [hsame] at hvisits hlayer
    refine ⟨by rw [hvisits]; rfl, hlayer, ?_⟩
    rw [hshape]
    cases places with
    | nil => rfl
    | cons place rest => rfl

/-- The chain that is reached carries the shape that the next step starts from, and all places up to
there have been visited. -/
theorem Reaches.visits_eq {outputs : List Shape}
    (h : Reaches settings planned input outputs c visits) :
    c.shape = planned.upcoming input outputs ∧ c.lastLayer = planned.layerBefore outputs.length ∧
      visits = planned.innerVisits input outputs := by
  induction h with
  | start hchecks =>
    obtain ⟨hvisits, hlayer, hshape⟩ := hchecks.visits_eq
    refine ⟨hshape, hlayer, ?_⟩
    rw [hvisits]
    exact (List.append_nil _).symm
  | @step outputs visits more c d step s _ hstep happly hchecks ih =>
    obtain ⟨hvisits, hlayer, hshape⟩ := hchecks.visits_eq
    obtain ⟨hlayerType, _⟩ := applyStep_eq_ok happly
    have hlength : (outputs ++ [s.output]).length = outputs.length + 1 := by simp
    have hlast : Chain.lastLayer ⟨c.steps ++ [s], s.output⟩ =
        planned.layerBefore (outputs.length + 1) := by
      simp [Chain.lastLayer, PlannedNode.layerBefore, hlayerType, hstep]
    refine ⟨?_, ?_, ?_⟩
    · rw [hshape, PlannedNode.upcoming, hlength]
      simp
    · rw [hlayer, hlast, hlength]
    · have hindices : (input :: (outputs ++ [s.output])).zipIdx =
          (input :: outputs).zipIdx ++ [(s.output, outputs.length + 1)] := by
        rw [← List.cons_append, List.zipIdx_append]
        simp
      rw [PlannedNode.innerVisits, hindices, List.flatMap_append, ih.2.2, hvisits, hlast]
      simp [PlannedNode.innerVisits]

/-- The steps that are applied on the way form a course. -/
theorem Reaches.course {outputs : List Shape}
    (h : Reaches settings planned input outputs c visits) :
    Course settings planned input outputs := by
  induction h with
  | start _ => exact .start
  | step hreaches hstep happly _ ih =>
    have hshape := hreaches.visits_eq.1
    rw [hshape] at happly
    exact .step ih hstep happly

/-- The comparison with places keeps the number of steps. -/
theorem Checks.length_steps (h : Checks node places c visits d) :
    d.steps.length = c.steps.length := by
  induction h with
  | nil => rfl
  | cons hsubstitute _ ih =>
    have hlength := (Chain.substitute_eq_ok_iff.mp hsubstitute).2.length_eq
    exact ih.trans hlength.symm

/-- The chain that is reached has the steps that are applied on the way. -/
theorem Reaches.length_steps {outputs : List Shape}
    (h : Reaches settings planned input outputs c visits) : c.steps.length = outputs.length := by
  induction h with
  | start hchecks => exact hchecks.length_steps
  | step _ _ _ hchecks ih =>
    have hlength := hchecks.length_steps
    rw [List.length_append, List.length_singleton] at hlength ⊢
    omega

end Shapeline
