import Shapeline.Proofs.Inference.Invariants
import Shapeline.Proofs.Inference.Moves
import Shapeline.Proofs.Inference.Visits

/-!
# Numbers of axes in inference

Replacing placeholders changes no number of axes. So every step that inference records accepts the
number of axes that it starts from, and the first step of a node starts from as many axes as the
input of the node has, unless the inline model declares another shape before it.
-/

namespace Shapeline

variable {settings : InferenceSettings} {planned : PlannedNode} {input shape : Shape}
  {c d start : Chain} {s s' : LayerStep} {n : GraphNode} {σ : Substitution}
  {errors : List Diagnostic} {done : ℕ}

/-- A step has a layer type that accepts the number of axes of its input. -/
def LayerStep.Accepted (s : LayerStep) : Prop :=
  ∃ layer, s.layerType = some layer ∧ layer.rule.acceptsRank s.input.rank = true

/-- The shape that the first step of a node starts from: the input of the node, or the last shape
that the inline model declares before the step. -/
def PlannedNode.entry (planned : PlannedNode) (input : Shape) : Shape :=
  carried input (planned.due 0)

/-- Replacing placeholders keeps the layer type of a step and the number of axes of its input. -/
theorem LayerStep.rank_of_substitute (h : s.substitute σ = .ok s') :
    s'.layerType = s.layerType ∧ s'.input.rank = s.input.rank := by
  obtain ⟨hlayer, -, hinput, -⟩ := substitute_eq_ok_iff.mp h
  exact ⟨hlayer, (Shape.substitute_eq_ok_iff.mp hinput).length_eq.symm⟩

/-- A step still accepts its input after placeholders have been replaced. -/
theorem LayerStep.Accepted.substitute (hs : s.Accepted) (h : s.substitute σ = .ok s') :
    s'.Accepted := by
  obtain ⟨layer, hlayer, haccepts⟩ := hs
  obtain ⟨hlayer', hrank⟩ := rank_of_substitute h
  exact ⟨layer, hlayer'.trans hlayer, hrank ▸ haccepts⟩

/-- Replacing placeholders in a chain changes no number of axes that a step starts from. -/
theorem Chain.ranks_of_substitute (h : c.substitute σ = .ok d) :
    d.steps.map (·.input.rank) = c.steps.map (·.input.rank) := by
  obtain ⟨-, hsteps⟩ := substitute_eq_ok_iff.mp h
  exact map_eq_map_of_forall₂ (hsteps.flip.imp fun _ _ hst => (LayerStep.rank_of_substitute hst).2)

/-- A step that is applied accepts the number of axes that it starts from, whatever is replaced in
it later. -/
theorem persistent_accepted : Persistent settings LayerStep.Accepted where
  applied h := by
    obtain ⟨outcome, houtcome, h⟩ := bind_eq_ok_iff.mp h
    obtain rfl := pure_eq_ok_iff.mp h
    exact ⟨_, rfl, (Rule.apply_eq_ok houtcome).1⟩
  substituted hs h := hs.substitute h

/-- A chain begins with a step that starts from a number of axes, or has that many itself. -/
structure Chain.BeginsWith (rank : ℕ) (c : Chain) : Prop where
  /-- The first step starts from this number. -/
  first : ∀ r ∈ (c.steps.map (·.input.rank)).head?, r = rank
  /-- Before the first step the shape has this number. -/
  shape : c.steps = [] → c.shape.rank = rank

/-- Declared shapes that are compared one after another leave the last of them, and no step starts
from another number of axes than before. -/
theorem perform_checks {checkpoints : List Checkpoint}
    (h : (perform settings planned (checkpoints.map .check) c).outcome = .ok d) :
    d.steps.map (·.input.rank) = c.steps.map (·.input.rank) ∧
      d.shape = carried c.shape (planned.placesOf checkpoints) := by
  induction checkpoints generalizing c with
  | nil =>
    obtain rfl := Except.ok.inj h
    exact ⟨rfl, rfl⟩
  | cons checkpoint rest ih =>
    obtain ⟨reconciled, hreconcile, hrest⟩ := Reporting.outcome_bind_eq_ok_iff.mp h
    have hsubstitute := (reconcile_yields_iff.mp ⟨hreconcile, rfl⟩).1
    obtain ⟨hranks, hshape⟩ := ih hrest
    have hkept := Chain.ranks_of_substitute hsubstitute
    refine ⟨hranks.trans hkept, hshape.trans ?_⟩
    simp only [carried, PlannedNode.placesOf, List.map_cons, List.getLastD_cons]

/-- The moves of a node up to a place make a chain that begins with the shape of its entry. -/
theorem beginsWith_of_perform (hdone : done ≤ planned.steps.length)
    (h : (perform settings planned (planned.movesTo done) ⟨[], input⟩).outcome = .ok c) :
    c.BeginsWith (planned.entry input).rank := by
  induction done generalizing c with
  | zero =>
    obtain ⟨hranks, hshape⟩ := perform_checks h
    refine ⟨fun r hr => ?_, fun _ => congrArg Shape.rank hshape⟩
    rw [hranks] at hr
    cases hr
  | succ done ih =>
    rw [PlannedNode.movesTo, List.getElem?_eq_getElem hdone, perform_append] at h
    obtain ⟨e, hbefore, hrest⟩ := Reporting.outcome_bind_eq_ok_iff.mp h
    obtain ⟨s, happly, hchecks⟩ := Reporting.outcome_bind_eq_ok_iff.mp hrest
    obtain ⟨hfirst, hshape⟩ := ih (Nat.le_of_succ_le hdone) hbefore
    obtain ⟨hranks, -⟩ := perform_checks hchecks
    have hinput : s.input = e.shape := (applyStep_eq_ok happly).2
    rw [List.map_append, List.map_singleton] at hranks
    refine ⟨fun r hr => ?_, fun hnil => ?_⟩
    · rw [hranks] at hr
      cases hsteps : e.steps with
      | nil =>
        rw [hsteps] at hr
        rw [← Option.some.inj hr, hinput, hshape hsteps]
      | cons first others =>
        rw [hsteps] at hr
        exact hfirst r (by rw [hsteps]; exact hr)
    · rw [hnil] at hranks
      simp at hranks

/-- The first step of a node starts from as many axes as the entry of the node has. -/
theorem entry_of_inferNode (hordered : planned.Ordered)
    (h : (inferNode settings planned input).Yields errors (some n)) :
    ∀ first ∈ n.steps.head?, first.input.rank = (planned.entry input).rank := by
  obtain ⟨report, hreport, rfl⟩ := Reporting.yields_iff.mp h
  have hruns := runs_of_inferNode hordered.pairwise hreport
  have hsame {c d : Chain} (hc : c.BeginsWith (planned.entry input).rank)
      (hranks : d.steps.map (·.input.rank) = c.steps.map (·.input.rank)) :
      ∀ first ∈ d.steps.head?, first.input.rank = (planned.entry input).rank := by
    intro first hfirst
    refine hc.first _ ?_
    rw [← hranks, List.head?_map]
    exact Option.mem_map_of_mem _ hfirst
  generalize hmade : some n = made at hruns
  cases hruns with
  | @completed _ _ c m hperform hconclude =>
    obtain rfl := Option.some.inj hmade
    have hc := beginsWith_of_perform le_rfl (congrArg Reporting.outcome hperform)
    rcases PlannedNode.conclude_eq_ok_iff.mp hconclude with
      ⟨-, -, rfl⟩ | ⟨shape, d, -, hreconcile, rfl⟩
    · exact hsame hc rfl
    · have hsubstitute := (reconcile_yields_iff.mp (Reporting.yields_of_eq hreconcile)).1
      exact hsame hc (Chain.ranks_of_substitute hsubstitute)
  | @failed _ c done step x hperform hstep _ =>
    obtain ⟨output, -, rfl⟩ := Option.map_eq_some_iff.mp hmade.symm
    have hlt := (List.getElem?_eq_some_iff.mp hstep).1
    exact hsame (beginsWith_of_perform hlt.le (congrArg Reporting.outcome hperform)) rfl

end Shapeline
