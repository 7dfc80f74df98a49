import Shapeline.Proofs.Inference.Invariants
import Shapeline.Proofs.Inference.Moves
import Shapeline.Proofs.Rule.Outputs

/-!
# Sizes that a declared shape tells

A step that nobody has given an output size leaves a placeholder in the first extent. The steps that
keep the first extent carry it to the end of the node, where it is bound to the first declared
extent and replaced everywhere. Nothing else in the node changes.
-/

namespace Shapeline

/-- A name occurs nowhere in a step. -/
structure LayerStep.Avoids (name : String) (s : LayerStep) : Prop where
  /-- The name occurs in no parameter. -/
  params : ∀ key t, s.params.get? key = some (.dim t) → name ∉ t.symbols
  /-- The name does not occur in the input. -/
  input : name ∉ s.input.symbols
  /-- The name does not occur in the output. -/
  output : name ∉ s.output.symbols

/-- A recorded step has every parameter that has a value in the plan, as its rule records it. -/
def PlannedStep.KeptBy (step : PlannedStep) (s : LayerStep) : Prop :=
  ∀ name v, step.params.given? name = some v →
    s.params.get? name = some (step.layerType.rule.recorded s.input.rank name v)

/-- The output size of a step of a node, for which a placeholder stood, is the first declared
extent, and the values in the plan are kept. -/
structure PlannedNode.Sized (planned : PlannedNode) (n : GraphNode) (j : Nat) (output : String)
    (q : Placeholder) (shape : Shape) : Prop where
  /-- The size is the first declared extent. -/
  size : ∃ s extent, n.steps[j]? = some s ∧ shape.axes.head? = some extent ∧
    s.params.get? output = some (.dim extent)
  /-- The placeholder occurs in no step. -/
  steps : ∀ s ∈ n.steps, s.Avoids q.name
  /-- The placeholder does not occur in the inferred shape. -/
  inferred : q.name ∉ n.inferred.symbols
  /-- Every step keeps the values in the plan. -/
  kept : ∀ (k : Nat) (step : PlannedStep) (s : LayerStep), planned.steps[k]? = some step →
    n.steps[k]? = some s → step.KeptBy s

variable {settings : InferenceSettings} {planned : PlannedNode} {step : PlannedStep}
  {input shape : Shape} {c d : Chain} {s s' : LayerStep} {n : GraphNode} {output name : String}
  {q : Placeholder} {t u extent : Term} {σ : Substitution} {errors : List Diagnostic} {done j : Nat}

/-- A name is replaced for good: it is replaced, and by nothing that mentions it. -/
structure Substitution.Eliminates (σ : Substitution) (name : String) : Prop where
  /-- The name is replaced. -/
  replaced : (σ name).isSome
  /-- Nothing mentions the name. -/
  fresh : ∀ other r, σ other = some (.ok r) → name ∉ r.symbols

/-- A name that is replaced for good does not occur in a term afterwards. -/
theorem Substitution.Eliminates.not_mem (hσ : σ.Eliminates name) (h : t.substitute σ = .ok u) :
    name ∉ u.symbols := by
  intro hname
  rcases Term.mem_symbols_substitute h hname with ⟨_, hnone⟩ | ⟨other, _, r, hr, hname⟩
  · have hsome := hσ.replaced
    rw [hnone] at hsome
    cases hsome
  · exact hσ.fresh other r hr hname

/-- A name that is replaced for good does not occur in a shape afterwards. -/
theorem Substitution.Eliminates.not_mem_shape {a b : Shape} (hσ : σ.Eliminates name)
    (h : a.substitute σ = .ok b) : name ∉ b.symbols := by
  intro hname
  obtain ⟨u, hu, hname⟩ := Shape.mem_symbols.mp hname
  obtain ⟨t, _, htu⟩ := exists_of_mem_right (Shape.substitute_eq_ok_iff.mp h) hu
  exact hσ.not_mem htu hname

/-- A name that is replaced for good does not occur in a step afterwards. -/
theorem Substitution.Eliminates.avoids (hσ : σ.Eliminates name) (h : s.substitute σ = .ok s') :
    s'.Avoids name := by
  obtain ⟨_, hparams, hinput, houtput⟩ := LayerStep.substitute_eq_ok_iff.mp h
  refine ⟨fun key u hu => ?_, hσ.not_mem_shape hinput, hσ.not_mem_shape houtput⟩
  rcases Parameters.get?_substitute hparams key with
    ⟨_, hnone⟩ | ⟨v, _, hplain, hv⟩ | ⟨t, w, _, htw, hw⟩
  · cases hnone.symm.trans hu
  · exact absurd (Option.some.inj (hv.symm.trans hu)) (hplain u)
  · cases Option.some.inj (hw.symm.trans hu)
    exact hσ.not_mem htw

/-- Binding a shape that begins with a placeholder replaces the placeholder by the first declared
extent, for good. -/
theorem Shape.eliminates_binding (hhead : shape.axes.head? = some (.hole q))
    {declared : Shape} (hrank : shape.rank = declared.rank) (hmarked : Marked q.name)
    (hdeclared : declared.Authored) :
    ∃ extent, declared.axes.head? = some extent ∧
      shape.binding declared q.name = some (.ok extent) ∧
      (shape.binding declared).Eliminates q.name := by
  obtain ⟨rest, hrest⟩ := List.head?_eq_some_iff.mp hhead
  obtain ⟨extent, others, hothers⟩ : ∃ extent others, declared.axes = extent :: others := by
    have hlength : declared.axes.length = rest.length + 1 := by
      have hsame : shape.axes.length = declared.axes.length := hrank
      rw [hrest] at hsame
      exact hsame.symm
    exact List.exists_cons_of_length_eq_add_one hlength
  have hbound : shape.binding declared q.name = some (.ok extent) := by
    rw [binding, if_pos hrank, hrest, hothers, List.zip_cons_cons, List.findSome?_cons]
    simp [boundAxis]
  refine ⟨extent, by rw [hothers]; rfl, hbound, by rw [hbound]; rfl, fun other r hr hname => ?_⟩
  obtain ⟨_, x, hx, heq⟩ := mem_of_binding hr
  obtain rfl := Except.ok.inj heq
  exact (hdeclared r hx).not_marked hname hmarked

/-- A step keeps the values in the plan when placeholders are replaced. -/
theorem PlannedStep.KeptBy.substitute (h : step.KeptBy s)
    (hauthored : ∀ name t, step.params.term? name .absent = some t → t.Authored)
    (hmarked : ∀ name, (σ name).isSome → Marked name) (hs : s.substitute σ = .ok s') :
    step.KeptBy s' := by
  obtain ⟨_, hparams, hinput, _⟩ := LayerStep.substitute_eq_ok_iff.mp hs
  have hrank : s'.input.rank = s.input.rank :=
    (Shape.substitute_eq_ok_iff.mp hinput).length_eq.symm
  intro name v hv
  have hkept := h name v hv
  rw [hrank]
  generalize hrecorded : step.layerType.rule.recorded s.input.rank name v = w at hkept
  cases w with
  | dim t =>
    have hsame : v = .dim t := by
      unfold Rule.recorded at hrecorded
      split at hrecorded
      · split at hrecorded
        · cases hrecorded
        · exact hrecorded
      · exact hrecorded
    have hterm : t.Authored :=
      hauthored name t (Parameters.term?_eq_some_iff_given?.mpr ⟨v, hv, hsame ▸ rfl⟩)
    obtain ⟨u, hu, hget⟩ := Parameters.get?_substitute_of_dim hparams hkept
    obtain rfl := Except.ok.inj ((hterm.substitute_eq_self hmarked).symm.trans hu)
    exact hget
  | _ => exact Parameters.get?_substitute_of_plain hparams hkept (by simp)

/-- The chain of a node whose steps keep the values in the plan and, once a step has been applied,
hand its placeholder on in the first extent. -/
structure Chain.Hands (planned : PlannedNode) (j : Nat) (output : String) (q : Placeholder)
    (c : Chain) : Prop where
  /-- Every step keeps the values in the plan. -/
  kept : ∀ (k : Nat) (step : PlannedStep) (s : LayerStep), planned.steps[k]? = some step →
    c.steps[k]? = some s → step.KeptBy s
  /-- The shape occurs in inference. -/
  flowing : c.shape.Flowing
  /-- The placeholder is recorded and stands in the first extent. -/
  placeholder : j < c.steps.length → c.shape.axes.head? = some (.hole q) ∧
    ∃ s, c.steps[j]? = some s ∧ s.params.get? output = some (.dim (.hole q))

/-- A further step is applied to a chain. -/
theorem Chain.Hands.apply (hc : c.Hands planned j output q)
    (hplanned : planned.Written) (hstep : planned.steps[c.steps.length]? = some step)
    (happly : applyStep settings planned.index c.steps.length step c.shape = .ok s)
    (hmints : j = c.steps.length → step.layerType.rule.family.outputParameter? = some output ∧
      step.params.given? output = none ∧
      q = mintPlaceholder step.layerType planned.index j output)
    (hhands : j < c.steps.length →
      step.layerType.rule.family ∈ [.pointwise, .pooling, .softmax]) :
    Chain.Hands planned j output q ⟨c.steps ++ [s], s.output⟩ := by
  obtain ⟨_, _, hflowing⟩ :=
    valid_of_applyStep happly (hplanned.steps step (List.mem_of_getElem? hstep)) hc.flowing
  obtain ⟨outcome, houtcome, h⟩ := bind_eq_ok_iff.mp happly
  obtain rfl := pure_eq_ok_iff.mp h
  refine ⟨fun k other s hother hs => ?_, hflowing, fun hlt => ?_⟩
  · rcases Nat.lt_trichotomy k c.steps.length with hlt | rfl | hgt
    · rw [List.getElem?_append_left hlt] at hs
      exact hc.kept k other s hother hs
    · obtain rfl := Option.some.inj (hstep.symm.trans hother)
      rw [List.getElem?_concat_length] at hs
      obtain rfl := Option.some.inj hs
      exact fun name v hv => Rule.get?_merged_of_apply houtcome hv
    · rw [List.getElem?_eq_none (by simpa using hgt)] at hs
      cases hs
  · rw [List.length_append, List.length_singleton] at hlt
    rcases Nat.lt_or_ge j c.steps.length with hbefore | hnow
    · obtain ⟨hhead, s, hs, hparam⟩ := hc.placeholder hbefore
      refine ⟨Rule.head?_of_apply houtcome (hhands hbefore) hhead, s, ?_, hparam⟩
      rw [List.getElem?_append_left hbefore, hs]
    · obtain rfl : j = c.steps.length := by omega
      obtain ⟨houtput, hmissing, rfl⟩ := hmints rfl
      obtain ⟨hhead, hparam⟩ := Rule.placeholder_of_apply houtcome houtput hmissing
      exact ⟨hhead, _, List.getElem?_concat_length, hparam⟩

/-- The moves of a node without inner declared shapes hand the placeholder of a step on, if the later
steps keep the first extent. -/
theorem hands_of_perform (hplanned : planned.Written) (hplain : planned.checkpoints = [])
    (hinput : input.Flowing) (hstep : planned.steps[j]? = some step)
    (houtput : step.layerType.rule.family.outputParameter? = some output)
    (hmissing : step.params.given? output = none)
    (hlater : ∀ (k : Nat) later, j < k → planned.steps[k]? = some later →
      later.layerType.rule.family ∈ [.pointwise, .pooling, .softmax])
    (hdone : done ≤ planned.steps.length)
    (h : (perform settings planned (planned.movesTo done) ⟨[], input⟩).outcome = .ok c) :
    c.Hands planned j output (mintPlaceholder step.layerType planned.index j output) := by
  have hchecks (done : Nat) : planned.checksAt done = [] := by
    rw [PlannedNode.checksAt, hplain]
    rfl
  induction done generalizing c with
  | zero =>
    rw [PlannedNode.movesTo, hchecks] at h
    obtain rfl := Except.ok.inj h
    exact ⟨by simp, hinput, by simp⟩
  | succ done ih =>
    have hnext : planned.steps[done]? = some planned.steps[done] := List.getElem?_eq_getElem hdone
    rw [PlannedNode.movesTo, hchecks, hnext, perform_append] at h
    obtain ⟨d, hbefore, hrest⟩ := Reporting.outcome_bind_eq_ok_iff.mp h
    obtain ⟨s, happly, hpure⟩ := Reporting.outcome_bind_eq_ok_iff.mp hrest
    obtain rfl := Except.ok.inj hpure
    obtain ⟨rfl, _⟩ := layerTypes_of_movesTo (Nat.le_of_succ_le hdone) hbefore
    refine (ih (Nat.le_of_succ_le hdone) hbefore).apply hplanned hnext happly (fun hj => ?_)
      fun hlt => hlater _ _ hlt hnext
    rw [hj] at hstep
    obtain rfl := Option.some.inj (hnext.symm.trans hstep)
    exact ⟨houtput, hmissing, rfl⟩

/-- A node that declares a shape takes the output size of its last convolution or dense step from
it, if nobody has set the size. -/
theorem sized_of_inferNode (hplanned : planned.Written) (hplain : planned.checkpoints = [])
    (hdeclared : planned.declared = some shape) (hinput : n.input.Flowing)
    (h : (inferNode settings planned n.input).Yields errors (some n))
    (hcomplete : n.steps.length = planned.steps.length) (hrank : n.inferred.rank = shape.rank)
    (hstep : planned.steps[j]? = some step)
    (houtput : step.layerType.rule.family.outputParameter? = some output)
    (hmissing : step.params.given? output = none)
    (hlater : ∀ (k : Nat) later, j < k → planned.steps[k]? = some later →
      later.layerType.rule.family ∈ [.pointwise, .pooling, .softmax]) :
    planned.Sized n j output (mintPlaceholder step.layerType planned.index j output) shape := by
  obtain ⟨report, hreport, rfl⟩ := Reporting.yields_iff.mp h
  obtain ⟨c, first, second, hperform, hconclude, rfl⟩ :=
    completed_of_inferNode (hplain ▸ List.Pairwise.nil) hreport hcomplete
  have houtcome := congrArg Reporting.outcome hperform
  have hhands : c.Hands planned j output _ :=
    hands_of_perform hplanned hplain hinput hstep houtput hmissing hlater le_rfl houtcome
  obtain ⟨hlength, _⟩ := layerTypes_of_movesTo le_rfl houtcome
  have hlt := (List.getElem?_eq_some_iff.mp hstep).1
  obtain ⟨hhead, s, hs, hparam⟩ := hhands.placeholder (by omega)
  rw [PlannedNode.conclude, hdeclared] at hconclude
  obtain ⟨d, hreconcile, hn⟩ := Reporting.bind_pure_eq_ok_iff.mp hconclude
  have hsame : n.steps = d.steps ∧ n.inferred = d.shape := by
    rw [hn]
    exact ⟨rfl, rfl⟩
  rw [hsame.2] at hrank
  have hsubstitute := (reconcile_yields_iff.mp (Reporting.yields_of_eq hreconcile)).1
  obtain ⟨hshape, hsteps⟩ := Chain.substitute_eq_ok_iff.mp hsubstitute
  have hranks : c.shape.rank = shape.rank :=
    (Shape.substitute_eq_ok_iff.mp hshape).length_eq.trans hrank
  have hauthored := hplanned.authored
  obtain ⟨extent, hextent, hbound, heliminates⟩ := Shape.eliminates_binding hhead hranks
    (marked_mintPlaceholder step.layerType planned.index j output) (hauthored.declared _ hdeclared)
  have hmarked := hhands.flowing.distinguished.marked_binding (b := shape)
  refine ⟨?_, fun s' hs' => ?_, hsame.2 ▸ heliminates.not_mem_shape hshape,
    fun k other s' hother hs' => ?_⟩
  · obtain ⟨hj, rfl⟩ := List.getElem?_eq_some_iff.mp hs
    have hj' : j < d.steps.length := hsteps.length_eq ▸ hj
    have hstepped := hsteps.get hj hj'
    obtain ⟨_, hparams, _, _⟩ := LayerStep.substitute_eq_ok_iff.mp hstepped
    obtain ⟨u, hu, hget⟩ := Parameters.get?_substitute_of_dim hparams hparam
    have hfound : Term.substitute (c.shape.binding shape)
        (.hole (mintPlaceholder step.layerType planned.index j output)) = .ok extent := by
      rw [Term.substitute, hbound]
      rfl
    obtain rfl := Except.ok.inj (hfound.symm.trans hu)
    refine ⟨_, extent, ?_, hextent, hget⟩
    rw [hsame.1]
    exact List.getElem?_eq_getElem hj'
  · obtain ⟨s, _, hss'⟩ := exists_of_mem_right hsteps (hsame.1 ▸ hs')
    exact heliminates.avoids hss'
  · obtain ⟨hk, rfl⟩ := List.getElem?_eq_some_iff.mp (hsame.1 ▸ hs')
    have hk' : k < c.steps.length := hsteps.length_eq ▸ hk
    have hkept := hhands.kept k other _ hother (List.getElem?_eq_getElem hk')
    exact hkept.substitute (hauthored.steps other (List.mem_of_getElem? hother)) hmarked
      (hsteps.get hk' hk)

end Shapeline
