import Shapeline.Proofs.Inference.Following
import Shapeline.Proofs.Replanning

/-!
# Inference reads parameters as mappings

Rules look parameters up by name, so the order in which the parameters of a step were set does not
matter to them, and neither does the order of the variables. Two plans whose steps have the same
parameters as mappings are run side by side: a run of the first that records no diagnostic is
matched by one of the second, and the two make the same nodes, up to the order of the parameters.
-/

namespace Shapeline

/-- Two steps are the same, with the same parameters as mappings. -/
structure LayerStep.Same (s s' : LayerStep) : Prop where
  /-- The layer type and the shapes are the same. -/
  rest : s' = { s with params := s'.params }
  /-- The parameters are the same mapping. -/
  params : s.params.Same s'.params

/-- Two nodes are the same, with the same parameters of their steps as mappings. -/
structure GraphNode.Same (n n' : GraphNode) : Prop where
  /-- The number, the shapes and the names are the same. -/
  rest : n' = { n with steps := n'.steps }
  /-- The steps are the same. -/
  steps : List.Forall₂ LayerStep.Same n.steps n'.steps

/-- Two chains are the same, with the same parameters of their steps as mappings. -/
abbrev Chain.Same (c c' : Chain) : Prop := c.Related Eq LayerStep.Same c'

/-- Two runs are governed in the same way, with the same values of the variables as mappings. -/
structure InferenceSettings.Same (settings settings' : InferenceSettings) : Prop where
  /-- Both trust declared shapes or neither does. -/
  trustDeclared : settings'.trustDeclared = settings.trustDeclared
  /-- The values are the same mapping. -/
  bindings : settings.bindings.Same settings'.bindings

variable {p p' q : Parameters} {σ : Substitution} {s s' t : LayerStep}
  {c c' d : Chain} {settings settings' : InferenceSettings} {planned planned' : PlannedNode}
  {node : Int} {declared shape : Shape} {layer : String} {step step' : PlannedStep}

/-- The terms of a dictionary make the same substitution in any order. -/
theorem Dictionary.Same.ofTerms_eq {terms terms' : Dictionary Term} (h : terms.Same terms') :
    Substitution.ofTerms terms' = Substitution.ofTerms terms := by
  funext name
  rw [Substitution.ofTerms, Substitution.ofTerms, h name]

/-- Parameters that are the same mapping have the same given values. -/
theorem Dictionary.Same.given?_eq (h : p.Same p') (name : String) :
    Parameters.given? p' name = Parameters.given? p name := by
  rw [Parameters.given?, Parameters.given?, h name]

/-- A rule does the same to parameters that are the same mapping. -/
theorem Rule.apply_eq_of_same (h : p.Same p') (rule : Rule) (mint : String → Placeholder) :
    rule.apply layer shape p' mint σ = rule.apply layer shape p mint σ := by
  have hgiven := h.given?_eq
  have hdimension (name : String) (default : Value) :
      Parameters.dimension p' name default = Parameters.dimension p name default :=
    Parameters.dimension_congr (h name)
  have hdownsample (spatial : List Term) (channels : Term) :
      downsample layer spatial p' channels σ = downsample layer spatial p channels σ := by
    simp only [downsample, checkStride, hdimension]
  unfold apply transform
  simp only [checkInput, resolveOutput, hgiven, hdownsample, h axisParameter]

/-- A step is applied to a shape in the same way if its parameters are the same mapping. -/
theorem same_of_applyStep {position : Nat} {applied : LayerStep}
    (hsettings : settings.Same settings') (hstep : step.Like Dictionary.Same step')
    (h : applyStep settings node position step shape = .ok applied) :
    ∃ applied', applyStep settings' node position step' shape = .ok applied' ∧
      applied.Same applied' := by
  obtain ⟨outcome, houtcome, h⟩ := bind_eq_ok_iff.mp h
  obtain rfl := pure_eq_ok_iff.mp h
  have hrule : step'.layerType.rule.apply step'.layerType.name shape step'.params
      (mintPlaceholder step'.layerType node position) (.ofTerms settings'.bindings) =
        .ok outcome := by
    rw [hstep.layerType, hsettings.bindings.ofTerms_eq, Rule.apply_eq_of_same hstep.params]
    exact houtcome
  refine ⟨_, bind_eq_ok_iff.mpr ⟨outcome, hrule, rfl⟩, ?_, hstep.params.insertAll _⟩
  rw [hstep.layerType]

/-- A substitution does the same to parameters that are the same mapping. -/
theorem LayerStep.Same.substitute (h : s.Same s') (hs : s.substitute σ = .ok t) :
    ∃ t', s'.substitute σ = .ok t' ∧ t.Same t' := by
  obtain ⟨hlayer, hparams, hinput, houtput⟩ := LayerStep.substitute_eq_ok_iff.mp hs
  obtain ⟨params, hparams', hsame⟩ := h.params.traverse hparams
  have hrest := h.rest
  generalize s'.params = given at hrest hparams'
  subst hrest
  refine ⟨⟨s.layerType, params, t.input, t.output⟩,
    LayerStep.substitute_eq_ok_iff.mpr ⟨rfl, hparams', hinput, houtput⟩, ?_, hsame⟩
  rw [← hlayer]

/-- A substitution does the same to chains that are the same. -/
theorem Chain.Related.substitute_same (h : c.Same c') (hc : c.substitute σ = .ok d) :
    ∃ d', c'.substitute σ = .ok d' ∧ d.Same d' := by
  obtain ⟨hshape, hsteps⟩ := Chain.substitute_eq_ok_iff.mp hc
  obtain ⟨steps, hsteps', hall⟩ :=
    exists_forall₂_image (fun _ _ _ hss hs => hss.substitute hs) h.steps hsteps
  exact ⟨⟨steps, d.shape⟩, Chain.substitute_eq_ok_iff.mpr ⟨h.shape ▸ hshape, hsteps'⟩, hall, rfl⟩

/-- Placeholders are bound in chains that are the same. -/
theorem followedBy_bindPlaceholders (hc : c.Same c') :
    (bindPlaceholders node c declared).FollowedBy Chain.Same
      (bindPlaceholders node c' declared) := by
  have hshape : c'.shape = c.shape := hc.shape.symm
  unfold bindPlaceholders
  dsimp only
  rw [hshape]
  split
  · exact .of_pure hc
  · exact .of_bind (.of_record fun _ => rfl) fun _ _ _ =>
      .of_outcome fun d hd => hc.substitute_same hd

/-- Steps and comparisons with declared shapes do the same to parameters that are the same mapping. -/
theorem InferenceSettings.Same.follows (h : settings.Same settings') :
    Follows settings settings' (PlannedStep.Like Dictionary.Same) Eq LayerStep.Same where
  apply node position step step' s s' applied hstep hs happly := by
    obtain rfl := hs
    obtain ⟨applied', happly', hsame⟩ := same_of_applyStep h hstep happly
    have houtput : applied'.output = applied.output := by rw [hsame.rest]
    exact ⟨applied', happly', hsame, houtput.symm⟩
  reconcile node c c' declared declared' what what' hc hdeclared := by
    obtain rfl := hdeclared
    refine followedBy_reconcile_of_parts h.trustDeclared (followedBy_bindPlaceholders hc) ?_
    intro d d' hd found hfound
    rw [h.bindings.ofTerms_eq, ← hd.shape]
    exact hfound

/-- Planned nodes that are the same up to their parameters correspond to each other. -/
theorem PlannedNode.Like.corresponds (h : planned.Like Dictionary.Same planned') :
    planned.Corresponds Eq (PlannedStep.Like Dictionary.Same) Eq planned' := by
  have hsteps := h.steps
  have hrest := h.same
  generalize planned'.steps = steps' at hrest hsteps
  subst hrest
  exact ⟨rfl, hsteps, declared_correspond _, rfl, rfl, checkpoints_correspond _⟩

/-- Nodes that correspond to each other are the same. -/
theorem GraphNode.Corresponds.same {n n' : GraphNode}
    (h : n.Corresponds Eq Eq LayerStep.Same n') : n.Same n' := by
  have hrest := h.rest
  rw [← h.label, ← h.submodel] at hrest
  exact ⟨hrest, h.steps⟩

/-- Inference makes the same nodes of plans that are the same, with the same parameters as
mappings. -/
theorem followedBy_infer (hsettings : settings.Same settings') {plan plan' : List PlannedNode}
    (hplan : List.Forall₂ (PlannedNode.Like Dictionary.Same) plan plan') :
    (infer settings plan).FollowedBy
      (fun r r' => List.Forall₂ GraphNode.Same r.1 r'.1 ∧ r'.2 = r.2) (infer settings' plan') := by
  intro r hr
  obtain ⟨r', hr', hcomplete, hnodes⟩ :=
    hsettings.follows.infer rfl (hplan.imp fun _ _ h => h.corresponds) r hr
  exact ⟨r', hr', hnodes.imp fun _ _ h => h.same, hcomplete⟩

end Shapeline
