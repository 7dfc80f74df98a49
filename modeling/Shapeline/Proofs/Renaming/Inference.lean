import Shapeline.Proofs.Inference.Following
import Shapeline.Proofs.Inference.Invariants
import Shapeline.Proofs.Renaming.Rule

/-!
# Inference on renamed plans

A renaming that leaves the names of placeholders alone takes every step of inference to a step on
the renamed chain: rules yield the renamed outcomes, placeholders are bound to the renamed extents,
and shapes differ at the same axes. So a run that records no diagnostic is matched by one of the
renamed plan, which makes the renamed nodes.
-/

namespace Shapeline

/-- A step with all symbols renamed. -/
def LayerStep.rename (f : String → String) (s : LayerStep) : LayerStep :=
  { s with params := s.params.rename f, input := s.input.rename f, output := s.output.rename f }

/-- A chain with all symbols renamed. -/
def Chain.rename (f : String → String) (c : Chain) : Chain :=
  ⟨c.steps.map (LayerStep.rename f), c.shape.rename f⟩

/-- A node with all symbols renamed. -/
def GraphNode.rename (f : String → String) (n : GraphNode) : GraphNode :=
  { n with
    steps := n.steps.map (LayerStep.rename f)
    input := n.input.rename f
    inferred := n.inferred.rename f
    output := n.output.rename f
    declared := n.declared.map (Shape.rename f) }

/-- A planned step with the symbols of its parameters renamed. -/
def PlannedStep.rename (f : String → String) (step : PlannedStep) : PlannedStep :=
  { step with params := step.params.rename f }

/-- A shape declared inside an inline model, with its symbols renamed. -/
def Checkpoint.rename (f : String → String) (checkpoint : Checkpoint) : Checkpoint :=
  { checkpoint with shape := checkpoint.shape.rename f }

/-- A planned node with all symbols renamed. -/
def PlannedNode.rename (f : String → String) (planned : PlannedNode) : PlannedNode :=
  { planned with
    steps := planned.steps.map (PlannedStep.rename f)
    declared := planned.declared.map (Shape.rename f)
    checkpoints := planned.checkpoints.map (Checkpoint.rename f) }

/-- The values of the variables under their new names. -/
def InferenceSettings.rename (π : Equiv.Perm String) (settings : InferenceSettings) :
    InferenceSettings :=
  { settings with bindings := settings.bindings.rename π (Term.rename π) }

variable (π : Equiv.Perm String) {σ : Substitution} {s : LayerStep} {c c' d : Chain}
  {declared shape : Shape} {settings : InferenceSettings} {node : Int} {position : Nat}
  {step : PlannedStep} {planned : PlannedNode} {plan : List PlannedNode} {n n' : GraphNode}
  {nodes : List GraphNode} {complete : Bool}

/-- The renamed substitution takes a renamed step to the renamed result. -/
theorem LayerStep.mirrors_substitute :
    Mirrors (rename π) (s.substitute σ) ((s.rename π).substitute (σ.rename π)) := by
  refine (Parameters.mirrors_substitute π).of_bind fun params => ?_
  refine (Shape.mirrors_substitute π).of_bind fun input => ?_
  exact (Shape.mirrors_substitute π).of_bind fun output =>
    .of_pure (LayerStep.mk s.layerType params input output)

/-- The renamed substitution takes a renamed chain to the renamed result. -/
theorem Chain.mirrors_substitute :
    Mirrors (rename π) (c.substitute σ) ((c.rename π).substitute (σ.rename π)) := by
  refine (Shape.mirrors_substitute π).of_bind fun shape => ?_
  exact (Mirrors.of_mapM (fun _ => LayerStep.mirrors_substitute π) c.steps).of_bind fun steps =>
    .of_pure (Chain.mk steps shape)

/-- A chain with renamed steps and a renamed shape is the renamed chain. -/
theorem Chain.related_rename_iff {f : String → String} :
    Chain.Related (fun s s' => s' = s.rename f) (fun s s' => s' = s.rename f) c c' ↔
      c' = c.rename f := by
  obtain ⟨steps', shape'⟩ := c'
  constructor
  · rintro ⟨hsteps, hshape⟩
    rw [Chain.rename, Chain.mk.injEq]
    exact ⟨forall₂_image_iff.mp hsteps, hshape⟩
  · intro h
    rw [Chain.rename, Chain.mk.injEq] at h
    exact ⟨forall₂_image_iff.mpr h.1, h.2⟩

/-- Renamed shapes differ in the same way. -/
theorem mirrors_discrepancy :
    Mirrors id (discrepancy σ shape declared)
      (discrepancy (σ.rename π) (shape.rename π) (declared.rename π)) := by
  unfold discrepancy
  rw [Shape.rank_rename, Shape.rank_rename]
  exact .of_ite ((Shape.mirrors_mismatches π).of_bind fun _ => .refl _) (.refl _)

/-- The renaming leaves the names of placeholders alone. -/
def FixesMarked (f : String → String) : Prop := ∀ name, Marked name → f name = name

/-- A placeholder that is minted keeps its name. -/
theorem FixesMarked.mintPlaceholder {f : String → String} (hf : FixesMarked f) (layer : LayerType)
    (node : Int) (step : Nat) (parameter : String) :
    (mintPlaceholder layer node step parameter).rename f =
      Shapeline.mintPlaceholder layer node step parameter :=
  congrArg (fun name => { Shapeline.mintPlaceholder layer node step parameter with name })
    (hf _ (marked_mintPlaceholder layer node step parameter))

variable {π}

/-- A renamed step applied to a renamed shape is the renamed step. -/
theorem mirrors_applyStep (hπ : FixesMarked π) :
    Mirrors (LayerStep.rename π) (applyStep settings node position step shape)
      (applyStep (settings.rename π) node position (step.rename π) (shape.rename π)) := by
  have hbindings : Substitution.ofTerms (settings.rename π).bindings =
      (Substitution.ofTerms settings.bindings).rename π := Substitution.ofTerms_rename π _
  unfold applyStep
  dsimp only
  rw [hbindings]
  refine (Rule.mirrors_apply π (hπ.mintPlaceholder _ _ _)).of_bind fun outcome => ?_
  have himage : (LayerStep.mk (some step.layerType) (step.params.merged outcome.derived) shape
      outcome.shape).rename π = ⟨some step.layerType,
        Parameters.merged (step.params.rename π) (outcome.derived.rename π), shape.rename π,
        outcome.shape.rename π⟩ := by
    rw [← Parameters.merged_rename]
    rfl
  exact himage ▸ .of_pure _

/-- Steps and comparisons with declared shapes take renamed chains to the renamed results. -/
theorem follows_rename (hπ : FixesMarked π) :
    Follows settings (settings.rename π) (fun step step' => step' = step.rename π)
      (fun s s' => s' = s.rename π) (fun s s' => s' = s.rename π) where
  apply node position step step' s s' applied hstep hs happly := by
    obtain rfl := hstep
    obtain rfl := hs
    exact ⟨_, (mirrors_applyStep hπ).ok happly, rfl, rfl⟩
  reconcile node c c' declared declared' what what' hc hdeclared := by
    obtain rfl := hdeclared
    obtain rfl := Chain.related_rename_iff.mp hc
    refine followedBy_reconcile_of_parts rfl (fun d hd => ?_) fun d d' hd found hfound => ?_
    · obtain ⟨-, hd⟩ := bindPlaceholders_yields_iff.mp hd
      refine ⟨d.rename π, bindPlaceholders_yields_iff.mpr ⟨rfl, ?_⟩,
        Chain.related_rename_iff.mpr rfl⟩
      rw [Shape.binding_eq] at hd ⊢
      have hshape : (c.rename π).shape = c.shape.rename π := rfl
      rw [hshape, Shape.unify_rename, Substitution.ofTerms_rename]
      exact (Chain.mirrors_substitute π).ok hd
    · obtain rfl := Chain.related_rename_iff.mp hd
      have hbindings : Substitution.ofTerms (settings.rename π).bindings =
          (Substitution.ofTerms settings.bindings).rename π := Substitution.ofTerms_rename π _
      rw [hbindings]
      exact (mirrors_discrepancy π).ok hfound

/-- Renamed shapes that are declared or not are related to the shapes. -/
theorem rel_map_rename {f : String → String} (declared : Option Shape) :
    Option.Rel (fun s s' => s' = s.rename f) declared (declared.map (Shape.rename f)) := by
  cases declared with
  | none => exact .none
  | some shape => exact .some rfl

/-- A renamed planned node corresponds to the node. -/
theorem PlannedNode.corresponds_rename {f : String → String} :
    planned.Corresponds Eq (fun step step' => step' = step.rename f)
      (fun s s' => s' = s.rename f) (planned.rename f) :=
  ⟨rfl, forall₂_image_iff.mpr rfl, rel_map_rename _, rfl, rfl,
    List.forall₂_map_right_iff.mpr (List.forall₂_same.mpr fun _ _ => ⟨rfl, rfl⟩)⟩

/-- A node that corresponds to another one after renaming is the renamed node. -/
theorem GraphNode.Corresponds.eq_rename {f : String → String}
    (h : n.Corresponds Eq (fun s s' => s' = s.rename f) (fun s s' => s' = s.rename f) n') :
    n' = n.rename f := by
  have hdeclared : n'.declared = n.declared.map (Shape.rename f) := by
    have hrel := h.declared
    generalize n.declared = shape at hrel ⊢
    generalize n'.declared = shape' at hrel ⊢
    cases hrel with
    | none => rfl
    | some heq => rw [heq, Option.map_some]
  obtain ⟨index, steps, input, inferred, output, declared, label, submodel⟩ := n'
  rw [GraphNode.rename, GraphNode.mk.injEq]
  exact ⟨h.index, forall₂_image_iff.mp h.steps, h.input, h.inferred, h.output, hdeclared,
    h.label.symm, h.submodel.symm⟩

/-- Inference makes the renamed nodes of a renamed plan. -/
theorem infer_rename (hπ : FixesMarked π)
    (hrun : (infer settings plan).Yields [] (nodes, complete)) :
    (infer (settings.rename π) (plan.map (PlannedNode.rename π))).Yields []
      (nodes.map (GraphNode.rename π), complete) := by
  have hplan : List.Forall₂ (PlannedNode.Corresponds Eq (fun step step' => step' = step.rename π)
      (fun s s' => s' = s.rename π)) plan (plan.map (PlannedNode.rename π)) :=
    List.forall₂_map_right_iff.mpr
      (List.forall₂_same.mpr fun _ _ => PlannedNode.corresponds_rename)
  obtain ⟨⟨nodes', complete'⟩, hrun', hcomplete, hnodes⟩ :=
    (follows_rename hπ).infer rfl hplan _ hrun
  obtain rfl : complete' = complete := hcomplete
  have himage : nodes' = nodes.map (GraphNode.rename π) :=
    forall₂_image_iff.mp (hnodes.imp fun _ _ hn => hn.eq_rename)
  exact himage ▸ hrun'

end Shapeline
