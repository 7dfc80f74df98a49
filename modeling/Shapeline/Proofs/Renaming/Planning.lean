import Shapeline.Proofs.Planned
import Shapeline.Proofs.Renaming.Inference
import Shapeline.Proofs.Renaming.Resolution

/-!
# Plans of renamed models

A plan holds the layer types of a model with its parameters and the shapes that its nodes declare,
so the plan of a model with its symbols renamed is the renamed plan. The values of the variables are
renamed with them, and the symbols that the input introduces are the new names, although they may
come in another order.
-/

namespace Shapeline

variable {f : String → String} {model model' : ResolvedModel} {node : Int} {call : CallSpec}
  {calls : List CallSpec} {lines : List LineSpec} {n : NodeSpec} {step : PlannedStep}
  {steps : List PlannedStep} {checkpoints : List Checkpoint} {done : Nat} {planned : PlannedNode}
  {plan : List PlannedNode} {name : String}

/-- A model has the same layer types as another one, with renamed parameters. -/
def ResolvedModel.RenamesLayers (f : String → String) (model model' : ResolvedModel) : Prop :=
  ∀ name, model.MatchesAt (fun p p' => p' = Parameters.rename f p) model' name

namespace ResolvedModel.RenamesLayers

variable (h : model.RenamesLayers f model')

include h

/-- A renamed use of a layer makes the renamed step. -/
theorem makes (hmakes : call.Makes model step) : (call.rename f).Makes model' (step.rename f) := by
  obtain ⟨layer, base, entries, hlayer, hbase, haccepts, rfl⟩ := hmakes
  obtain ⟨_, hbase', rfl⟩ := (h call.name).params layer base hlayer hbase
  refine ⟨layer, _, _, (h call.name).layerType.trans hlayer, hbase', haccepts.rename, ?_⟩
  rw [← Parameters.insertAll_rename]
  rfl

/-- Renamed uses of layers are planned to the renamed steps. -/
theorem planCalls (hplan : Shapeline.planCalls model node calls = .ok (steps, [])) :
    Shapeline.planCalls model' node (calls.map (CallSpec.rename f)) =
      .ok (steps.map (PlannedStep.rename f), []) := by
  induction calls generalizing steps with
  | nil =>
    obtain rfl := planCalls_nil_eq_nil_iff.mp hplan
    rfl
  | cons call rest ih =>
    obtain ⟨first, others, hfirst, hothers, rfl⟩ := planCalls_cons_eq_nil_iff.mp hplan
    obtain ⟨step, hmakes, rfl⟩ := planCall_eq_nil_iff.mp hfirst
    have hcall : planCall model' node (call.rename f) =
        .ok (List.replicate call.repetitions (step.rename f), []) :=
      planCall_eq_nil_iff.mpr ⟨_, h.makes hmakes, rfl⟩
    refine planCalls_cons_eq_nil_iff.mpr ⟨_, _, hcall, ih hothers, ?_⟩
    rw [List.map_append, List.map_replicate]

/-- Renamed nodes of an inline model are planned to the renamed steps and checkpoints. -/
theorem planLines
    (hplan : Shapeline.planLines model node done lines = .ok (steps, checkpoints, [])) :
    Shapeline.planLines model' node done (lines.map (LineSpec.rename f)) =
      .ok (steps.map (PlannedStep.rename f), checkpoints.map (Checkpoint.rename f), []) := by
  induction lines generalizing done steps checkpoints with
  | nil =>
    obtain ⟨rfl, hpair⟩ := Prod.mk.inj (pure_eq_ok_iff.mp hplan)
    obtain ⟨rfl, -⟩ := Prod.mk.inj hpair
    rfl
  | cons line rest ih =>
    obtain ⟨first, others, later, hfirst, hothers, rfl, rfl⟩ :=
      planLines_cons_eq_nil_iff.mp hplan
    have hrest := ih hothers
    rw [← List.length_map (PlannedStep.rename f)] at hrest
    refine planLines_cons_eq_nil_iff.mpr
      ⟨_, _, _, h.planCalls hfirst, hrest, List.map_append, ?_⟩
    rw [List.map_append, LineSpec.rename]
    cases line.declared with
    | none => rfl
    | some shape => simp [Checkpoint.rename]

/-- A renamed node is planned to the renamed node. -/
theorem planNode (hplan : Shapeline.planNode model n = .ok (planned, [])) :
    Shapeline.planNode model' (n.rename f) = .ok (planned.rename f, []) := by
  cases hinline : n.inline with
  | none =>
    obtain ⟨steps, hsteps, rfl⟩ := (planNode_plain_iff hinline).mp hplan
    have hnone : (n.rename f).inline = none := by rw [NodeSpec.rename, hinline, Option.map_none]
    exact (planNode_plain_iff hnone).mpr ⟨_, h.planCalls hsteps, rfl⟩
  | some inline =>
    obtain ⟨hindices, steps, checkpoints, hlines, rfl⟩ := (planNode_inline_iff hinline).mp hplan
    have hsome : (n.rename f).inline = some (inline.rename f) := by
      rw [NodeSpec.rename, hinline, Option.map_some]
    refine (planNode_inline_iff hsome).mpr ⟨?_, _, _, h.planLines hlines, rfl⟩
    rw [InlineSpec.rename, List.map_map]
    exact hindices

/-- A renamed model has the renamed plan. -/
theorem planModel (hdefinition : model.definition.Renames f model'.definition)
    (hplan : Shapeline.planModel model = .ok plan) :
    Shapeline.planModel model' = .ok (plan.map (PlannedNode.rename f)) := by
  have hnodes : model'.definition.nodes = model.definition.nodes.map (NodeSpec.rename f) := by
    rw [hdefinition.rest]
  obtain ⟨hindices, ⟨first, hfirst, hdeclared⟩, hall⟩ := planModel_eq_ok_iff.mp hplan
  rw [planModel_eq_ok_iff, hnodes]
  refine ⟨?_, ⟨first.rename f, ?_, ?_⟩, ?_⟩
  · rw [List.map_map]
    exact hindices
  · rw [List.head?_map]
    exact Option.mem_map_of_mem _ hfirst
  · exact (Option.isSome_map ..).trans hdeclared
  · rw [List.forall₂_map_left_iff, List.forall₂_map_right_iff]
    exact hall.imp fun _ _ hn => h.planNode hn

end ResolvedModel.RenamesLayers

/-- The symbols of the input are those of the declared shape that are no variables. -/
theorem mem_inputSymbols : name ∈ inputSymbols model ↔
    (∃ shape, model.definition.inputShape = some shape ∧ name ∈ shape.symbols) ∧
      name ∉ model.hyperparameters.keys := by
  unfold inputSymbols
  cases model.definition.inputShape with
  | none => simp
  | some shape =>
    have hadded {names : List String} : name ∈ names.foldl appendNew [] ↔ name ∈ names :=
      ⟨fun hname => (mem_of_mem_foldl_appendNew hname).resolve_left (List.not_mem_nil),
        fun hname => mem_foldl_appendNew (Or.inr hname)⟩
    simp only [hadded, List.mem_flatMap, List.mem_filter, Shape.mem_symbols]
    simp [Dictionary.contains]
    tauto

/-- The variables of a model have the new names and the renamed values of those of another one. -/
def ResolvedModel.RenamesVariables (f : String → String) (model model' : ResolvedModel) : Prop :=
  List.Forall₂ (fun e e' : String × Hyperparameter => e'.1 = f e.1 ∧ e.2.Renames f e'.2)
    model.hyperparameters.entries model'.hyperparameters.entries

namespace ResolvedModel.RenamesVariables

variable {π : Equiv.Perm String}

/-- The symbols of the variables are the new names. -/
theorem keys (h : model.RenamesVariables f model') :
    model'.hyperparameters.keys = model.hyperparameters.keys.map f := by
  unfold Dictionary.keys
  rw [List.map_map]
  exact (map_eq_map_of_forall₂ (h.imp fun _ _ he => he.1.symm)).symm

/-- The variables of the graph are the renamed ones. -/
theorem values (h : model.RenamesVariables f model') :
    List.Forall₂ (Hyperparameter.Renames f) model.hyperparameters.values
      model'.hyperparameters.values :=
  List.forall₂_map_left_iff.mpr (List.forall₂_map_right_iff.mpr (h.imp fun _ _ he => he.2))

/-- The values of the variables are renamed with the variables. -/
theorem hyperparameterValues (h : model.RenamesVariables π model') :
    model'.hyperparameterValues = model.hyperparameterValues.rename π (Value.rename π) := by
  have hbound {x x' : Hyperparameter} (hx : x.Renames π x') : x'.isBound = x.isBound := by
    rw [Hyperparameter.isBound, Hyperparameter.isBound, hx.value]
    cases x.value <;> rfl
  refine Dictionary.eq_of_entries_eq ?_
  change (Dictionary.filterMap _ _).entries = (Dictionary.filterMap _ _).entries.map _
  rw [Dictionary.entries_filterMap, Dictionary.entries_filterMap]
  unfold RenamesVariables at h
  generalize model.hyperparameters.entries = entries at h ⊢
  generalize model'.hyperparameters.entries = entries' at h ⊢
  induction h with
  | nil => rfl
  | @cons e e' _ _ he _ ih =>
    obtain ⟨key, x⟩ := e
    obtain ⟨key', x'⟩ := e'
    obtain ⟨rfl, hrenames⟩ : key' = π key ∧ x.Renames π x' := he
    rw [List.filterMap_cons, List.filterMap_cons]
    dsimp only
    rw [hbound hrenames, hrenames.value]
    cases x.isBound with
    | false => exact ih
    | true => exact congrArg (List.cons _) ih

/-- The input introduces the new names of the symbols. -/
theorem mem_inputSymbols_iff (h : model.RenamesVariables π model')
    (hdefinition : model.definition.Renames π model'.definition) :
    name ∈ inputSymbols model' ↔ ∃ old ∈ inputSymbols model, π old = name := by
  have hshape : model'.definition.inputShape =
      model.definition.inputShape.map (Shape.rename π) := by
    refine Definition.inputShape_eq_map ?_
    rw [hdefinition.rest]
    exact List.forall₂_map_right_iff.mpr (List.forall₂_same.mpr fun _ _ => ⟨rfl, rfl⟩)
  obtain ⟨old, rfl⟩ := π.surjective name
  have hold {P : String → Prop} : (∃ other, P other ∧ π other = π old) ↔ P old :=
    ⟨fun ⟨_, hother, heq⟩ => π.injective heq ▸ hother, fun h => ⟨old, h, rfl⟩⟩
  simp only [hold, mem_inputSymbols, hshape, h.keys, List.mem_map, Option.map_eq_some_iff,
    exists_exists_and_eq_and, Shape.mem_symbols_rename]

end ResolvedModel.RenamesVariables

end Shapeline
