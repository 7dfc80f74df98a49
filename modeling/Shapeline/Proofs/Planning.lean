import Shapeline.Proofs.Resolution

/-!
# Plans

A plan takes its steps from the parameters of the layer types and the overrides, and its declared
shapes from the definition. The shapes that an inline model declares are listed in the order in
which they are due, each after a number of steps that the node has.
-/

namespace Shapeline

variable {model : ResolvedModel} {node : Int} {errors : List Diagnostic}
  {steps : List PlannedStep} {checkpoints : List Checkpoint} {planned : PlannedNode}
  {spec : NodeSpec} {plan : List PlannedNode} {done : Nat}
  {Q : LayerType → String → Value → Prop}

/-- The parameters of the layer types in scope have a property, which may depend on the layer
type. -/
def ResolvedModel.All (Q : LayerType → String → Value → Prop) (model : ResolvedModel) : Prop :=
  ∀ name layer p, model.layerTypes.get? name = some layer →
    model.typeParameters.get? name = some p → p.All (Q layer)

/-- The overrides of a use of a layer have a property as far as a layer type in scope accepts
them. -/
def CallSpec.All (Q : LayerType → String → Value → Prop) (model : ResolvedModel) (call : CallSpec) :
    Prop :=
  ∀ a ∈ call.overrides, ∀ name layer, model.layerTypes.get? name = some layer →
    ∀ spec ∈ layer.parameters, spec.Takes a.value → Q layer spec.name a.value

/-- A planned step applies a layer type in scope, and its parameters have a property. -/
structure PlannedStep.All (Q : LayerType → String → Value → Prop) (model : ResolvedModel)
    (s : PlannedStep) : Prop where
  /-- The layer type is in scope. -/
  layerType : ∃ name, model.layerTypes.get? name = some s.layerType
  /-- The parameters have the property. -/
  params : s.params.All (Q s.layerType)

/-- The uses of layer types in a node and in its inline model. -/
def NodeSpec.uses (n : NodeSpec) : List CallSpec := n.calls ++ n.inner.flatMap (·.calls)

/-- The layers that a node uses are those of its uses. -/
theorem NodeSpec.mem_layerNames {call : CallSpec} (h : call ∈ spec.uses) :
    call.name ∈ spec.layerNames := by
  rcases List.mem_append.mp h with h | h
  · exact List.mem_append_left _ (List.mem_map_of_mem h)
  · obtain ⟨line, hline, hcall⟩ := List.mem_flatMap.mp h
    exact List.mem_append_right _ (List.mem_flatMap.mpr ⟨line, hline, List.mem_map_of_mem hcall⟩)

/-- The uses of layers in a definition have what its overrides have. -/
theorem Definition.All.uses {V : Value → Prop} {T : Term → Prop} {definition : Definition}
    (h : definition.All V T) (hspec : spec ∈ definition.nodes) :
    ∀ call ∈ spec.uses, ∀ a ∈ call.overrides, V a.value := by
  obtain ⟨hline, hinner⟩ := h.nodes spec hspec
  intro call hcall
  rcases List.mem_append.mp hcall with hcall | hcall
  · exact hline.calls call hcall
  · obtain ⟨line, hmem, hcall⟩ := List.mem_flatMap.mp hcall
    exact (hinner line hmem).calls call hcall

/-- The steps of a use of a layer keep what its parameters and its overrides have in common. -/
theorem all_planCall {call : CallSpec} (hmodel : model.All Q) (hcall : call.All Q model)
    (h : planCall model node call = .ok (steps, errors)) : ∀ s ∈ steps, s.All Q model := by
  unfold planCall at h
  split at h
  · rename_i layer base hlayer hbase
    obtain ⟨merge, hmerge, h⟩ := bind_eq_ok_iff.mp h
    obtain ⟨rfl, _⟩ := Prod.mk.inj (pure_eq_ok_iff.mp h)
    intro s hs
    obtain rfl := List.eq_of_mem_replicate hs
    exact ⟨⟨_, hlayer⟩, all_mergeParameters (hmodel _ _ _ hlayer hbase)
      (fun a ha => hcall a ha _ _ hlayer) hmerge⟩
  · cases h

/-- The steps and problems of the first use of a layer come before those of the others. -/
theorem planCalls_cons_eq_ok_iff {call : CallSpec} {calls : List CallSpec} :
    planCalls model node (call :: calls) = .ok (steps, errors) ↔
      ∃ first found others more, planCall model node call = .ok (first, found) ∧
        planCalls model node calls = .ok (others, more) ∧
        steps = first ++ others ∧ errors = found ++ more := by
  simp only [planCalls, bind_eq_ok_iff, pure_eq_ok_iff, Prod.exists, Prod.mk.injEq,
    exists_and_left]

/-- The steps of several uses of layers keep what their parameters and overrides have in common. -/
theorem all_planCalls {calls : List CallSpec} (hmodel : model.All Q)
    (hcalls : ∀ call ∈ calls, call.All Q model)
    (h : planCalls model node calls = .ok (steps, errors)) : ∀ s ∈ steps, s.All Q model := by
  induction calls generalizing steps errors with
  | nil =>
    obtain ⟨rfl, _⟩ := Prod.mk.inj (pure_eq_ok_iff.mp h)
    simp
  | cons call rest ih =>
    obtain ⟨first, found, others, more, hfirst, hothers, rfl, -⟩ := planCalls_cons_eq_ok_iff.mp h
    obtain ⟨hcall, hrest⟩ := List.forall_mem_cons.mp hcalls
    intro s hs
    rcases List.mem_append.mp hs with hs | hs
    · exact all_planCall hmodel hcall hfirst s hs
    · exact ih hrest hothers s hs

/-- A node of an inline model contributes its steps and, if it declares a shape, a checkpoint after
them. -/
theorem planLines_cons_eq_ok {line : LineSpec} {rest : List LineSpec}
    (h : planLines model node done (line :: rest) = .ok (steps, checkpoints, errors)) :
    ∃ first firstErrors others later laterErrors,
      planCalls model node line.calls = .ok (first, firstErrors) ∧
        planLines model node (done + first.length) rest = .ok (others, later, laterErrors) ∧
        steps = first ++ others ∧
        checkpoints = (line.declared.toList.map fun shape =>
          ⟨done + first.length, line.index, shape⟩) ++ later := by
  obtain ⟨⟨first, firstErrors⟩, hfirst, h⟩ := bind_eq_ok_iff.mp h
  obtain ⟨⟨others, later, laterErrors⟩, hothers, h⟩ := bind_eq_ok_iff.mp h
  obtain ⟨rfl, hpair⟩ := Prod.mk.inj (pure_eq_ok_iff.mp h)
  obtain ⟨rfl, _⟩ := Prod.mk.inj hpair
  refine ⟨first, firstErrors, others, later, laterErrors, hfirst, hothers, rfl, ?_⟩
  cases line.declared <;> rfl

/-- The steps of an inline model keep what its parameters and overrides have in common. -/
theorem all_planLines {lines : List LineSpec} (hmodel : model.All Q)
    (hlines : ∀ line ∈ lines, ∀ call ∈ line.calls, call.All Q model)
    (h : planLines model node done lines = .ok (steps, checkpoints, errors)) :
    ∀ s ∈ steps, s.All Q model := by
  induction lines generalizing done steps checkpoints errors with
  | nil =>
    obtain ⟨rfl, _⟩ := Prod.mk.inj (pure_eq_ok_iff.mp h)
    simp
  | cons line rest ih =>
    obtain ⟨first, _, others, _, _, hfirst, hothers, rfl, _⟩ := planLines_cons_eq_ok h
    obtain ⟨hline, hrest⟩ := List.forall_mem_cons.mp hlines
    intro s hs
    rcases List.mem_append.mp hs with hs | hs
    · exact all_planCalls hmodel hline hfirst s hs
    · exact ih hrest hothers s hs

/-- The shapes of the checkpoints of an inline model are those that its nodes declare. -/
theorem mem_of_planLines {lines : List LineSpec}
    (h : planLines model node done lines = .ok (steps, checkpoints, errors))
    {checkpoint : Checkpoint} (hcheckpoint : checkpoint ∈ checkpoints) :
    ∃ line ∈ lines, line.declared = some checkpoint.shape := by
  induction lines generalizing done steps checkpoints errors with
  | nil =>
    obtain ⟨_, hpair⟩ := Prod.mk.inj (pure_eq_ok_iff.mp h)
    obtain ⟨rfl, _⟩ := Prod.mk.inj hpair
    cases hcheckpoint
  | cons line rest ih =>
    obtain ⟨first, _, others, later, _, _, hothers, _, rfl⟩ := planLines_cons_eq_ok h
    rcases List.mem_append.mp hcheckpoint with hmem | hmem
    · obtain ⟨shape, hshape, rfl⟩ := List.mem_map.mp hmem
      exact ⟨line, List.mem_cons_self, Option.mem_toList.mp hshape⟩
    · obtain ⟨other, hother, hdeclared⟩ := ih hothers hmem
      exact ⟨other, List.mem_cons_of_mem _ hother, hdeclared⟩

/-- The checkpoints of an inline model are due in their order, each after steps of the model. -/
theorem ordered_planLines {lines : List LineSpec}
    (h : planLines model node done lines = .ok (steps, checkpoints, errors)) :
    checkpoints.Pairwise (·.after ≤ ·.after) ∧
      ∀ checkpoint ∈ checkpoints,
        done ≤ checkpoint.after ∧ checkpoint.after ≤ done + steps.length := by
  induction lines generalizing done steps checkpoints errors with
  | nil =>
    obtain ⟨rfl, hpair⟩ := Prod.mk.inj (pure_eq_ok_iff.mp h)
    obtain ⟨rfl, _⟩ := Prod.mk.inj hpair
    simp
  | cons line rest ih =>
    obtain ⟨first, _, others, later, _, _, hothers, rfl, rfl⟩ := planLines_cons_eq_ok h
    obtain ⟨hpairwise, hbounds⟩ := ih hothers
    have hlength : (first ++ others).length = first.length + others.length := List.length_append
    cases line.declared with
    | none =>
      refine ⟨hpairwise, fun checkpoint hcheckpoint => ?_⟩
      have := hbounds checkpoint hcheckpoint
      omega
    | some shape =>
      refine ⟨List.pairwise_cons.mpr ⟨fun other hother => ?_, hpairwise⟩,
        fun checkpoint hcheckpoint => ?_⟩
      · exact (hbounds other hother).1
      · rcases List.mem_cons.mp hcheckpoint with rfl | hcheckpoint
        · dsimp only
          omega
        · have := hbounds checkpoint hcheckpoint
          omega

/-- The checkpoints of a node are due in their order, each after steps of the node. -/
structure PlannedNode.Ordered (planned : PlannedNode) : Prop where
  /-- The checkpoints are due in their order. -/
  pairwise : planned.checkpoints.Pairwise (·.after ≤ ·.after)
  /-- The checkpoints are due after steps of the node. -/
  bounded : ∀ checkpoint ∈ planned.checkpoints, checkpoint.after ≤ planned.steps.length

/-- A planned node has the declared shape of its specification, and the checkpoints of its inline
model are due in their order. -/
theorem planNode_eq_ok (h : planNode model spec = .ok (planned, errors)) :
    planned.declared = spec.declared ∧ planned.Ordered ∧
      ∀ checkpoint ∈ planned.checkpoints,
        ∃ line ∈ spec.inner, line.declared = some checkpoint.shape := by
  unfold planNode at h
  split at h
  · rename_i inline hinline
    unfold planInline at h
    dsimp only at h
    split at h
    · obtain ⟨rfl, _⟩ := Prod.mk.inj (pure_eq_ok_iff.mp h)
      exact ⟨rfl, ⟨List.Pairwise.nil, by simp⟩, by simp⟩
    · cases h
    · obtain ⟨⟨steps, checkpoints, found⟩, hlines, h⟩ := bind_eq_ok_iff.mp h
      obtain ⟨rfl, _⟩ := Prod.mk.inj (pure_eq_ok_iff.mp h)
      obtain ⟨hpairwise, hbounds⟩ := ordered_planLines hlines
      refine ⟨rfl, ⟨hpairwise, fun checkpoint hcheckpoint => ?_⟩, fun checkpoint hcheckpoint => ?_⟩
      · simpa using (hbounds checkpoint hcheckpoint).2
      · have hinner : spec.inner = inline.lines := by rw [NodeSpec.inner, hinline]
        rw [hinner]
        exact mem_of_planLines hlines hcheckpoint
  · obtain ⟨⟨steps, found⟩, _, h⟩ := bind_eq_ok_iff.mp h
    obtain ⟨rfl, _⟩ := Prod.mk.inj (pure_eq_ok_iff.mp h)
    exact ⟨rfl, ⟨List.Pairwise.nil, by simp⟩, by simp⟩

/-- A planned node has the number of its specification. -/
theorem index_of_planNode (h : planNode model spec = .ok (planned, errors)) :
    planned.index = spec.index := by
  unfold planNode at h
  split at h
  · unfold planInline at h
    dsimp only at h
    split at h
    · obtain ⟨rfl, _⟩ := Prod.mk.inj (pure_eq_ok_iff.mp h)
      rfl
    · cases h
    · obtain ⟨_, _, h⟩ := bind_eq_ok_iff.mp h
      obtain ⟨rfl, _⟩ := Prod.mk.inj (pure_eq_ok_iff.mp h)
      rfl
  · obtain ⟨_, _, h⟩ := bind_eq_ok_iff.mp h
    obtain ⟨rfl, _⟩ := Prod.mk.inj (pure_eq_ok_iff.mp h)
    rfl

/-- The steps of a node keep what its parameters and overrides have in common. -/
theorem all_planNode (hmodel : model.All Q) (hspec : ∀ call ∈ spec.uses, call.All Q model)
    (h : planNode model spec = .ok (planned, errors)) : ∀ s ∈ planned.steps, s.All Q model := by
  unfold planNode at h
  split at h
  · rename_i inline hinline
    have hlines : spec.inner = inline.lines := by rw [NodeSpec.inner, hinline]
    unfold planInline at h
    dsimp only at h
    split at h
    · obtain ⟨rfl, _⟩ := Prod.mk.inj (pure_eq_ok_iff.mp h)
      simp
    · cases h
    · obtain ⟨⟨steps, checkpoints, found⟩, hplan, h⟩ := bind_eq_ok_iff.mp h
      obtain ⟨rfl, _⟩ := Prod.mk.inj (pure_eq_ok_iff.mp h)
      refine all_planLines hmodel (fun line hline call hcall => hspec call ?_) hplan
      exact List.mem_append_right _ (List.mem_flatMap.mpr ⟨line, hlines ▸ hline, hcall⟩)
  · obtain ⟨⟨steps, found⟩, hplan, h⟩ := bind_eq_ok_iff.mp h
    obtain ⟨rfl, _⟩ := Prod.mk.inj (pure_eq_ok_iff.mp h)
    exact all_planCalls hmodel (fun call hcall => hspec call (List.mem_append_left _ hcall)) hplan

/-- The first node of a plan comes before the others, and so do its problems. -/
theorem planNodes_cons_eq_ok_iff {spec : NodeSpec} {specs : List NodeSpec} :
    planNodes model (spec :: specs) = .ok (plan, errors) ↔
      ∃ planned found others more, planNode model spec = .ok (planned, found) ∧
        planNodes model specs = .ok (others, more) ∧
        plan = planned :: others ∧ errors = found ++ more := by
  simp only [planNodes, bind_eq_ok_iff, pure_eq_ok_iff, Prod.exists, Prod.mk.injEq,
    exists_and_left]

/-- Every node of a plan is planned from a node of the definition. -/
theorem exists_of_planNodes {specs : List NodeSpec}
    (h : planNodes model specs = .ok (plan, errors)) :
    List.Forall₂ (fun spec planned => ∃ found, planNode model spec = .ok (planned, found))
      specs plan := by
  induction specs generalizing plan errors with
  | nil =>
    obtain ⟨rfl, _⟩ := Prod.mk.inj (pure_eq_ok_iff.mp h)
    exact List.Forall₂.nil
  | cons spec rest ih =>
    obtain ⟨planned, found, others, more, hplanned, hothers, rfl, -⟩ :=
      planNodes_cons_eq_ok_iff.mp h
    exact List.Forall₂.cons ⟨found, hplanned⟩ (ih hothers)

/-- A plan has the nodes of the definition, of which the first declares its shape. -/
theorem planModel_eq_ok (h : planModel model = .ok plan) :
    List.Forall₂ (fun spec planned => ∃ found, planNode model spec = .ok (planned, found))
      model.definition.nodes plan ∧
      ∃ first rest shape, plan = first :: rest ∧ first.declared = some shape := by
  obtain ⟨_, _, h⟩ := bind_eq_ok_iff.mp h
  split at h
  · cases h
  · rename_i first rest hnodes
    split at h
    · cases h
    · rename_i hdeclared
      obtain ⟨⟨planned, found⟩, hplanned, h⟩ := bind_eq_ok_iff.mp h
      have hplan : planned = plan := by
        cases found with
        | nil => exact (pure_eq_ok_iff.mp h).symm
        | cons d others => cases h
      subst hplan
      have hall := exists_of_planNodes hplanned
      rw [hnodes] at hall ⊢
      refine ⟨hall, ?_⟩
      obtain ⟨head, tail, ⟨_, hhead⟩, _, rfl⟩ := List.forall₂_cons_left_iff.mp hall
      obtain ⟨shape, hshape⟩ := Option.ne_none_iff_exists'.mp
        (fun hnone => hdeclared (Option.isNone_iff_eq_none.mpr hnone))
      exact ⟨head, tail, shape, rfl, (planNode_eq_ok hhead).1.trans hshape⟩

/-- The checkpoints of every node of a plan are due in their order. -/
theorem ordered_planModel (h : planModel model = .ok plan) : ∀ planned ∈ plan, planned.Ordered := by
  intro planned hplanned
  obtain ⟨spec, _, found, hplan⟩ := exists_of_mem_right (planModel_eq_ok h).1 hplanned
  exact (planNode_eq_ok hplan).2.1

/-- The steps of a plan keep what the parameters and all overrides have in common. -/
theorem all_planModel (hmodel : model.All Q)
    (hnodes : ∀ n ∈ model.definition.nodes, ∀ call ∈ n.uses, call.All Q model)
    (h : planModel model = .ok plan) : ∀ planned ∈ plan, ∀ s ∈ planned.steps, s.All Q model := by
  intro planned hplanned
  obtain ⟨spec, hspec, _, hplan⟩ := exists_of_mem_right (planModel_eq_ok h).1 hplanned
  exact all_planNode hmodel (hnodes spec hspec) hplan

/-- Models with the same nodes and variables have an input with the same symbols. -/
theorem inputSymbols_eq_of_same {model' : ResolvedModel}
    (hnodes : model'.definition.nodes = model.definition.nodes)
    (hvariables : model.hyperparameters.Same model'.hyperparameters) :
    inputSymbols model' = inputSymbols model := by
  have hcontains : (fun name => !model'.hyperparameters.contains name) =
      fun name => !model.hyperparameters.contains name := by
    funext name
    rw [hvariables.contains_eq]
  unfold inputSymbols Definition.inputShape
  rw [hnodes, hcontains]

/-- The terms of a planned node have a property. -/
structure PlannedNode.TermsSatisfy (T : Term → Prop) (planned : PlannedNode) : Prop where
  /-- The parameters of the steps have the property. -/
  steps : ∀ step ∈ planned.steps, step.params.TermsSatisfy T
  /-- The shapes that an inline model declares have the property. -/
  checkpoints : ∀ checkpoint ∈ planned.checkpoints, checkpoint.shape.TermsSatisfy T
  /-- The shape that the node declares has the property. -/
  declared : ∀ shape, planned.declared = some shape → shape.TermsSatisfy T

/-- The terms of a plan have a property if those of the model do. -/
theorem termsSatisfy_planModel {T : Term → Prop} (hmodel : model.TermsSatisfy T)
    (h : planModel model = .ok plan) : ∀ planned ∈ plan, planned.TermsSatisfy T := by
  intro planned hplanned
  obtain ⟨spec, hspec, _, hplan⟩ := exists_of_mem_right (planModel_eq_ok h).1 hplanned
  obtain ⟨hline, hinner⟩ := hmodel.definition.nodes spec hspec
  obtain ⟨hdeclared, _, hcheckpoints⟩ := planNode_eq_ok hplan
  have hparameters : model.All fun _ _ v => v.TermsSatisfy T := fun name _ p _ hp =>
    Parameters.termsSatisfy_iff.mp (hmodel.typeParameters name p hp)
  have huses : ∀ call ∈ spec.uses, call.All (fun _ _ v => v.TermsSatisfy T) model :=
    fun call hcall a ha _ _ _ _ _ _ => hmodel.definition.uses hspec call hcall a ha
  refine ⟨fun s hs => ?_, fun checkpoint hcheckpoint => ?_, hdeclared ▸ hline.declared⟩
  · exact Parameters.termsSatisfy_iff.mpr (all_planNode hparameters huses hplan s hs).params
  · obtain ⟨line, hmem, hshape⟩ := hcheckpoints checkpoint hcheckpoint
    exact (hinner line hmem).declared _ hshape

/-- A model that can be written has a plan that can be written. -/
theorem written_planModel (hmodel : model.Written) (h : planModel model = .ok plan) :
    ∀ planned ∈ plan, planned.Written := by
  intro planned hplanned
  obtain ⟨hsteps, hcheckpoints, hdeclared⟩ := termsSatisfy_planModel hmodel.terms h planned hplanned
  exact ⟨hsteps, hcheckpoints, hdeclared⟩

end Shapeline
