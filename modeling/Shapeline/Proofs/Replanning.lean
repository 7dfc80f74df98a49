import Shapeline.Proofs.Planning
import Shapeline.Proofs.Resolvable

/-!
# Plans of models that agree on the layers in use

A plan depends on a model only through the layer types that its nodes use and their parameters. Two
models with the same nodes that agree on those are planned together: the plans are the same, up to
the parameters of their steps, which are related as those of the models are.
-/

namespace Shapeline

/-- Two models have the same layer type of a name, if any, and relate its parameters. -/
structure ResolvedModel.MatchesAt (E : Parameters → Parameters → Prop)
    (model model' : ResolvedModel) (name : String) : Prop where
  /-- The layer type is the same. -/
  layerType : model'.layerTypes.get? name = model.layerTypes.get? name
  /-- The parameters of a layer type are related. -/
  params : ∀ layer base, model.layerTypes.get? name = some layer →
    model.typeParameters.get? name = some base →
      ∃ base', model'.typeParameters.get? name = some base' ∧ E base base'

/-- Two steps apply the same layer type with related parameters. -/
structure PlannedStep.Like (E : Parameters → Parameters → Prop) (s s' : PlannedStep) : Prop where
  /-- The layer type is the same. -/
  layerType : s'.layerType = s.layerType
  /-- The parameters are related. -/
  params : E s.params s'.params

/-- Two planned nodes are the same up to the parameters of their steps, which are related. -/
structure PlannedNode.Like (E : Parameters → Parameters → Prop) (p p' : PlannedNode) : Prop where
  /-- The number, the declarations and the names are the same. -/
  same : p' = { p with steps := p'.steps }
  /-- The steps are the same up to their parameters. -/
  steps : List.Forall₂ (PlannedStep.Like E) p.steps p'.steps

variable {E : Parameters → Parameters → Prop} {model model' : ResolvedModel} {node : Option Int}
  {index : Int} {errors : List Diagnostic} {steps : List PlannedStep} {calls : List CallSpec}
  {lines : List LineSpec} {checkpoints : List Checkpoint} {done : Nat} {spec : NodeSpec}
  {specs : List NodeSpec} {planned : PlannedNode} {plan : List PlannedNode} {layer : LayerType}
  {tier : String} {assignments : List Assignment} {base base' : Parameters} {seen : List String}
  {merge : Merge}

/-- Two resolved models agree on a layer type that both import if the entries that their override
blocks put in make related parameters. -/
theorem ResolvedModel.Binds.matchesAt {registry : Registry} {name : String}
    (hmodel : model.Binds registry) (hmodel' : model'.Binds registry)
    (himports : registry.Imports model'.definition.imports name ↔
      registry.Imports model.definition.imports name)
    (hentries : ∀ layer entries entries', model.layerTypes.get? name = some layer →
      layer.Accepts [] (assignmentsFor model.definition.typeOverrides name) entries →
      layer.Accepts [] (assignmentsFor model'.definition.typeOverrides name) entries' →
      E (layer.defaults.insertAll entries) (layer.defaults.insertAll entries')) :
    model.MatchesAt E model' name := by
  have hlayers : model'.layerTypes.get? name = model.layerTypes.get? name := by
    apply Option.ext
    intro layer
    exact (hmodel'.layerTypes name layer).trans
      ((and_congr_left' himports).trans (hmodel.layerTypes name layer).symm)
  refine ⟨hlayers, fun layer base hlayer hbase => ?_⟩
  obtain ⟨entries, haccepts, hparameters⟩ := hmodel.typeParameters name layer hlayer
  obtain ⟨entries', haccepts', hparameters'⟩ :=
    hmodel'.typeParameters name layer (hlayers.trans hlayer)
  obtain rfl := Option.some.inj (hbase.symm.trans hparameters)
  exact ⟨_, hparameters', hentries layer entries entries' hlayer haccepts haccepts'⟩

section

variable (hE : ∀ p p' name value, E p p' → E (p.insert name value) (p'.insert name value))

include hE

/-- An assignment does the same to related parameters. -/
theorem Merge.assign_like {a : Assignment} {m next : Merge} {params : Parameters}
    (hparams : E m.params params) (h : m.assign layer tier node a = .ok next) :
    ∃ params', Merge.assign layer tier node { m with params } a =
      .ok { next with params := params' } ∧ E next.params params' := by
  cases assign_eq_ok_iff.mp h with
  | unknown hspec => exact ⟨params, assign_eq_ok_iff.mpr (.unknown hspec), hparams⟩
  | duplicate spec hspec hseen =>
    exact ⟨params, assign_eq_ok_iff.mpr (.duplicate spec hspec hseen), hparams⟩
  | wrong spec given hspec hseen hgiven hrefuses =>
    exact ⟨params, assign_eq_ok_iff.mpr (.wrong spec given hspec hseen hgiven hrefuses), hparams⟩
  | set spec hspec hseen htakes =>
    exact ⟨_, assign_eq_ok_iff.mpr (.set spec hspec hseen htakes), hE _ _ _ _ hparams⟩

/-- The assignments of a tier do the same to related parameters. -/
theorem mergeParameters_like (hbase : E base base')
    (h : mergeParameters layer base assignments tier node seen = .ok merge) :
    ∃ params, mergeParameters layer base' assignments tier node seen =
      .ok { merge with params } ∧ E merge.params params := by
  have hfold (m : Merge) (params : Parameters) (hparams : E m.params params)
      (hrun : assignments.foldlM (Merge.assign layer tier node) m = .ok merge) :
      ∃ params', assignments.foldlM (Merge.assign layer tier node) { m with params } =
        .ok { merge with params := params' } ∧ E merge.params params' := by
    clear h
    induction assignments generalizing m params with
    | nil =>
      obtain rfl := pure_eq_ok_iff.mp hrun
      exact ⟨params, rfl, hparams⟩
    | cons a rest ih =>
      obtain ⟨next, hnext, hrun⟩ := bind_eq_ok_iff.mp hrun
      obtain ⟨nextParams, hassign, hnextParams⟩ := Merge.assign_like hE hparams hnext
      obtain ⟨params', hrest, hparams'⟩ := ih next nextParams hnextParams hrun
      exact ⟨params', bind_eq_ok_iff.mpr ⟨_, hassign, hrest⟩, hparams'⟩
  exact hfold _ _ hbase h

/-- A use of a layer is planned with the same steps, up to their parameters. -/
theorem planCall_like {call : CallSpec} (hmatch : model.MatchesAt E model' call.name)
    (h : planCall model index call = .ok (steps, errors)) :
    ∃ steps', planCall model' index call = .ok (steps', errors) ∧
      List.Forall₂ (PlannedStep.Like E) steps steps' := by
  unfold planCall at h ⊢
  split at h
  · rename_i layer base hlayer hbase
    obtain ⟨base', hbase', hrelated⟩ := hmatch.params layer base hlayer hbase
    obtain ⟨merge, hmerge, h⟩ := bind_eq_ok_iff.mp h
    obtain ⟨rfl, rfl⟩ := Prod.mk.inj (pure_eq_ok_iff.mp h)
    obtain ⟨params, hparams, hrelated⟩ := mergeParameters_like hE hrelated hmerge
    rw [hmatch.layerType, hlayer, hbase']
    refine ⟨_, bind_eq_ok_iff.mpr ⟨_, hparams, rfl⟩, ?_⟩
    exact List.forall₂_iff_get.mpr ⟨by simp, fun i hi hi' => by
      simp only [List.get_eq_getElem, List.getElem_replicate]
      exact ⟨rfl, hrelated⟩⟩
  · cases h

/-- Uses of layers are planned with the same steps, up to their parameters. -/
theorem planCalls_like (hmatch : ∀ call ∈ calls, model.MatchesAt E model' call.name)
    (h : planCalls model index calls = .ok (steps, errors)) :
    ∃ steps', planCalls model' index calls = .ok (steps', errors) ∧
      List.Forall₂ (PlannedStep.Like E) steps steps' := by
  induction calls generalizing steps errors with
  | nil =>
    obtain ⟨rfl, rfl⟩ := Prod.mk.inj (pure_eq_ok_iff.mp h)
    exact ⟨[], rfl, .nil⟩
  | cons call rest ih =>
    obtain ⟨first, found, others, more, hfirst, hothers, rfl, rfl⟩ :=
      planCalls_cons_eq_ok_iff.mp h
    obtain ⟨hcall, hrest⟩ := List.forall_mem_cons.mp hmatch
    obtain ⟨first', hfirst', hlike⟩ := planCall_like hE hcall hfirst
    obtain ⟨others', hothers', hlikes⟩ := ih hrest hothers
    exact ⟨first' ++ others', planCalls_cons_eq_ok_iff.mpr
      ⟨first', found, others', more, hfirst', hothers', rfl, rfl⟩, List.rel_append hlike hlikes⟩

/-- The nodes of an inline model are planned with the same steps, up to their parameters, and the
same checkpoints. -/
theorem planLines_like
    (hmatch : ∀ line ∈ lines, ∀ call ∈ line.calls, model.MatchesAt E model' call.name)
    (h : planLines model index done lines = .ok (steps, checkpoints, errors)) :
    ∃ steps', planLines model' index done lines = .ok (steps', checkpoints, errors) ∧
      List.Forall₂ (PlannedStep.Like E) steps steps' := by
  induction lines generalizing done steps checkpoints errors with
  | nil =>
    obtain ⟨rfl, hpair⟩ := Prod.mk.inj (pure_eq_ok_iff.mp h)
    obtain ⟨rfl, rfl⟩ := Prod.mk.inj hpair
    exact ⟨[], rfl, .nil⟩
  | cons line rest ih =>
    obtain ⟨⟨first, firstErrors⟩, hfirst, h⟩ := bind_eq_ok_iff.mp h
    obtain ⟨⟨others, later, laterErrors⟩, hothers, h⟩ := bind_eq_ok_iff.mp h
    obtain ⟨rfl, hpair⟩ := Prod.mk.inj (pure_eq_ok_iff.mp h)
    obtain ⟨rfl, rfl⟩ := Prod.mk.inj hpair
    obtain ⟨hline, hrest⟩ := List.forall_mem_cons.mp hmatch
    obtain ⟨first', hfirst', hlike⟩ := planCalls_like hE hline hfirst
    have hlength : first'.length = first.length := hlike.length_eq.symm
    obtain ⟨others', hothers', hlikes⟩ := ih hrest hothers
    refine ⟨first' ++ others', bind_eq_ok_iff.mpr ⟨_, hfirst', ?_⟩, List.rel_append hlike hlikes⟩
    dsimp only
    rw [hlength]
    exact bind_eq_ok_iff.mpr ⟨_, hothers', rfl⟩

/-- A node is planned the same, up to the parameters of its steps. -/
theorem planNode_like (hmatch : ∀ call ∈ spec.uses, model.MatchesAt E model' call.name)
    (h : planNode model spec = .ok (planned, errors)) :
    ∃ planned', planNode model' spec = .ok (planned', errors) ∧ planned.Like E planned' := by
  unfold planNode at h ⊢
  split at h
  · rename_i inline hinline
    have hinner : spec.inner = inline.lines := by rw [NodeSpec.inner, hinline]
    have hlines : ∀ line ∈ inline.lines, ∀ call ∈ line.calls,
        model.MatchesAt E model' call.name := by
      intro line hline call hcall
      refine hmatch call (List.mem_append_right _ (List.mem_flatMap.mpr ⟨line, ?_, hcall⟩))
      exact hinner ▸ hline
    unfold planInline at h ⊢
    dsimp only at h ⊢
    split at h
    · obtain ⟨rfl, rfl⟩ := Prod.mk.inj (pure_eq_ok_iff.mp h)
      exact ⟨_, rfl, rfl, .nil⟩
    · cases h
    · obtain ⟨⟨steps, checkpoints, found⟩, hplan, h⟩ := bind_eq_ok_iff.mp h
      obtain ⟨rfl, rfl⟩ := Prod.mk.inj (pure_eq_ok_iff.mp h)
      obtain ⟨steps', hplan', hlike⟩ := planLines_like hE hlines hplan
      exact ⟨_, bind_eq_ok_iff.mpr ⟨_, hplan', rfl⟩, rfl, hlike⟩
  · obtain ⟨⟨steps, found⟩, hplan, h⟩ := bind_eq_ok_iff.mp h
    obtain ⟨rfl, rfl⟩ := Prod.mk.inj (pure_eq_ok_iff.mp h)
    obtain ⟨steps', hplan', hlike⟩ :=
      planCalls_like hE (fun call hcall => hmatch call (List.mem_append_left _ hcall)) hplan
    exact ⟨_, bind_eq_ok_iff.mpr ⟨_, hplan', rfl⟩, rfl, hlike⟩

/-- Several nodes are planned the same, up to the parameters of their steps. -/
theorem planNodes_like (hmatch : ∀ n ∈ specs, ∀ call ∈ n.uses, model.MatchesAt E model' call.name)
    (h : planNodes model specs = .ok (plan, errors)) :
    ∃ plan', planNodes model' specs = .ok (plan', errors) ∧
      List.Forall₂ (PlannedNode.Like E) plan plan' := by
  induction specs generalizing plan errors with
  | nil =>
    obtain ⟨rfl, rfl⟩ := Prod.mk.inj (pure_eq_ok_iff.mp h)
    exact ⟨[], rfl, .nil⟩
  | cons spec rest ih =>
    obtain ⟨planned, found, others, more, hplanned, hothers, rfl, rfl⟩ :=
      planNodes_cons_eq_ok_iff.mp h
    obtain ⟨hspec, hrest⟩ := List.forall_mem_cons.mp hmatch
    obtain ⟨planned', hplanned', hlike⟩ := planNode_like hE hspec hplanned
    obtain ⟨others', hothers', hlikes⟩ := ih hrest hothers
    exact ⟨planned' :: others', planNodes_cons_eq_ok_iff.mpr
      ⟨planned', found, others', more, hplanned', hothers', rfl, rfl⟩, .cons hlike hlikes⟩

/-- Models with the same nodes that agree on the layers in use have the same plan, up to the
parameters of the steps. -/
theorem planModel_like (hnodes : model'.definition.nodes = model.definition.nodes)
    (hmatch : ∀ n ∈ model.definition.nodes, ∀ call ∈ n.uses, model.MatchesAt E model' call.name)
    (h : planModel model = .ok plan) :
    ∃ plan', planModel model' = .ok plan' ∧ List.Forall₂ (PlannedNode.Like E) plan plan' := by
  unfold planModel at h ⊢
  dsimp only at h ⊢
  rw [hnodes]
  obtain ⟨_, hindices, h⟩ := bind_eq_ok_iff.mp h
  rw [hindices]
  split at h
  · cases h
  · rename_i first rest hfirst
    split at h
    · cases h
    · rename_i hdeclared
      obtain ⟨⟨planned, found⟩, hplanned, h⟩ := bind_eq_ok_iff.mp h
      cases found with
      | cons _ _ => cases h
      | nil =>
        obtain rfl := pure_eq_ok_iff.mp h
        obtain ⟨plan', hplan', hlikes⟩ := planNodes_like hE hmatch hplanned
        refine ⟨plan', ?_, hlikes⟩
        show (if first.declared.isNone = true then _ else _) = _
        rw [if_neg hdeclared]
        exact bind_eq_ok_iff.mpr ⟨_, hplan', rfl⟩

end

/-- Plans with equal parameters are equal. -/
theorem eq_of_forall₂_like {plan' : List PlannedNode}
    (h : List.Forall₂ (PlannedNode.Like Eq) plan plan') : plan' = plan := by
  have hstep {s s' : PlannedStep} (h : s.Like Eq s') : s = s' := by
    obtain ⟨layer, params⟩ := s
    obtain ⟨layer', params'⟩ := s'
    obtain rfl : layer' = layer := h.layerType
    obtain rfl : params = params' := h.params
    rfl
  have hnode {p p' : PlannedNode} (h : p.Like Eq p') : p = p' := by
    have hsteps : p.steps = p'.steps := by
      rw [← List.forall₂_eq_eq_eq]
      exact h.steps.imp fun _ _ hs => hstep hs
    rw [h.same, ← hsteps]
  rw [eq_comm, ← List.forall₂_eq_eq_eq]
  exact h.imp fun _ _ hp => hnode hp

end Shapeline
