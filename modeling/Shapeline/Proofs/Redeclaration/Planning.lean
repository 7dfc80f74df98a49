import Shapeline.Proofs.Inference.Simulation
import Shapeline.Proofs.Planning
import Shapeline.Proofs.Redeclaration.Lowering

/-!
# Plans with other declarations

Resolution and planning do not look at declared shapes, up to whether the input has one. So
definitions that differ in declared shapes only are resolved and planned together, and the plans
differ in declared shapes only.
-/

namespace Shapeline

variable {W : Option Shape → Option Shape → Prop} {n n' : NodeSpec} {nodes nodes' : List NodeSpec}
  {line line' : LineSpec} {lines lines' : List LineSpec} {d d' : Definition} {model : ResolvedModel}
  {node : Int} {errors : List Diagnostic}

/-- The number of a line stays. -/
theorem LineSpec.Redeclares.index_eq (h : line.Redeclares W line') : line'.index = line.index := by
  rw [h.same]

/-- The layers of a line stay. -/
theorem LineSpec.Redeclares.calls_eq (h : line.Redeclares W line') : line'.calls = line.calls := by
  rw [h.same]

/-- The numbers of the lines of an inline model stay. -/
theorem indices_eq_of_redeclares (h : List.Forall₂ (LineSpec.Redeclares W) lines lines') :
    lines'.map (·.index) = lines.map (·.index) := by
  induction h with
  | nil => rfl
  | cons hline _ ih => rw [List.map_cons, List.map_cons, hline.index_eq, ih]

/-- The layers that a node uses stay. -/
theorem NodeSpec.Redeclares.layerNames_eq (h : n.Redeclares W n') :
    n'.layerNames = n.layerNames := by
  have hinner : (n'.inner.flatMap fun line => line.calls.map (·.name)) =
      n.inner.flatMap fun line => line.calls.map (·.name) := by
    have hinline := h.inline
    unfold inner
    cases hn : n.inline with
    | none =>
      rw [hn] at hinline
      cases hn' : n'.inline with
      | none => rfl
      | some _ => rw [hn'] at hinline; cases hinline
    | some model =>
      rw [hn] at hinline
      cases hn' : n'.inline with
      | none => rw [hn'] at hinline; cases hinline
      | some model' =>
        rw [hn'] at hinline
        cases hinline with
        | some hmodels =>
          have hlines := hmodels.lines
          dsimp only
          generalize model.lines = lines at hlines ⊢
          generalize model'.lines = lines' at hlines ⊢
          induction hlines with
          | nil => rfl
          | cons hline _ ih => rw [List.flatMap_cons, List.flatMap_cons, hline.calls_eq, ih]
  rw [layerNames, layerNames, hinner, h.base.calls_eq]

/-- The references to layers stay. -/
theorem checkReferences_eq_of_redeclares {registry : Registry} {scope : List String}
    (h : List.Forall₂ (NodeSpec.Redeclares W) nodes nodes') :
    checkReferences registry scope nodes' = checkReferences registry scope nodes := by
  unfold checkReferences
  induction h with
  | nil => rfl
  | cons hn _ ih =>
    rw [List.filter_cons, List.filter_cons, hn.base.index_eq]
    split
    · rw [List.flatMap_cons, List.flatMap_cons, hn.layerNames_eq, hn.base.index_eq, ih]
    · exact ih

/-- The layers that a definition uses stay. -/
theorem Definition.Redeclares.referencedLayers_eq (h : d.Redeclares W d') :
    d'.referencedLayers = d.referencedLayers := by
  have hnodes := h.nodes
  have hnames : (d'.nodes.filter (·.index ≠ 0)).flatMap NodeSpec.layerNames =
      (d.nodes.filter (·.index ≠ 0)).flatMap NodeSpec.layerNames := by
    generalize d.nodes = nodes at hnodes ⊢
    generalize d'.nodes = nodes' at hnodes ⊢
    induction hnodes with
    | nil => rfl
    | cons hn _ ih =>
      rw [List.filter_cons, List.filter_cons, hn.base.index_eq]
      split
      · rw [List.flatMap_cons, List.flatMap_cons, hn.layerNames_eq, ih]
      · exact ih
  rw [referencedLayers, referencedLayers, hnames]

/-- The input shape stays. -/
theorem Definition.Redeclares.inputShape_eq (h : d.Redeclares W d') :
    d'.inputShape = d.inputShape := by
  have hnodes := h.nodes
  unfold inputShape
  generalize d.nodes = nodes at hnodes ⊢
  generalize d'.nodes = nodes' at hnodes ⊢
  induction hnodes with
  | nil => rfl
  | @cons n n' _ _ hn _ ih =>
    have hindex := hn.base.index_eq
    by_cases hzero : n.index = 0
    · rw [List.find?_cons_of_pos (by simp [hindex, hzero]), List.find?_cons_of_pos (by simp [hzero]),
        Option.bind_some, Option.bind_some, hn.input (by omega)]
    · rw [List.find?_cons_of_neg (by simp [hindex, hzero]), List.find?_cons_of_neg (by simp [hzero]),
        ih]

/-- A definition with other declarations is resolved to the same model, up to the definition. -/
theorem Definition.Redeclares.resolve {registry : Registry} {warn : Bool}
    {warnings : List Warning} (h : d.Redeclares W d')
    (hresolve : Shapeline.resolve registry warn d = .ok (model, warnings)) :
    Shapeline.resolve registry warn d' = .ok ({ model with definition := d' }, warnings) := by
  have hlayers := h.referencedLayers_eq
  have hreferences (scope : List String) :
      checkReferences registry scope d'.nodes = checkReferences registry scope d.nodes :=
    checkReferences_eq_of_redeclares h.nodes
  have hsame := h.same
  generalize d'.nodes = nodes at hsame hreferences
  subst hsame
  unfold Shapeline.resolve at hresolve ⊢
  obtain ⟨layers, hlookups, hresolve⟩ := bind_eq_ok_iff.mp hresolve
  obtain ⟨overrides, hoverrides, hresolve⟩ := bind_eq_ok_iff.mp hresolve
  refine bind_eq_ok_iff.mpr ⟨layers, hlookups, bind_eq_ok_iff.mpr ⟨overrides, hoverrides, ?_⟩⟩
  dsimp only at hresolve ⊢
  rw [hreferences, hlayers]
  split at hresolve
  · obtain ⟨rfl, rfl⟩ := Prod.mk.inj (pure_eq_ok_iff.mp hresolve)
    rfl
  · cases hresolve

/-- The steps of uses of layers do not depend on the definition. -/
theorem planCalls_definition (calls : List CallSpec) :
    planCalls { model with definition := d' } node calls = planCalls model node calls := by
  induction calls with
  | nil => rfl
  | cons call rest ih => rw [planCalls, planCalls, ih]; rfl

/-- Nor do those of the nodes of an inline model. -/
theorem planLines_definition (done : Nat) (lines : List LineSpec) :
    planLines { model with definition := d' } node done lines =
      planLines model node done lines := by
  induction lines generalizing done with
  | nil => rfl
  | cons line rest ih => simp only [planLines, planCalls_definition, ih]

/-- Nor does the plan of a node. -/
theorem planNode_definition (n : NodeSpec) :
    planNode { model with definition := d' } n = planNode model n := by
  simp only [planNode, planInline, planCalls_definition, planLines_definition]

variable (d') in
/-- The plan of the lines of an inline model has the same steps, and checkpoints with other
declarations. -/
theorem planLines_redeclares {done : Nat} {steps : List PlannedStep}
    {checkpoints : List Checkpoint} (h : List.Forall₂ (LineSpec.Redeclares W) lines lines')
    (hW : ∀ declared, ¬ W none (some declared))
    (hplan : planLines model node done lines = .ok (steps, checkpoints, errors)) :
    ∃ checkpoints', planLines { model with definition := d' } node done lines' =
        .ok (steps, checkpoints', errors) ∧ Restated W checkpoints checkpoints' := by
  induction h generalizing done steps checkpoints errors with
  | nil =>
    obtain ⟨rfl, hpair⟩ := Prod.mk.inj (pure_eq_ok_iff.mp hplan)
    obtain ⟨rfl, rfl⟩ := Prod.mk.inj hpair
    exact ⟨[], rfl, .nil⟩
  | @cons line line' rest rest' hline _ ih =>
    obtain ⟨⟨first, firstErrors⟩, hfirst, hplan⟩ := bind_eq_ok_iff.mp hplan
    obtain ⟨⟨others, later, laterErrors⟩, hothers, hplan⟩ := bind_eq_ok_iff.mp hplan
    obtain ⟨rfl, hpair⟩ := Prod.mk.inj (pure_eq_ok_iff.mp hplan)
    obtain ⟨rfl, rfl⟩ := Prod.mk.inj hpair
    obtain ⟨later', hlater, hrestated⟩ := ih hothers
    have hdeclared := hline.declared
    refine ⟨_, bind_eq_ok_iff.mpr ⟨(first, firstErrors), ?_, bind_eq_ok_iff.mpr
      ⟨(others, later', laterErrors), hlater, rfl⟩⟩, ?_⟩
    · rw [planCalls_definition, hline.calls_eq]
      exact hfirst
    · rw [hline.index_eq]
      cases hold : line.declared with
      | none =>
        cases hnew : line'.declared with
        | none => exact hrestated
        | some _ =>
          rw [hold, hnew] at hdeclared
          exact absurd hdeclared (hW _)
      | some shape =>
        cases hnew : line'.declared with
        | none =>
          rw [hold, hnew] at hdeclared
          exact .drop hdeclared hrestated
        | some shape' =>
          rw [hold, hnew] at hdeclared
          have hcheckpoint : W (some (⟨done + first.length, line.index, shape⟩ : Checkpoint).shape)
              (some shape') := hdeclared
          exact .keep hcheckpoint hrestated

variable (d') in
/-- The plan of a node has other declarations only. -/
theorem NodeSpec.Redeclares.planNode {planned : PlannedNode} (h : n.Redeclares W n')
    (hW : ∀ declared, ¬ W none (some declared))
    (hplan : Shapeline.planNode model n = .ok (planned, errors)) :
    ∃ planned', Shapeline.planNode { model with definition := d' } n' = .ok (planned', errors) ∧
      planned.Restated W planned' := by
  have hbase := h.base.same
  have hlabel : n'.label = n.label := by rw [hbase]
  unfold Shapeline.planNode at hplan ⊢
  have hinline := h.inline
  cases hn : n.inline with
  | none =>
    rw [hn] at hplan hinline
    cases hn' : n'.inline with
    | some _ => rw [hn'] at hinline; cases hinline
    | none =>
      obtain ⟨⟨steps, found⟩, hsteps, hplan⟩ := bind_eq_ok_iff.mp hplan
      obtain ⟨rfl, rfl⟩ := Prod.mk.inj (pure_eq_ok_iff.mp hplan)
      refine ⟨_, bind_eq_ok_iff.mpr ⟨(steps, _), ?_, rfl⟩,
        ⟨h.base.index_eq, rfl, hlabel, rfl, h.base.declared, .nil⟩⟩
      rw [planCalls_definition, h.base.calls_eq, h.base.index_eq]
      exact hsteps
  | some inline =>
    rw [hn] at hplan hinline
    cases hn' : n'.inline with
    | none => rw [hn'] at hinline; cases hinline
    | some inline' =>
      rw [hn'] at hinline
      cases hinline with
      | some hmodels =>
        dsimp only at hplan ⊢
        unfold planInline at hplan ⊢
        dsimp only at hplan ⊢
        rw [indices_eq_of_redeclares hmodels.lines, h.base.index_eq, hmodels.name, hlabel]
        split at hplan
        · obtain ⟨rfl, rfl⟩ := Prod.mk.inj (pure_eq_ok_iff.mp hplan)
          exact ⟨_, rfl, ⟨rfl, rfl, rfl, rfl, h.base.declared, .nil⟩⟩
        · cases hplan
        · obtain ⟨⟨steps, checkpoints, found⟩, hlines, hplan⟩ := bind_eq_ok_iff.mp hplan
          obtain ⟨rfl, rfl⟩ := Prod.mk.inj (pure_eq_ok_iff.mp hplan)
          obtain ⟨checkpoints', hlines', hrestated⟩ :=
            planLines_redeclares d' hmodels.lines hW hlines
          exact ⟨_, bind_eq_ok_iff.mpr ⟨_, hlines', rfl⟩,
            ⟨rfl, rfl, rfl, rfl, h.base.declared, hrestated⟩⟩

variable (d') in
/-- The plan of several nodes has other declarations only. -/
theorem planNodes_redeclares {plan : List PlannedNode}
    (h : List.Forall₂ (NodeSpec.Redeclares W) nodes nodes')
    (hW : ∀ declared, ¬ W none (some declared))
    (hplan : planNodes model nodes = .ok (plan, errors)) :
    ∃ plan', planNodes { model with definition := d' } nodes' = .ok (plan', errors) ∧
      List.Forall₂ (PlannedNode.Restated W) plan plan' := by
  induction h generalizing plan errors with
  | nil =>
    obtain ⟨rfl, rfl⟩ := Prod.mk.inj (pure_eq_ok_iff.mp hplan)
    exact ⟨[], rfl, .nil⟩
  | cons hn _ ih =>
    obtain ⟨planned, found, others, more, hplanned, hothers, rfl, rfl⟩ :=
      planNodes_cons_eq_ok_iff.mp hplan
    obtain ⟨planned', hplanned', hrestated⟩ := hn.planNode d' hW hplanned
    obtain ⟨others', hothers', hall⟩ := ih hothers
    exact ⟨planned' :: others', planNodes_cons_eq_ok_iff.mpr
      ⟨planned', found, others', more, hplanned', hothers', rfl, rfl⟩, .cons hrestated hall⟩

/-- Numbers that count up from a number start with it. -/
theorem eq_of_checkIndices {enclosing : Option Int} {expected index : Int} {rest : List Int}
    (h : checkIndices enclosing expected (index :: rest) = .ok ()) : index = expected := by
  unfold checkIndices at h
  split at h
  · assumption
  · cases h

/-- The plan of a definition with other declarations has other declarations only, and the same
input. -/
theorem Definition.Redeclares.planModel {plan : List PlannedNode} (h : d.Redeclares W d')
    (hd : model.definition = d) (hW : ∀ declared, ¬ W none (some declared))
    (hplan : Shapeline.planModel model = .ok plan) :
    ∃ plan', Shapeline.planModel { model with definition := d' } = .ok plan' ∧
      List.Forall₂ (PlannedNode.Restated W) plan plan' ∧
      plan'.head?.bind (·.declared) = plan.head?.bind (·.declared) := by
  subst hd
  have hnodes := h.nodes
  unfold Shapeline.planModel at hplan ⊢
  obtain ⟨_, hindices, hplan⟩ := bind_eq_ok_iff.mp hplan
  have hindices' : d'.nodes.map (·.index) = model.definition.nodes.map (·.index) := by
    clear hplan hindices
    generalize model.definition.nodes = nodes at hnodes ⊢
    generalize d'.nodes = nodes' at hnodes ⊢
    induction hnodes with
    | nil => rfl
    | cons hn _ ih => rw [List.map_cons, List.map_cons, hn.base.index_eq, ih]
  dsimp only at hplan ⊢
  rw [hindices', hindices]
  generalize model.definition.nodes = nodes at hnodes hindices hplan ⊢
  generalize d'.nodes = nodes' at hnodes ⊢
  cases hnodes with
  | nil => cases hplan
  | @cons first first' rest rest' hfirst hrest =>
    have hzero : first.index = 0 := eq_of_checkIndices hindices
    have hinput : first'.declared = first.declared := hfirst.input (by omega)
    dsimp only at hplan ⊢
    rw [hinput]
    split at hplan
    · cases hplan
    · rename_i hsome
      obtain ⟨⟨planned, found⟩, hplanned, hplan⟩ := bind_eq_ok_iff.mp hplan
      cases found with
      | cons _ _ => cases hplan
      | nil =>
        obtain rfl := pure_eq_ok_iff.mp hplan
        obtain ⟨planned', hplanned', hrestated⟩ :=
          planNodes_redeclares d' (.cons hfirst hrest) hW hplanned
        refine ⟨planned', ?_, hrestated, ?_⟩
        · show (if first.declared.isNone = true then _ else _) = _
          rw [if_neg hsome]
          exact bind_eq_ok_iff.mpr ⟨_, hplanned', rfl⟩
        · obtain ⟨p, _, ⟨_, hp⟩, -, rfl⟩ :=
            List.forall₂_cons_left_iff.mp (exists_of_planNodes hplanned)
          obtain ⟨p', _, ⟨_, hp'⟩, -, rfl⟩ :=
            List.forall₂_cons_left_iff.mp (exists_of_planNodes hplanned')
          exact (planNode_eq_ok hp').1.trans (hinput.trans (planNode_eq_ok hp).1.symm)

end Shapeline
