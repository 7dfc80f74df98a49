import Shapeline.Proofs.Overrides
import Shapeline.Proofs.Planning

/-!
# Nodes that are planned

A node is planned without problems exactly if the layers that it uses are in scope and its overrides
are accepted, and the nodes of its inline model are numbered from one. A model is planned exactly if
its nodes are numbered from zero, the first of them declares its shape and each is planned without
problems.
-/

namespace Shapeline

variable {model : ResolvedModel} {node expected : Int} {enclosing : Option Int}
  {indices : List Int} {call : CallSpec} {calls more : List CallSpec} {steps : List PlannedStep}
  {step step' : PlannedStep} {line : LineSpec} {rest : List LineSpec}
  {checkpoints : List Checkpoint} {done : Nat} {n : NodeSpec} {nodes : List NodeSpec}
  {inline : InlineSpec} {planned : PlannedNode} {plan : List PlannedNode}

/-- Numbers are as expected exactly if they count up from the expected number without gaps. -/
theorem checkIndices_eq_ok_iff :
    checkIndices enclosing expected indices = .ok () ↔
      indices = (List.range indices.length).map fun (i : Nat) => expected + i := by
  induction indices generalizing expected with
  | nil => exact iff_of_true rfl rfl
  | cons index rest ih =>
    have hshift : ((fun (i : Nat) => expected + i) ∘ Nat.succ) =
        fun (i : Nat) => expected + 1 + i := by
      funext i
      simp only [Function.comp_apply, Nat.cast_succ]
      omega
    rw [List.length_cons, List.range_succ_eq_map, List.map_cons, List.map_map, hshift,
      List.cons.injEq, ← ih, checkIndices]
    split
    · rename_i hindex
      simp [hindex]
    · rename_i hindex
      exact iff_of_false nofun fun h => hindex (by simpa using h.1)

/-- A use of a layer makes a step: the layer type is in scope and accepts the overrides. -/
def CallSpec.Makes (model : ResolvedModel) (call : CallSpec) (step : PlannedStep) : Prop :=
  ∃ layer base entries, model.layerTypes.get? call.name = some layer ∧
    model.typeParameters.get? call.name = some base ∧ layer.Accepts [] call.overrides entries ∧
    step = ⟨layer, base.insertAll entries⟩

/-- A use of a layer makes one step only. -/
theorem CallSpec.Makes.unique (h : call.Makes model step) (h' : call.Makes model step') :
    step = step' := by
  obtain ⟨layer, base, entries, hlayer, hbase, haccepts, rfl⟩ := h
  obtain ⟨layer', base', entries', hlayer', hbase', haccepts', rfl⟩ := h'
  obtain rfl := Option.some.inj (hlayer.symm.trans hlayer')
  obtain rfl := Option.some.inj (hbase.symm.trans hbase')
  rw [haccepts.unique haccepts']

/-- A use of a layer is planned without problems exactly if it makes a step, which is repeated. -/
theorem planCall_eq_nil_iff :
    planCall model node call = .ok (steps, []) ↔
      ∃ step, call.Makes model step ∧ steps = List.replicate call.repetitions step := by
  unfold planCall
  constructor
  · intro h
    split at h
    · rename_i layer base hlayer hbase
      obtain ⟨merge, hmerge, h⟩ := bind_eq_ok_iff.mp h
      obtain ⟨rfl, hnil⟩ := Prod.mk.inj (pure_eq_ok_iff.mp h)
      obtain ⟨entries, haccepts, rfl⟩ := mergeParameters_iff.mp ⟨hmerge, hnil.symm⟩
      exact ⟨_, ⟨layer, base, entries, hlayer, hbase, haccepts, rfl⟩, rfl⟩
    · cases h
  · rintro ⟨_, ⟨layer, base, entries, hlayer, hbase, haccepts, rfl⟩, rfl⟩
    rw [hlayer, hbase]
    exact bind_eq_ok_iff.mpr ⟨_, (mergeParameters_iff.mpr ⟨entries, haccepts, rfl⟩).1, rfl⟩

/-- Uses of layers are planned without problems if the first is and the others are. -/
theorem planCalls_cons_eq_nil_iff :
    planCalls model node (call :: calls) = .ok (steps, []) ↔ ∃ first others,
      planCall model node call = .ok (first, []) ∧ planCalls model node calls = .ok (others, []) ∧
        steps = first ++ others := by
  rw [planCalls_cons_eq_ok_iff]
  constructor
  · rintro ⟨first, found, others, more, hfirst, hothers, rfl, hnil⟩
    obtain ⟨rfl, rfl⟩ := List.append_eq_nil_iff.mp hnil.symm
    exact ⟨first, others, hfirst, hothers, rfl⟩
  · rintro ⟨first, others, hfirst, hothers, rfl⟩
    exact ⟨first, [], others, [], hfirst, hothers, rfl, rfl⟩

/-- No use of a layer is planned without steps. -/
theorem planCalls_nil_eq_nil_iff : planCalls model node [] = .ok (steps, []) ↔ steps = [] := by
  simp [planCalls, pure, Except.pure, eq_comm]

/-- Uses of layers in a row are planned one after another. -/
theorem planCalls_append_eq_nil_iff :
    planCalls model node (calls ++ more) = .ok (steps, []) ↔ ∃ first second,
      planCalls model node calls = .ok (first, []) ∧ planCalls model node more = .ok (second, []) ∧
        steps = first ++ second := by
  induction calls generalizing steps with
  | nil => simp [planCalls_nil_eq_nil_iff]
  | cons call rest ih =>
    rw [List.cons_append, planCalls_cons_eq_nil_iff]
    constructor
    · rintro ⟨first, others, hfirst, hothers, rfl⟩
      obtain ⟨second, third, hsecond, hthird, rfl⟩ := ih.mp hothers
      exact ⟨first ++ second, third,
        planCalls_cons_eq_nil_iff.mpr ⟨first, second, hfirst, hsecond, rfl⟩, hthird,
        (List.append_assoc ..).symm⟩
    · rintro ⟨begun, third, hbegun, hthird, rfl⟩
      obtain ⟨first, second, hfirst, hsecond, rfl⟩ := planCalls_cons_eq_nil_iff.mp hbegun
      exact ⟨first, second ++ third, hfirst, ih.mpr ⟨second, third, hsecond, hthird, rfl⟩,
        List.append_assoc ..⟩

/-- The nodes of an inline model are planned without problems if the calls of the first are and the
others are. -/
theorem planLines_cons_eq_nil_iff :
    planLines model node done (line :: rest) = .ok (steps, checkpoints, []) ↔
      ∃ first others later, planCalls model node line.calls = .ok (first, []) ∧
        planLines model node (done + first.length) rest = .ok (others, later, []) ∧
        steps = first ++ others ∧
        checkpoints = (line.declared.toList.map fun shape =>
          ⟨done + first.length, line.index, shape⟩) ++ later := by
  constructor
  · intro h
    obtain ⟨⟨first, errors⟩, hfirst, h⟩ := bind_eq_ok_iff.mp h
    obtain ⟨⟨others, later, laterErrors⟩, hothers, h⟩ := bind_eq_ok_iff.mp h
    obtain ⟨rfl, hpair⟩ := Prod.mk.inj (pure_eq_ok_iff.mp h)
    obtain ⟨rfl, hnil⟩ := Prod.mk.inj hpair
    obtain ⟨rfl, rfl⟩ := List.append_eq_nil_iff.mp hnil.symm
    refine ⟨first, others, later, hfirst, hothers, rfl, ?_⟩
    cases line.declared <;> rfl
  · rintro ⟨first, others, later, hfirst, hothers, rfl, rfl⟩
    refine bind_eq_ok_iff.mpr ⟨_, hfirst, bind_eq_ok_iff.mpr ⟨_, hothers, ?_⟩⟩
    cases line.declared <;> rfl

/-- A node without inline model is planned without problems exactly if its calls are. -/
theorem planNode_plain_iff (h : n.inline = none) :
    planNode model n = .ok (planned, []) ↔ ∃ steps,
      planCalls model n.index n.calls = .ok (steps, []) ∧
        planned = { index := n.index, steps, declared := n.declared, label := n.label } := by
  unfold planNode
  rw [h]
  simp only [bind_eq_ok_iff, pure_eq_ok_iff, Prod.mk.injEq, Prod.exists]
  constructor
  · rintro ⟨steps, errors, hsteps, rfl, rfl⟩
    exact ⟨steps, hsteps, rfl⟩
  · rintro ⟨steps, hsteps, rfl⟩
    exact ⟨steps, [], hsteps, rfl, rfl⟩

/-- A node with an inline model is planned without problems exactly if the nodes of the model are
numbered from one and planned without problems. -/
theorem planNode_inline_iff (h : n.inline = some inline) :
    planNode model n = .ok (planned, []) ↔
      checkIndices (some n.index) 1 (inline.lines.map (·.index)) = .ok () ∧
      ∃ steps checkpoints,
        planLines model n.index 0 inline.lines = .ok (steps, checkpoints, []) ∧
        planned = { index := n.index, steps, declared := n.declared, label := n.label,
                    submodel := some inline.name, checkpoints } := by
  unfold planNode
  rw [h]
  unfold planInline
  dsimp only
  constructor
  · intro hplan
    split at hplan
    · cases (Prod.mk.inj (pure_eq_ok_iff.mp hplan)).2
    · cases hplan
    · rename_i hindices
      obtain ⟨⟨steps, checkpoints, errors⟩, hlines, hplan⟩ := bind_eq_ok_iff.mp hplan
      obtain ⟨rfl, rfl⟩ := Prod.mk.inj (pure_eq_ok_iff.mp hplan)
      exact ⟨hindices, steps, checkpoints, hlines, rfl⟩
  · rintro ⟨hindices, steps, checkpoints, hlines, rfl⟩
    rw [hindices]
    exact bind_eq_ok_iff.mpr ⟨_, hlines, rfl⟩

/-- Several nodes are planned without problems exactly if each is. -/
theorem planNodes_eq_nil_iff :
    planNodes model nodes = .ok (plan, []) ↔
      List.Forall₂ (fun n planned => planNode model n = .ok (planned, [])) nodes plan := by
  induction nodes generalizing plan with
  | nil => simp [planNodes, pure, Except.pure, eq_comm]
  | cons n rest ih =>
    rw [List.forall₂_cons_left_iff, planNodes_cons_eq_ok_iff]
    constructor
    · rintro ⟨planned, found, others, more, hplanned, hothers, rfl, hnil⟩
      obtain ⟨rfl, rfl⟩ := List.append_eq_nil_iff.mp hnil.symm
      exact ⟨planned, others, hplanned, ih.mp hothers, rfl⟩
    · rintro ⟨planned, others, hplanned, hothers, rfl⟩
      exact ⟨planned, [], others, [], hplanned, ih.mpr hothers, rfl, rfl⟩

/-- A model is planned exactly if its nodes are numbered from zero, the first declares its shape and
each is planned without problems. -/
theorem planModel_eq_ok_iff :
    planModel model = .ok plan ↔
      checkIndices none 0 (model.definition.nodes.map (·.index)) = .ok () ∧
      (∃ first ∈ model.definition.nodes.head?, first.declared.isSome = true) ∧
      List.Forall₂ (fun n planned => planNode model n = .ok (planned, []))
        model.definition.nodes plan := by
  unfold planModel
  dsimp only
  rw [bind_eq_ok_iff, ← planNodes_eq_nil_iff]
  cases hnodes : model.definition.nodes with
  | nil =>
    refine iff_of_false ?_ fun h => by simp at h
    rintro ⟨_, -, h⟩
    cases h
  | cons first rest =>
    cases hdeclared : first.declared with
    | none =>
      refine iff_of_false ?_ fun h => by simp [hdeclared] at h
      rintro ⟨_, -, h⟩
      simp only [hdeclared, Option.isNone_none] at h
      cases h
    | some shape =>
      simp only [hdeclared, List.head?_cons, Option.isNone_some, Option.mem_some_iff,
        exists_eq_left', Option.isSome_some, true_and]
      constructor
      · rintro ⟨_, hindices, h⟩
        obtain ⟨⟨planned, errors⟩, hplanned, h⟩ := bind_eq_ok_iff.mp h
        cases errors with
        | cons _ _ => cases h
        | nil =>
          obtain rfl := pure_eq_ok_iff.mp h
          exact ⟨hindices, hplanned⟩
      · rintro ⟨hindices, hplanned⟩
        exact ⟨(), hindices, bind_eq_ok_iff.mpr ⟨_, hplanned, rfl⟩⟩

/-- The nodes of a plan have the numbers of their places. -/
theorem index_of_planModel (h : planModel model = .ok plan) {i : Nat}
    (hplanned : plan[i]? = some planned) : planned.index = i := by
  obtain ⟨hindices, _, hnodes⟩ := planModel_eq_ok_iff.mp h
  have hnumbers := checkIndices_eq_ok_iff.mp hindices
  have hsame : model.definition.nodes.map (·.index) = plan.map (·.index) :=
    map_eq_map_of_forall₂ (hnodes.imp fun _ _ hplan => (index_of_planNode hplan).symm)
  have hplace : (plan.map (·.index))[i]? = some planned.index := by
    rw [List.getElem?_map, hplanned, Option.map_some]
  rw [← hsame, hnumbers, List.getElem?_map] at hplace
  obtain ⟨place, hrange, heq⟩ := Option.map_eq_some_iff.mp hplace
  obtain ⟨_, hrange⟩ := List.getElem?_eq_some_iff.mp hrange
  rw [List.getElem_range] at hrange
  rw [← heq, ← hrange, Int.zero_add]

/-- A planned node without inline model has no checkpoints. -/
theorem checkpoints_of_plain (h : planModel model = .ok plan) (hplanned : planned ∈ plan)
    (hplain : planned.submodel = none) : planned.checkpoints = [] := by
  obtain ⟨_, _, hnodes⟩ := planModel_eq_ok_iff.mp h
  obtain ⟨n, _, hnode⟩ := exists_of_mem_right hnodes hplanned
  cases hinline : n.inline with
  | none =>
    obtain ⟨steps, _, rfl⟩ := (planNode_plain_iff hinline).mp hnode
    rfl
  | some inline =>
    obtain ⟨_, steps, checkpoints, _, rfl⟩ := (planNode_inline_iff hinline).mp hnode
    cases hplain

/-- The input shape of a definition depends on the numbers of the nodes and on the shapes that they
declare. -/
theorem Definition.inputShape_eq_map {d d' : Definition} {f : Shape → Shape}
    (h : List.Forall₂ (fun n n' : NodeSpec => n'.index = n.index ∧ n'.declared = n.declared.map f)
      d.nodes d'.nodes) : d'.inputShape = d.inputShape.map f := by
  unfold inputShape
  generalize d.nodes = nodes at h ⊢
  generalize d'.nodes = nodes' at h ⊢
  induction h with
  | nil => rfl
  | cons hn _ ih =>
    obtain ⟨hindex, hdeclared⟩ := hn
    rw [List.find?_cons, List.find?_cons, hindex]
    split
    · exact hdeclared
    · exact ih

end Shapeline
