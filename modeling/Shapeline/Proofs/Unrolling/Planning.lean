import Shapeline.Proofs.Planned
import Shapeline.Proofs.Redeclaration.Planning
import Shapeline.Proofs.Resolvable

/-!
# Plans of unrolled definitions

A use of a layer with a number of repetitions stands for that many uses in a row, and an inline
model whose nodes declare no shapes stands for the uses of all its nodes in a row. A definition that
spells them out is resolved together with the one that does not, and has the same plan: only the
labels and the names of the inline models differ.
-/

namespace Shapeline

/-- The uses that a use with repetitions stands for. -/
def CallSpec.unrolled (call : CallSpec) : List CallSpec :=
  List.replicate call.repetitions { call with repetitions := 1 }

/-- A node with its repetitions spelled out. -/
def LineSpec.unrolled (line : LineSpec) : LineSpec :=
  { line with calls := line.calls.flatMap CallSpec.unrolled }

/-- The uses of layers in the nodes of an inline model. -/
def InlineSpec.calls (inline : InlineSpec) : List CallSpec := inline.lines.flatMap (·.calls)

/-- An inline model with the repetitions in its nodes spelled out. -/
def InlineSpec.unrolled (inline : InlineSpec) : InlineSpec :=
  { inline with lines := inline.lines.map LineSpec.unrolled }

/-- The layers of a node are spelled out. -/
inductive NodeSpec.UnrollsLayers (n n' : NodeSpec) : Prop
  /-- A node without inline model has its repetitions spelled out. -/
  | plain (old : n.inline = none) (new : n'.inline = none)
    (calls : n'.calls = n.calls.flatMap CallSpec.unrolled)
  /-- A node whose inline model declares no shapes has the layers of the model. -/
  | shapeless (inline : InlineSpec) (old : n.inline = some inline) (new : n'.inline = none)
    (undeclared : ∀ line ∈ inline.lines, line.declared = none)
    (calls : n'.calls = inline.calls.flatMap CallSpec.unrolled)
  /-- A node keeps its inline model, with the repetitions spelled out. -/
  | inline (inline : InlineSpec) (old : n.inline = some inline)
    (new : n'.inline = some inline.unrolled) (calls : n'.calls = n.calls)

/-- A node is the unrolled form of another one, up to its label. -/
structure NodeSpec.Unrolls (n n' : NodeSpec) : Prop where
  /-- The numbers are equal. -/
  index : n'.index = n.index
  /-- The declared shapes are equal. -/
  declared : n'.declared = n.declared
  /-- The layers are spelled out. -/
  layers : n.UnrollsLayers n'

/-- A definition is the unrolled form of another one, up to the labels. -/
structure Definition.Unrolls (d d' : Definition) : Prop where
  /-- All but the nodes is equal. -/
  same : d' = { d with nodes := d'.nodes }
  /-- The nodes are unrolled. -/
  nodes : List.Forall₂ NodeSpec.Unrolls d.nodes d'.nodes

/-- Every layer of a node is applied once at least, and a node with an inline model has no layers of
its own and numbers the nodes of the model from one. -/
structure NodeSpec.Regular (n : NodeSpec) : Prop where
  /-- Every layer is applied once at least. -/
  repeated : ∀ call ∈ n.uses, 1 ≤ call.repetitions
  /-- A node with an inline model has no layers of its own. -/
  layerless : ∀ inline, n.inline = some inline → n.calls = []
  /-- The nodes of an inline model are numbered from one. -/
  numbered : ∀ inline, n.inline = some inline →
    checkIndices (some n.index) 1 (inline.lines.map (·.index)) = .ok ()

/-- Two planned nodes are equal up to their labels and the names of their inline models. -/
def PlannedNode.Retitles (planned planned' : PlannedNode) : Prop :=
  planned' = { planned with label := planned'.label, submodel := planned'.submodel }

/-- Which of two planned nodes comes first does not matter. -/
theorem PlannedNode.Retitles.symm {planned planned' : PlannedNode} (h : planned.Retitles planned') :
    planned'.Retitles planned := by
  unfold Retitles
  rw [h]

variable {registry : Registry} {warn : Bool} {warnings : List Warning} {model : ResolvedModel}
  {d d' : Definition} {n n' : NodeSpec} {call : CallSpec} {calls : List CallSpec} {node : Int}
  {steps : List PlannedStep} {checkpoints : List Checkpoint} {lines : List LineSpec} {done : Nat}
  {inline : InlineSpec} {planned planned' : PlannedNode} {plan : List PlannedNode} {name : String}

/-- The uses that uses stand for are of the same layers. -/
theorem mem_names_unrolled (h : ∀ call ∈ calls, 1 ≤ call.repetitions) :
    name ∈ (calls.flatMap CallSpec.unrolled).map (·.name) ↔ name ∈ calls.map (·.name) := by
  simp only [List.mem_map, List.mem_flatMap, CallSpec.unrolled, List.mem_replicate]
  constructor
  · rintro ⟨_, ⟨call, hcall, -, rfl⟩, rfl⟩
    exact ⟨call, hcall, rfl⟩
  · rintro ⟨call, hcall, rfl⟩
    have hrepeated := h call hcall
    exact ⟨_, ⟨call, hcall, by omega, rfl⟩, rfl⟩

/-- The layers that a node uses are those of its uses. -/
theorem NodeSpec.layerNames_eq : n.layerNames = n.uses.map (·.name) := by
  rw [layerNames, uses, List.map_append, List.map_flatMap]

/-- The uses of an unrolled node are those that the uses of the node stand for. -/
theorem NodeSpec.Unrolls.uses_eq (h : n.Unrolls n') (hn : n.Regular) :
    n'.uses = n.uses.flatMap CallSpec.unrolled := by
  cases h.layers with
  | plain old new calls => simp [uses, inner, old, new, calls]
  | shapeless inline old new _ calls =>
    simp [uses, inner, old, new, calls, hn.layerless inline old, InlineSpec.calls]
  | inline inline old new calls =>
    simp [uses, inner, old, new, calls, hn.layerless inline old, List.flatMap_map,
      List.flatMap_assoc, InlineSpec.unrolled, LineSpec.unrolled]

/-- The layers that a node uses stay. -/
theorem NodeSpec.Unrolls.mem_layerNames_iff (h : n.Unrolls n') (hn : n.Regular) :
    name ∈ n'.layerNames ↔ name ∈ n.layerNames := by
  rw [layerNames_eq, layerNames_eq, h.uses_eq hn]
  exact mem_names_unrolled hn.repeated

/-- The input shape stays. -/
theorem Definition.Unrolls.inputShape_eq (h : d.Unrolls d') : d'.inputShape = d.inputShape := by
  have hmap := Definition.inputShape_eq_map (f := id) (h.nodes.imp fun n n' hn =>
    ⟨hn.index, by rw [hn.declared, Option.map_id_fun, id_eq]⟩)
  rwa [Option.map_id_fun, id_eq] at hmap

/-- Resolution looks at the nodes of a definition for the layers that they use only. -/
theorem resolve_of_layerNames {nodes : List NodeSpec}
    (h : resolve registry warn d = .ok (model, warnings))
    (hnodes : ∀ n' ∈ nodes, n'.index ≠ 0 → ∀ name ∈ n'.layerNames,
      ∃ n ∈ d.nodes, n.index ≠ 0 ∧ name ∈ n.layerNames) :
    ∃ warnings', resolve registry warn { d with nodes } =
      .ok ({ model with definition := { d with nodes } }, warnings') := by
  obtain ⟨layers, overrides, hlayers, hoverrides, himports, hnil, hreferences, hvariables, rfl,
    -⟩ := resolve_eq_ok_iff.mp h
  have hscope : checkReferences registry (resolveImports registry d.imports).1 nodes = [] := by
    refine checkReferences_eq_nil_iff.mpr fun n' hn' hindex name hname => ?_
    obtain ⟨n, hn, hindex, hname⟩ := hnodes n' hn' hindex name hname
    exact checkReferences_eq_nil_iff.mp hreferences n hn hindex name hname
  exact ⟨_, resolve_eq_ok_iff.mpr ⟨layers, overrides, hlayers, hoverrides, himports, hnil, hscope,
    hvariables, rfl, rfl⟩⟩

/-- An unrolled definition uses the layers that the definition uses. -/
theorem Definition.Unrolls.layerNames (h : d.Unrolls d') (hd : ∀ n ∈ d.nodes, n.Regular) :
    (∀ n' ∈ d'.nodes, n'.index ≠ 0 → ∀ name ∈ n'.layerNames,
      ∃ n ∈ d.nodes, n.index ≠ 0 ∧ name ∈ n.layerNames) ∧
    ∀ n ∈ d.nodes, n.index ≠ 0 → ∀ name ∈ n.layerNames,
      ∃ n' ∈ d'.nodes, n'.index ≠ 0 ∧ name ∈ n'.layerNames := by
  constructor
  · intro n' hn' hindex name hname
    obtain ⟨n, hn, hunrolls⟩ := exists_of_mem_right h.nodes hn'
    exact ⟨n, hn, hunrolls.index ▸ hindex, (hunrolls.mem_layerNames_iff (hd n hn)).mp hname⟩
  · intro n hn hindex name hname
    obtain ⟨n', hn', hunrolls⟩ := exists_of_mem_left h.nodes hn
    exact ⟨n', hn', hunrolls.index ▸ hindex, (hunrolls.mem_layerNames_iff (hd n hn)).mpr hname⟩

/-- Uses of a layer in a row make the steps that one use with as many repetitions makes. -/
theorem planCalls_replicate_iff {count : Nat} :
    planCalls model node (List.replicate (count + 1) { call with repetitions := 1 }) =
        .ok (steps, []) ↔
      planCall model node { call with repetitions := count + 1 } = .ok (steps, []) := by
  induction count generalizing steps with
  | zero =>
    rw [List.replicate_one, planCalls_cons_eq_nil_iff]
    simp [planCalls_nil_eq_nil_iff]
  | succ count ih =>
    rw [List.replicate_succ, planCalls_cons_eq_nil_iff]
    simp only [ih]
    simp only [planCall_eq_nil_iff]
    constructor
    · rintro ⟨_, _, ⟨step, hstep, rfl⟩, ⟨step', hstep', rfl⟩, rfl⟩
      obtain rfl : step = step' := hstep.unique hstep'
      exact ⟨step, hstep, (List.replicate_succ ..).symm⟩
    · rintro ⟨step, hstep, rfl⟩
      exact ⟨_, _, ⟨step, hstep, rfl⟩, ⟨step, hstep, rfl⟩, List.replicate_succ ..⟩

/-- Unrolled uses of layers make the same steps. -/
theorem planCalls_unrolled_iff (h : ∀ call ∈ calls, 1 ≤ call.repetitions) :
    planCalls model node (calls.flatMap CallSpec.unrolled) = .ok (steps, []) ↔
      planCalls model node calls = .ok (steps, []) := by
  induction calls generalizing steps with
  | nil => rfl
  | cons call rest ih =>
    obtain ⟨hcall, hrest⟩ := List.forall_mem_cons.mp h
    obtain ⟨count, hcount⟩ := Nat.exists_eq_add_of_le' hcall
    have hunrolled (made : List PlannedStep) :
        planCalls model node call.unrolled = .ok (made, []) ↔
          planCall model node call = .ok (made, []) := by
      have hone : planCalls model node
            (List.replicate (count + 1) { call with repetitions := 1 }) = .ok (made, []) ↔
          planCall model node { call with repetitions := count + 1 } = .ok (made, []) :=
        planCalls_replicate_iff
      rw [← hcount] at hone
      exact hone
    rw [List.flatMap_cons, planCalls_append_eq_nil_iff, planCalls_cons_eq_nil_iff]
    simp only [ih hrest, hunrolled]

/-- Unrolled nodes of an inline model make the same steps and checkpoints. -/
theorem planLines_unrolled_iff (h : ∀ line ∈ lines, ∀ call ∈ line.calls, 1 ≤ call.repetitions) :
    planLines model node done (lines.map LineSpec.unrolled) = .ok (steps, checkpoints, []) ↔
      planLines model node done lines = .ok (steps, checkpoints, []) := by
  induction lines generalizing done steps checkpoints with
  | nil => rfl
  | cons line rest ih =>
    obtain ⟨hline, hrest⟩ := List.forall_mem_cons.mp h
    rw [List.map_cons, planLines_cons_eq_nil_iff, planLines_cons_eq_nil_iff]
    simp only [ih hrest, LineSpec.unrolled, planCalls_unrolled_iff hline]

/-- The nodes of an inline model that declare no shapes make the steps of all their uses and no
checkpoint. -/
theorem planLines_shapeless_iff (h : ∀ line ∈ lines, line.declared = none) :
    planLines model node done lines = .ok (steps, checkpoints, []) ↔
      planCalls model node (lines.flatMap (·.calls)) = .ok (steps, []) ∧ checkpoints = [] := by
  induction lines generalizing done steps checkpoints with
  | nil => simp [planLines, planCalls, pure, Except.pure, eq_comm]
  | cons line rest ih =>
    obtain ⟨hline, hrest⟩ := List.forall_mem_cons.mp h
    rw [planLines_cons_eq_nil_iff, List.flatMap_cons, planCalls_append_eq_nil_iff, hline]
    simp only [ih hrest, Option.toList_none, List.map_nil, List.nil_append]
    constructor
    · rintro ⟨first, others, later, hfirst, ⟨hothers, rfl⟩, rfl, rfl⟩
      exact ⟨⟨first, others, hfirst, hothers, rfl⟩, rfl⟩
    · rintro ⟨⟨first, others, hfirst, hothers, rfl⟩, rfl⟩
      exact ⟨first, others, [], hfirst, ⟨hothers, rfl⟩, rfl, rfl⟩

/-- An unrolled node has the same plan, up to its names. -/
theorem NodeSpec.Unrolls.planNode_iff (h : n.Unrolls n') (hn : n.Regular) :
    planNode model n' = .ok (planned', []) ↔ ∃ planned,
      planNode model n = .ok (planned, []) ∧
        planned' = { planned with label := n'.label, submodel := n'.inline.map (·.name) } := by
  have hcalls : ∀ call ∈ n.calls, 1 ≤ call.repetitions :=
    fun call hcall => hn.repeated call (List.mem_append_left _ hcall)
  have hinner (inline : InlineSpec) (hinline : n.inline = some inline) :
      ∀ line ∈ inline.lines, ∀ call ∈ line.calls, 1 ≤ call.repetitions := by
    intro line hline call hcall
    refine hn.repeated call (List.mem_append_right _ (List.mem_flatMap.mpr ⟨line, ?_, hcall⟩))
    rw [inner, hinline]
    exact hline
  cases h.layers with
  | plain old new calls =>
    rw [planNode_plain_iff new]
    simp only [planNode_plain_iff old, h.index, h.declared, calls, planCalls_unrolled_iff hcalls,
      new, Option.map_none]
    constructor
    · rintro ⟨steps, hsteps, rfl⟩
      exact ⟨_, ⟨steps, hsteps, rfl⟩, rfl⟩
    · rintro ⟨_, ⟨steps, hsteps, rfl⟩, rfl⟩
      exact ⟨steps, hsteps, rfl⟩
  | shapeless inline old new undeclared calls =>
    have huses : ∀ call ∈ inline.calls, 1 ≤ call.repetitions := fun call hcall => by
      obtain ⟨line, hline, hcall⟩ := List.mem_flatMap.mp hcall
      exact hinner inline old line hline call hcall
    rw [planNode_plain_iff new]
    simp only [planNode_inline_iff old, h.index, h.declared, calls, hn.numbered inline old,
      true_and, planLines_shapeless_iff undeclared, planCalls_unrolled_iff huses, new,
      Option.map_none]
    constructor
    · rintro ⟨steps, hsteps, rfl⟩
      exact ⟨_, ⟨steps, [], ⟨hsteps, rfl⟩, rfl⟩, rfl⟩
    · rintro ⟨_, ⟨steps, _, ⟨hsteps, rfl⟩, rfl⟩, rfl⟩
      exact ⟨steps, hsteps, rfl⟩
  | inline inline old new calls =>
    have hindices : (inline.lines.map LineSpec.unrolled).map (·.index) =
        inline.lines.map (·.index) := by
      rw [List.map_map]
      rfl
    rw [planNode_inline_iff new]
    simp only [planNode_inline_iff old, h.index, h.declared, InlineSpec.unrolled, hindices,
      hn.numbered inline old, true_and, planLines_unrolled_iff (hinner inline old), new,
      Option.map_some]
    constructor
    · rintro ⟨steps, checkpoints, hlines, rfl⟩
      exact ⟨_, ⟨steps, checkpoints, hlines, rfl⟩, rfl⟩
    · rintro ⟨_, ⟨steps, checkpoints, hlines, rfl⟩, rfl⟩
      exact ⟨steps, checkpoints, hlines, rfl⟩

/-- The plans of an unrolled definition are those of the definition, up to names. -/
theorem Definition.Unrolls.planModel (h : d.Unrolls d') (hd : ∀ n ∈ d.nodes, n.Regular)
    (hmodel : model.definition = d) :
    (∀ plan, Shapeline.planModel model = .ok plan →
      ∃ plan', Shapeline.planModel { model with definition := d' } = .ok plan' ∧
        List.Forall₂ PlannedNode.Retitles plan plan') ∧
    ∀ plan', Shapeline.planModel { model with definition := d' } = .ok plan' →
      ∃ plan, Shapeline.planModel model = .ok plan := by
  subst hmodel
  have hnodes := forall₂_imp_of_mem h.nodes hd (fun _ _ => trivial)
    (S := fun n n' => n.Regular ∧ n.Unrolls n') fun _ _ hunrolls hn _ => ⟨hn, hunrolls⟩
  have hindices : d'.nodes.map (·.index) = model.definition.nodes.map (·.index) :=
    (map_eq_map_of_forall₂ (h.nodes.imp fun _ _ hn => hn.index.symm)).symm
  simp only [planModel_eq_ok_iff, hindices, planNode_definition]
  constructor
  · rintro plan ⟨hnumbered, ⟨first, hfirst, hdeclared⟩, hplan⟩
    obtain ⟨plan', hplan', hretitles⟩ := exists_forall₂_image
      (G := fun n planned => Shapeline.planNode model n = .ok (planned, []))
      (Q := PlannedNode.Retitles) (fun n n' planned hn hplanned => by
        exact ⟨_, (hn.2.planNode_iff hn.1).mpr ⟨planned, hplanned, rfl⟩, rfl⟩) hnodes hplan
    obtain ⟨first', hfirst', hunrolls⟩ := exists_of_head? h.nodes.flip hfirst
    exact ⟨plan', ⟨hnumbered, ⟨first', hfirst', hunrolls.declared ▸ hdeclared⟩, hplan'⟩, hretitles⟩
  · rintro plan' ⟨hnumbered, ⟨first', hfirst', hdeclared⟩, hplan'⟩
    obtain ⟨plan, hplan, -⟩ := exists_forall₂_image
      (G := fun n planned => Shapeline.planNode model n = .ok (planned, []))
      (Q := fun _ _ => True) (fun n' n planned' hn hplanned' => by
        obtain ⟨planned, hplanned, -⟩ := (hn.2.planNode_iff hn.1).mp hplanned'
        exact ⟨planned, hplanned, trivial⟩) hnodes.flip hplan'
    obtain ⟨first, hfirst, hunrolls⟩ := exists_of_head? h.nodes hfirst'
    exact ⟨plan, hnumbered, ⟨first, hfirst, hunrolls.declared ▸ hdeclared⟩, hplan⟩

end Shapeline
