import Shapeline.Proofs.Unrolling.Planning

/-!
# The precedence of the three tiers

The value of a parameter in a step comes from the highest tier that assigns one: the overrides at
the node, the override blocks of the model or the defaults of the layer type. The blocks for a layer
type count together wherever they stand in the model, and so do the nodes of an inline model.
Nothing else is in the parameters of a step. For this a key must not be that of two parameters, and
in the layer types of the standard library none is.
-/

namespace Shapeline

/-- The keys under which a parameter may be set: its name and its short name. -/
def ParameterSpec.keys (spec : ParameterSpec) : List String := spec.name :: spec.shortName.toList

/-- No key is that of two parameters. -/
def LayerType.Unambiguous (layer : LayerType) : Prop :=
  layer.parameters.Pairwise fun spec other => ∀ key ∈ spec.keys, key ∉ other.keys

variable {layer : LayerType} {spec other : ParameterSpec} {key name : String}
  {assignments : List Assignment} {entries : List (String × Value)} {model : ResolvedModel}
  {node : Int} {calls : List CallSpec} {lines : List LineSpec} {steps : List PlannedStep}
  {checkpoints : List Checkpoint} {done : Nat} {n : NodeSpec} {planned : PlannedNode}
  {registry : Registry} {definition : Definition} {call : CallSpec} {step : PlannedStep}

/-- A parameter answers to its keys. -/
theorem ParameterSpec.answersTo_iff : spec.answersTo key = true ↔ key ∈ spec.keys := by
  simp [answersTo, keys]

/-- A parameter that is found under a key is one of the layer type and has the key. -/
theorem LayerType.mem_of_spec? (h : layer.spec? key = some spec) :
    spec ∈ layer.parameters ∧ key ∈ spec.keys := by
  have hanswers := List.find?_some h
  exact ⟨List.mem_of_find?_eq_some h, ParameterSpec.answersTo_iff.mp hanswers⟩

namespace LayerType.Unambiguous

/-- A key is that of one parameter at most. -/
theorem eq_of_mem_keys (hlayer : layer.Unambiguous) (hspec : spec ∈ layer.parameters)
    (hother : other ∈ layer.parameters) (hkey : key ∈ spec.keys) (hkey' : key ∈ other.keys) :
    spec = other := by
  by_contra hne
  have hsymm : Std.Symm fun spec other : ParameterSpec => ∀ key ∈ spec.keys, key ∉ other.keys :=
    ⟨fun _ _ h key hother hspec => h key hspec hother⟩
  exact List.Pairwise.forall hlayer hspec hother hne key hkey hkey'

/-- A parameter is determined by its name. -/
theorem eq_of_name_eq (hlayer : layer.Unambiguous) (hspec : spec ∈ layer.parameters)
    (hother : other ∈ layer.parameters) (hname : spec.name = other.name) : spec = other :=
  hlayer.eq_of_mem_keys hspec hother List.mem_cons_self (hname ▸ List.mem_cons_self)

/-- The defaults are those of the parameters that have one. -/
theorem get?_defaults (hlayer : layer.Unambiguous) (hspec : spec ∈ layer.parameters) :
    layer.defaults.get? spec.name = if spec.isRequired then none else some spec.default := by
  unfold defaults
  cases hrequired : spec.isRequired with
  | true =>
    by_contra hsome
    obtain ⟨value, hvalue⟩ := Option.ne_none_iff_exists'.mp hsome
    obtain ⟨other, hother, hentry⟩ := List.mem_map.mp (Dictionary.mem_of_get?_ofList hvalue)
    obtain ⟨hmem, hdefault⟩ := List.mem_filter.mp hother
    obtain rfl := hlayer.eq_of_name_eq hmem hspec (Prod.mk.inj hentry).1
    simp [hrequired] at hdefault
  | false =>
    have hdistinct : (((layer.parameters.filter (!·.isRequired)).map fun spec =>
        (spec.name, spec.default)).map Prod.fst).Nodup := by
      rw [List.map_map, List.Nodup, List.pairwise_map]
      refine (hlayer.imp fun {spec other} h hname => ?_).filter _
      exact h spec.name List.mem_cons_self (List.mem_cons.mpr (Or.inl hname))
    refine Dictionary.mem_entries_iff.mp ?_
    rw [Dictionary.entries_ofList hdistinct]
    exact List.mem_map.mpr ⟨spec, List.mem_filter.mpr ⟨hspec, by simp [hrequired]⟩, rfl⟩

/-- Assignments that are accepted give a parameter the value that is assigned under one of its keys,
and keep it if there is none. -/
theorem get?_insertAll (hlayer : layer.Unambiguous) (hspec : spec ∈ layer.parameters)
    (h : layer.Accepts [] assignments entries) (base : Parameters) :
    (∀ a ∈ assignments, a.key ∈ spec.keys →
      (base.insertAll entries).get? spec.name = some a.value) ∧
    ((∀ a ∈ assignments, a.key ∉ spec.keys) →
      (base.insertAll entries).get? spec.name = base.get? spec.name) := by
  let assigned : Parameters := ⟨entries, h.distinct⟩
  have hget : (base.insertAll entries).get? spec.name =
      (assigned.get? spec.name).or (base.get? spec.name) := by
    change (base.insertAll assigned.entries).get? spec.name = _
    exact Dictionary.get?_insertAll_entries
  refine ⟨fun a ha hkey => ?_, fun hnone => ?_⟩
  · obtain ⟨entry, hentry, found, hfound, -, rfl⟩ := exists_of_mem_left h.sets ha
    obtain ⟨hmem, hfoundKey⟩ := mem_of_spec? hfound
    obtain rfl := hlayer.eq_of_mem_keys hspec hmem hkey hfoundKey
    have hassigned : assigned.get? spec.name = some a.value := Dictionary.mem_entries_iff.mp hentry
    rw [hget, hassigned, Option.some_or]
  · have hassigned : assigned.get? spec.name = none := by
      by_contra hsome
      obtain ⟨value, hvalue⟩ := Option.ne_none_iff_exists'.mp hsome
      obtain ⟨a, ha, found, hfound, -, hentry⟩ :=
        exists_of_mem_right h.sets (Dictionary.mem_entries_iff.mpr hvalue)
      obtain ⟨hmem, hfoundKey⟩ := mem_of_spec? hfound
      obtain rfl := hlayer.eq_of_name_eq hspec hmem (Prod.mk.inj hentry).1
      exact hnone a ha hfoundKey
    rw [hget, hassigned, Option.none_or]

end LayerType.Unambiguous

/-- The defaults are values of parameters. -/
theorem LayerType.mem_parameterNames_of_defaults {value : Value}
    (h : layer.defaults.get? name = some value) : name ∈ layer.parameterNames := by
  obtain ⟨spec, hspec, hentry⟩ := List.mem_map.mp (Dictionary.mem_of_get?_ofList h)
  exact List.mem_map.mpr ⟨spec, (List.mem_filter.mp hspec).1, (Prod.mk.inj hentry).1⟩

/-- Assignments that are accepted give values to parameters of the layer type only. -/
theorem LayerType.Accepts.mem_parameterNames (h : layer.Accepts [] assignments entries)
    {base : Parameters} {value : Value} (hget : (base.insertAll entries).get? name = some value) :
    name ∈ layer.parameterNames ∨ base.get? name = some value := by
  refine (Dictionary.mem_of_get?_insertAll hget).imp_left fun hentry => ?_
  obtain ⟨a, -, spec, hspec, -, heq⟩ := exists_of_mem_right h.sets hentry
  exact List.mem_map.mpr ⟨spec, (mem_of_spec? hspec).1, (Prod.mk.inj heq).1.symm⟩

/-- The uses of layers that a node is planned from: those of its inline model, if it holds one. -/
def NodeSpec.applied (n : NodeSpec) : List CallSpec :=
  match n.inline with
  | some inline => inline.calls
  | none => n.calls

/-- The steps of uses of layers are made by them, one by one. -/
theorem makes_of_planCalls (h : planCalls model node calls = .ok (steps, [])) :
    List.Forall₂ (CallSpec.Makes model) (calls.flatMap CallSpec.unrolled) steps := by
  induction calls generalizing steps with
  | nil => exact planCalls_nil_eq_nil_iff.mp h ▸ .nil
  | cons call rest ih =>
    obtain ⟨first, others, hfirst, hothers, rfl⟩ := planCalls_cons_eq_nil_iff.mp h
    obtain ⟨step, hstep, rfl⟩ := planCall_eq_nil_iff.mp hfirst
    have hsame : List.Forall₂ (CallSpec.Makes model) call.unrolled
        (List.replicate call.repetitions step) := by
      unfold CallSpec.unrolled
      generalize call.repetitions = count
      induction count with
      | zero => exact .nil
      | succ count ihCount => exact .cons hstep ihCount
    exact List.rel_append hsame (ih hothers)

/-- The steps of an inline model are those of the uses of layers in all its nodes. -/
theorem planCalls_of_planLines
    (h : planLines model node done lines = .ok (steps, checkpoints, [])) :
    planCalls model node (lines.flatMap (·.calls)) = .ok (steps, []) := by
  induction lines generalizing done steps checkpoints with
  | nil => exact planCalls_nil_eq_nil_iff.mpr (Prod.mk.inj (pure_eq_ok_iff.mp h)).1
  | cons line rest ih =>
    obtain ⟨first, others, later, hfirst, hothers, rfl, -⟩ := planLines_cons_eq_nil_iff.mp h
    exact planCalls_append_eq_nil_iff.mpr ⟨first, others, hfirst, ih hothers, rfl⟩

/-- The steps of a node are made by the uses of layers that it is planned from. -/
theorem makes_of_planNode (h : planNode model n = .ok (planned, [])) :
    List.Forall₂ (CallSpec.Makes model) (n.applied.flatMap CallSpec.unrolled) planned.steps := by
  unfold NodeSpec.applied
  cases hinline : n.inline with
  | none =>
    obtain ⟨steps, hsteps, rfl⟩ := (planNode_plain_iff hinline).mp h
    exact makes_of_planCalls hsteps
  | some inline =>
    obtain ⟨-, steps, checkpoints, hlines, rfl⟩ := (planNode_inline_iff hinline).mp h
    exact makes_of_planCalls (planCalls_of_planLines hlines)

/-- The value of a parameter comes from the highest tier that assigns one. -/
structure ParameterSpec.Settled (spec : ParameterSpec) (overrides blocks : List Assignment)
    (value : Option Value) : Prop where
  /-- What the overrides at the node assign counts first. -/
  override : ∀ a ∈ overrides, a.key ∈ spec.keys → value = some a.value
  /-- What the override blocks assign counts next. -/
  block : (∀ a ∈ overrides, a.key ∉ spec.keys) →
    ∀ a ∈ blocks, a.key ∈ spec.keys → value = some a.value
  /-- The default counts last, and without one there is no value. -/
  default : (∀ a ∈ overrides, a.key ∉ spec.keys) → (∀ a ∈ blocks, a.key ∉ spec.keys) →
    value = if spec.isRequired then none else some spec.default

/-- A step applies the layer type of a use in a definition, with parameters from the three tiers and
no others. -/
structure CallSpec.Settles (registry : Registry) (definition : Definition) (call : CallSpec)
    (step : PlannedStep) : Prop where
  /-- The layer type is registered under the name that is used. -/
  layerType : registry.get? call.name = some step.layerType
  /-- The parameters come from the three tiers. -/
  params : ∀ spec ∈ step.layerType.parameters,
    spec.Settled call.overrides (assignmentsFor definition.typeOverrides call.name)
      (step.params.get? spec.name)
  /-- There are no others. -/
  keys : ∀ name value, step.params.get? name = some value → name ∈ step.layerType.parameterNames

/-- A use of a layer in a resolved model makes a step with parameters from the three tiers. -/
theorem CallSpec.Makes.settles (h : call.Makes model step) (hmodel : model.Binds registry)
    (hregistry : ∀ name layer, registry.get? name = some layer → layer.Unambiguous) :
    call.Settles registry model.definition step := by
  obtain ⟨layer, base, entries, hlayer, hbase, haccepts, rfl⟩ := h
  obtain ⟨-, hregistered⟩ := (hmodel.layerTypes _ _).mp hlayer
  obtain ⟨blockEntries, hblocks, hparameters⟩ := hmodel.typeParameters _ _ hlayer
  obtain rfl := Option.some.inj (hbase.symm.trans hparameters)
  have hunambiguous := hregistry _ _ hregistered
  refine ⟨hregistered, fun spec hspec => ?_, fun name value hget => ?_⟩
  · obtain ⟨hset, hkept⟩ := hunambiguous.get?_insertAll hspec haccepts
      (layer.defaults.insertAll blockEntries)
    obtain ⟨hblockSet, hblockKept⟩ := hunambiguous.get?_insertAll hspec hblocks layer.defaults
    refine ⟨hset, fun hnone a ha hkey => (hkept hnone).trans (hblockSet a ha hkey),
      fun hnone hnoBlock => ?_⟩
    exact ((hkept hnone).trans (hblockKept hnoBlock)).trans (hunambiguous.get?_defaults hspec)
  · rcases haccepts.mem_parameterNames hget with hname | hbelow
    · exact hname
    · exact (hblocks.mem_parameterNames hbelow).elim id LayerType.mem_parameterNames_of_defaults

/-- **The overrides at a node take precedence over the override blocks of the model, and these over
the defaults.** Let no layer type of a registry have two parameters with one key. In the plan of a
definition the steps of a node are made by the uses of layers that it is planned from, each as often
as it is repeated. The value of every parameter in a step is the one that the use assigns to it; or
else the one that any override block of the model for the layer type assigns; or else the default;
and the step has no other parameters. -/
theorem parameters_settled (registry : Registry) (definition : Definition) (warn : Bool)
    (model : ResolvedModel) (warnings : List Warning) (plan : List PlannedNode)
    (hregistry : ∀ name layer, registry.get? name = some layer → layer.Unambiguous)
    (hresolved : resolve registry warn definition = .ok (model, warnings))
    (hplanned : planModel model = .ok plan) :
    List.Forall₂ (fun n planned => List.Forall₂ (CallSpec.Settles registry definition)
      (n.applied.flatMap CallSpec.unrolled) planned.steps) definition.nodes plan := by
  have hbinds := binds_of_resolve hresolved
  obtain ⟨hdefinition, -⟩ := resolve_eq_ok hresolved
  obtain ⟨-, -, hnodes⟩ := planModel_eq_ok_iff.mp hplanned
  rw [← hdefinition]
  exact hnodes.imp fun _ _ hnode =>
    (makes_of_planNode hnode).imp fun _ _ hmakes => hmakes.settles hbinds hregistry

/-- Whether keys are those of one parameter is decided by comparing them. -/
instance (layer : LayerType) : Decidable layer.Unambiguous :=
  inferInstanceAs (Decidable (layer.parameters.Pairwise _))

/-- No layer type of the standard library has two parameters with one key. -/
theorem Standard.unambiguous_registry (name : String) (layer : LayerType)
    (h : Standard.registry.get? name = some layer) : layer.Unambiguous := by
  have hall : ∀ layer ∈ layers, layer.Unambiguous := by decide +kernel
  obtain ⟨standard, hmem, heq⟩ := List.mem_map.mp (Dictionary.mem_of_get?_ofList h)
  obtain ⟨-, rfl⟩ := Prod.mk.inj heq
  exact hall standard hmem

/-- A definition in which all three tiers set parameters of a convolution. -/
def tieredDefinition : Definition where
  name := "Tiers"
  imports := ["Convolutions"]
  typeOverrides := [⟨"Conv2d", [⟨"S", .int 2⟩]⟩, ⟨"Conv1d", [⟨"K", .int 7⟩]⟩,
    ⟨"Conv2d", [⟨"bias", .bool false⟩]⟩]
  nodes := [{ index := 0, declared := some ⟨[.const 3, .const 8, .const 8]⟩ },
    { index := 1
      calls := [{ name := "Conv2d", overrides := [⟨stride, .int 1⟩], repetitions := 2 }] },
    { index := 2, inline := some ⟨"Inner", [{ index := 1, calls := [{ name := "Conv2d" }] }]⟩ }]

/-- At the node the stride is overridden; in the inline model it is the one of an override block.
The blocks for one layer type count together. -/
theorem parameters_settled_tieredDefinition :
    ∃ model warnings input outer inner s t u,
      resolve Standard.registry true tieredDefinition = .ok (model, warnings) ∧
      planModel model = .ok [input, outer, inner] ∧ outer.steps = [s, t] ∧ inner.steps = [u] ∧
      s.params.get? stride = some (.int 1) ∧ t.params.get? "bias" = some (.bool false) ∧
      u.params.get? stride = some (.int 2) ∧ u.params.get? kernelSize = some (.int 3) ∧
      u.params.get? inputChannels = none := by
  have hrun : (resolve Standard.registry true tieredDefinition).toOption.any (fun resolved =>
      (planModel resolved.1).toOption.isSome) = true := by
    decide +kernel
  simp only [Option.any_eq_true, Option.isSome_iff_exists, toOption_eq_some_iff] at hrun
  obtain ⟨⟨model, warnings⟩, hresolved, plan, hplanned⟩ := hrun
  have hsettled := parameters_settled Standard.registry tieredDefinition true model warnings plan
    Standard.unambiguous_registry hresolved hplanned
  obtain ⟨input, _, -, hnodes, rfl⟩ := List.forall₂_cons_left_iff.mp hsettled
  obtain ⟨outer, _, houter, hothers, rfl⟩ := List.forall₂_cons_left_iff.mp hnodes
  obtain ⟨inner, _, hinner, hnone, rfl⟩ := List.forall₂_cons_left_iff.mp hothers
  obtain rfl := List.forall₂_nil_left_iff.mp hnone
  obtain ⟨s, _, hs, hsecond, houterSteps⟩ := List.forall₂_cons_left_iff.mp houter
  obtain ⟨t, _, ht, hend, rfl⟩ := List.forall₂_cons_left_iff.mp hsecond
  obtain rfl := List.forall₂_nil_left_iff.mp hend
  obtain ⟨u, _, hu, hinnerEnd, hinnerSteps⟩ := List.forall₂_cons_left_iff.mp hinner
  obtain rfl := List.forall₂_nil_left_iff.mp hinnerEnd
  have hlayer (call : CallSpec) (step : PlannedStep) (hname : call.name = "Conv2d")
      (hstep : call.Settles Standard.registry tieredDefinition step) (i : Nat) (hi : i < 5) :
      (Standard.convolution "Conv2d" 2).parameters[i].Settled call.overrides
        [⟨"S", .int 2⟩, ⟨"bias", .bool false⟩]
        (step.params.get? (Standard.convolution "Conv2d" 2).parameters[i].name) := by
    obtain ⟨hregistered, hparams, -⟩ := hstep
    rw [hname] at hregistered hparams
    have hsame : Standard.convolution "Conv2d" 2 = step.layerType := Option.some.inj hregistered
    exact hparams _ (hsame ▸ List.getElem_mem _)
  refine ⟨model, warnings, input, outer, inner, s, t, u, hresolved, hplanned, houterSteps,
    hinnerSteps, ?_, ?_, ?_, ?_, ?_⟩
  · exact (hlayer _ s rfl hs 3 (by decide)).override ⟨stride, .int 1⟩ (by simp)
      List.mem_cons_self
  · exact (hlayer _ t rfl ht 4 (by decide)).block (by decide) ⟨"bias", .bool false⟩ (by simp)
      List.mem_cons_self
  · exact (hlayer _ u rfl hu 3 (by decide)).block nofun ⟨"S", .int 2⟩ (by simp) (by decide)
  · exact (hlayer _ u rfl hu 2 (by decide)).default nofun (by decide)
  · exact (hlayer _ u rfl hu 0 (by decide)).default nofun (by decide)

end Shapeline
