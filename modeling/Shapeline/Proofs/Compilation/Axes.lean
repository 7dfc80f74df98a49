import Shapeline.Proofs.Compilation.Completion
import Shapeline.Proofs.Compilation.Ranks
import Shapeline.Proofs.Inference.Recording
import Shapeline.Proofs.Precedence
import Shapeline.Proofs.Reported.Lowering

/-!
# Axes of compiled models

A softmax counts its axis from the front. The axis is the one that the model assigns, at the node or
in an override block, and otherwise the last one. An axis that the shape does not have is left as it
is for validation, which finds it unless something else has failed before.
-/

namespace Shapeline

variable {options : Options} {program : Program} {definition : Definition} {model : ResolvedModel}
  {plan : List PlannedNode} {bindings : Dictionary Term} {errors : List Diagnostic}
  {nodes : List GraphNode} {n : GraphNode} {call : CallSpec} {step : PlannedStep} {s : LayerStep}
  {spec : ParameterSpec} {overrides blocks : List Assignment} {v : Value} {name : String}

/-- The names of the layer types that normalize along an axis. -/
def softmaxNames : List String := ["Softmax", "LogSoftmax"]

/-- The axis that is assigned to a use of a softmax: by an override at the node, otherwise by an
override block, and otherwise the last one. -/
def CallSpec.assignedAxis (definition : Definition) (call : CallSpec) : Value :=
  let assignments := call.overrides ++ assignmentsFor definition.typeOverrides call.name
  ((assignments.find? fun a => a.key ∈ [axisParameter, "dim"]).map (·.value)).getD (.int (-1))

/-- The recorded axis of a step counts from the front and is the one that a value stands for. -/
def LayerStep.CountsAxis (s : LayerStep) (v : Value) : Prop :=
  ∃ assigned position : ℤ, v.StandsFor assigned ∧
    -s.input.rank ≤ assigned ∧ assigned < s.input.rank ∧
    s.params.get? axisParameter = some (.int position) ∧ 0 ≤ position ∧ position < s.input.rank ∧
    position ≡ assigned [ZMOD s.input.rank]

/-- The layer type of a step is the one that a use of a layer names. -/
def CallSpec.Names (call : CallSpec) (s : LayerStep) : Prop :=
  s.layerType.map (·.name) = some call.name

/-- A softmax has been recorded for a use with its assigned axis, which the rule has made out as far
as it can. -/
structure CallSpec.KeepsAxis (definition : Definition) (call : CallSpec) (s : LayerStep) :
    Prop where
  /-- The layer type is the one that is named. -/
  layerType : s.layerType = some (Standard.softmax call.name)
  /-- The assigned axis is a number or a term. -/
  isDimension : (call.assignedAxis definition).isDimension = true
  /-- The term lowers. -/
  lowers : (call.assignedAxis definition).TermsSatisfy Term.Lowers
  /-- The axis is recorded. -/
  recorded : s.params.get? axisParameter = some
    ((Rule.mk .softmax 0).recorded s.input.rank axisParameter (call.assignedAxis definition))
  /-- The output has as many axes as the input. -/
  rank : s.output.rank = s.input.rank

/-- A parameter that is a number or a term is given. -/
theorem Parameters.given?_of_isDimension {p : Parameters} (h : p.get? name = some v)
    (hv : v.isDimension = true) : p.given? name = some v := by
  unfold given?
  rw [h]
  cases v <;> first | rfl | cases hv

/-- A parameter with a default has the first value that is assigned to it, at the node or else in
the override blocks, or the default. -/
theorem ParameterSpec.Settled.eq_first {value : Option Value}
    (h : spec.Settled overrides blocks value) (hdefault : spec.isRequired = false) :
    value = some ((((overrides ++ blocks).find? fun a => a.key ∈ spec.keys).map (·.value)).getD
      spec.default) := by
  have hfound {assignments : List Assignment} {a : Assignment}
      (hfind : assignments.find? (fun a => a.key ∈ spec.keys) = some a) :
      a ∈ assignments ∧ a.key ∈ spec.keys :=
    ⟨List.mem_of_find?_eq_some hfind, by simpa using List.find?_some hfind⟩
  have hnone {assignments : List Assignment}
      (hfind : assignments.find? (fun a => a.key ∈ spec.keys) = none) :
      ∀ a ∈ assignments, a.key ∉ spec.keys := by simpa using hfind
  rw [List.find?_append]
  cases hoverride : overrides.find? fun a => a.key ∈ spec.keys with
  | some a =>
    obtain ⟨hmem, hkey⟩ := hfound hoverride
    exact h.override a hmem hkey
  | none =>
    cases hblock : blocks.find? fun a => a.key ∈ spec.keys with
    | some a =>
      obtain ⟨hmem, hkey⟩ := hfound hblock
      exact h.block (hnone hoverride) a hmem hkey
    | none =>
      rw [h.default (hnone hoverride) (hnone hblock), hdefault]
      rfl

namespace Standard

/-- A layer type of the standard library is registered under its name. -/
theorem name_of_get? {layer : LayerType} (h : registry.get? name = some layer) :
    layer.name = name := by
  obtain ⟨standard, -, heq⟩ := List.mem_map.mp (Dictionary.mem_of_get?_ofList h)
  obtain ⟨rfl, rfl⟩ := Prod.mk.inj heq
  rfl

/-- The layer types that normalize along an axis are softmaxes. -/
theorem eq_softmax_of_get? {layer : LayerType} (hname : name ∈ softmaxNames)
    (h : registry.get? name = some layer) : layer = softmax name := by
  simp only [softmaxNames, List.mem_cons, List.not_mem_nil, or_false] at hname
  rcases hname with rfl | rfl <;> exact (Option.some.inj h).symm

end Standard

/-- A step of a softmax has the assigned axis in the plan. -/
theorem CallSpec.Settles.axis (h : call.Settles Standard.registry definition step)
    (hname : call.name ∈ softmaxNames) :
    step.layerType = Standard.softmax call.name ∧
      step.params.get? axisParameter = some (call.assignedAxis definition) := by
  have hlayer := Standard.eq_softmax_of_get? hname h.layerType
  have hparams := h.params
  rw [hlayer] at hparams
  exact ⟨hlayer, (hparams _ (.head _)).eq_first rfl⟩

/-- An axis that is assigned and selects one of the shape is counted from the front. -/
theorem CallSpec.KeepsAxis.counts (h : call.KeepsAxis definition s)
    (hselects : (call.assignedAxis definition).Selects s.input.rank) :
    s.CountsAxis (call.assignedAxis definition) := by
  obtain ⟨assigned, hstands, hlow, hhigh⟩ := hselects
  obtain ⟨hfirst, hlast⟩ := axisPosition_mem_iff.mpr ⟨hlow, hhigh⟩
  refine ⟨assigned, axisPosition s.input.rank assigned, hstands, hlow, hhigh, ?_, hfirst, hlast,
    axisPosition_modEq _ _⟩
  rw [h.recorded, Rule.recorded, if_pos ⟨rfl, rfl⟩,
    resolveAxis_eq_some_iff.mpr ⟨assigned, hstands, hlow, hhigh, rfl⟩]

/-- An axis that is assigned and selects none of the shape is a flaw of the step. -/
theorem CallSpec.KeepsAxis.flaw {node : ℤ} (h : call.KeepsAxis definition s)
    (hselects : ¬ (call.assignedAxis definition).Selects s.input.rank) :
    s.Flaw node (.axisRange call.name axisParameter (call.assignedAxis definition).display
      s.input.rank (some node)) := by
  have hrecorded := h.recorded
  have hnone := (resolveAxis_eq_none_iff h.lowers).mpr hselects
  rw [Rule.recorded, if_pos ⟨rfl, rfl⟩, hnone] at hrecorded
  refine .axis (Standard.softmax call.name) axisParameter _ h.layerType (.head _)
    ⟨call.assignedAxis definition, ?_, by rwa [h.rank], by rw [h.rank]; rfl⟩
  exact Parameters.given?_of_isDimension hrecorded h.isDimension

/-- A valid step of a softmax that records a planned one keeps the assigned axis. -/
theorem CallSpec.Settles.keepsAxis {σ : Substitution} {layer : LayerType}
    (h : call.Settles Standard.registry definition step) (hname : call.name ∈ softmaxNames)
    (hrecorded : step.RecordedAs s) (hwritten : step.params.Written)
    (hdimension : ∀ v, step.params.get? axisParameter = some v → v.isDimension = true)
    (hvalid : s.Valid σ layer) : call.KeepsAxis definition s := by
  obtain ⟨hlayer, haxis⟩ := h.axis hname
  have hnumber := hdimension _ haxis
  have hgiven := Parameters.given?_of_isDimension haxis hnumber
  have hkept := hrecorded.kept axisParameter _ hgiven
  rw [hlayer] at hkept
  refine ⟨hlayer ▸ hrecorded.layerType, hnumber, fun t ht => ?_, hkept, ?_⟩
  · have hterm := Parameters.term?_eq_some_iff_given?.mpr ⟨_, hgiven, Value.toTerm_eq_ok_iff.mpr ht⟩
    exact (hwritten axisParameter t hterm).lowers
  · obtain ⟨hsame, ⟨raw, hraw, hkept⟩, -⟩ := hvalid.computes
    obtain rfl := Option.some.inj (hsame.symm.trans (hlayer ▸ hrecorded.layerType))
    obtain rfl := Option.some.inj hraw
    exact hkept.length_eq.symm

/-- The uses of layers that a node is planned from, each as often as it is repeated. -/
def NodeSpec.stepCalls (n : NodeSpec) : List CallSpec := n.applied.flatMap CallSpec.unrolled

/-- The steps of a node are recorded for its uses of layers: for the first of them, and for all of
them if no rule has failed. Each softmax keeps its assigned axis. -/
structure NodeSpec.RecordedAs (definition : Definition) (errors : List Diagnostic) (spec : NodeSpec)
    (n : GraphNode) : Prop where
  /-- The layer types are those that are named, and the axes are kept. -/
  steps : List.Forall₂
    (fun call s => call.Names s ∧ (call.name ∈ softmaxNames → call.KeepsAxis definition s))
    (spec.stepCalls.take n.steps.length) n.steps
  /-- Without diagnostics none is missing. -/
  complete : errors = [] → n.steps.length = spec.stepCalls.length

namespace Assembles

variable
  (h : Assembles options Standard.registry program definition model plan bindings errors nodes)

include h

/-- The nodes that are planned are recorded. -/
theorem forall₂_recordedAs (hmodel : model.Written) :
    List.Forall₂ (fun planned n => ∃ found, (errors = [] → found = []) ∧
      planned.RecordedAs found n) plan nodes := by
  obtain ⟨first, rest, shape, others, hplan, hdeclared, rfl, hinfers⟩ :=
    inferNodes_of_infer (planModel_eq_ok h.planned).2 h.inferred
  have hwritten := written_planModel hmodel h.planned
  have hordered := ordered_planModel h.planned
  have hinput : first.steps = [] := by
    obtain ⟨-, -, hnodes⟩ := planModel_eq_ok_iff.mp h.planned
    obtain ⟨spec, hspec, hplanned⟩ := exists_of_mem_right hnodes (hplan ▸ List.mem_cons_self)
    obtain ⟨_, hresolved⟩ := h.resolved
    have hindex : spec.index = 0 := by
      rw [← index_of_planNode hplanned]
      exact index_of_planModel h.planned (i := 0) (by rw [hplan]; rfl)
    rw [(resolve_eq_ok hresolved).1] at hspec
    obtain ⟨hcalls, hinline⟩ := layerless_lowerProgram h.lowered spec hspec hindex
    have hmakes := makes_of_planNode hplanned
    simp only [NodeSpec.applied, hinline, hcalls, List.flatMap_nil] at hmakes
    exact List.forall₂_nil_left_iff.mp hmakes
  subst hplan
  obtain ⟨hfirst, hrest⟩ := List.forall_mem_cons.mp hwritten
  refine .cons ⟨[], fun _ => rfl, .nil, fun _ => by rw [hinput]; rfl⟩ ?_
  have hshape := hfirst.declared shape hdeclared
  refine forall₂_of_inferNodes (fun planned hplanned => ?_) hshape.flowing hinfers
  exact ⟨hrest planned hplanned, hordered planned (List.mem_cons_of_mem _ hplanned)⟩

/-- A planned node that is recorded is recorded for its uses of layers. -/
theorem recordedAs_of_planNode {spec : NodeSpec} {planned : PlannedNode} {found : List Diagnostic}
    (hmodel : model.Written) (hmem : planned ∈ plan) (hn : n ∈ nodes)
    (hplanned : planNode model spec = .ok (planned, [])) (hrecorded : planned.RecordedAs found n) :
    spec.RecordedAs definition found n := by
  obtain ⟨_, hresolved⟩ := h.resolved
  have hbinds := binds_of_resolve hresolved
  have hsettles : List.Forall₂ (CallSpec.Settles Standard.registry definition) spec.stepCalls
      planned.steps := by
    rw [← (resolve_eq_ok hresolved).1]
    exact (makes_of_planNode hplanned).imp fun _ _ hmakes =>
      hmakes.settles hbinds Standard.unambiguous_registry
  have hfirst := List.forall₂_take n.steps.length hsettles
  refine ⟨?_, fun hnil => (hrecorded.complete hnil).trans hsettles.length_eq.symm⟩
  have hsteps := forall₂_imp_of_mem hrecorded.steps (fun step hstep => List.mem_of_mem_take hstep)
    (h.valid hmodel n hn).steps fun step s hs hstep hvalid => And.intro hs (And.intro hstep hvalid)
  refine forall₂_transport (fun step s call t hs hcall hsame => ?_) hsteps hfirst.flip
    (List.forall₂_same.mpr fun s _ => (rfl : s = s))
  subst hsame
  obtain ⟨hs, hstep, layer, hvalid⟩ := hs
  have hcall : call.Settles Standard.registry definition step := hcall
  refine ⟨?_, fun hname => hcall.keepsAxis hname hs ?_ ?_ hvalid⟩
  · rw [CallSpec.Names, hs.layerType, Option.map_some, Standard.name_of_get? hcall.layerType]
  · exact (written_planModel hmodel h.planned planned hmem).steps step hstep
  · exact isDimension_of_planModel hresolved h.planned planned hmem step hstep axisParameter
      (.head _)

/-- The nodes of the definition are recorded. -/
theorem forall₂_nodes (hmodel : model.Written) :
    List.Forall₂ (NodeSpec.RecordedAs definition errors) definition.nodes nodes := by
  obtain ⟨_, hresolved⟩ := h.resolved
  obtain ⟨-, -, hplanned⟩ := planModel_eq_ok_iff.mp h.planned
  rw [(resolve_eq_ok hresolved).1] at hplanned
  have hrecorded := forall₂_imp_of_mem (h.forall₂_recordedAs hmodel)
    (fun planned hmem => hmem) (fun n hn => hn)
    fun planned n hrecorded hmem hn => And.intro hrecorded (And.intro hmem hn)
  refine forall₂_transport (fun planned n spec m hn hspec hsame => ?_) hrecorded hplanned.flip
    (List.forall₂_same.mpr fun n _ => (rfl : n = n))
  subst hsame
  obtain ⟨⟨found, hfound, hrecorded⟩, hmem, hn⟩ := hn
  obtain ⟨hsteps, hcomplete⟩ := h.recordedAs_of_planNode hmodel hmem hn hspec hrecorded
  exact ⟨hsteps, fun hnil => hcomplete (hfound hnil)⟩

/-- If validation has nothing to complain about, every softmax counts its axis. -/
theorem countsAxis (hvalid : (assembleGraph model nodes).diagnose = .ok []) (hn : n ∈ nodes)
    (hs : s ∈ n.steps) (hkeeps : call.KeepsAxis definition s) :
    s.CountsAxis (call.assignedAxis definition) := by
  refine hkeeps.counts (by_contra fun hselects => ?_)
  have hflaw : (assembleGraph model nodes).Flaw _ :=
    .node n _ hn (.step s _ hs (hkeeps.flaw hselects))
  exact List.not_mem_nil ((h.mem_diagnose_iff hvalid).mpr (Or.inl ⟨.tail _ (.head _), hflaw⟩))

/-- An axis that the shape does not have is found, and the compilation fails. -/
theorem axisRange_found (hmodel : model.Written) (hn : n ∈ nodes) (hs : s ∈ n.steps)
    (hkeeps : call.KeepsAxis definition s)
    (hselects : ¬ (call.assignedAxis definition).Selects s.input.rank) :
    ∃ compilation, compileProgram options Standard.registry program = .ok compilation ∧
      compilation.result.success = false ∧
      .axisRange call.name axisParameter (call.assignedAxis definition).display s.input.rank
        (some n.index) ∈ compilation.result.errors := by
  obtain ⟨found, hfound⟩ := h.exists_diagnose hmodel
  obtain ⟨result, events, hconclude, hsuccess, herrors⟩ := h.conclude_of_diagnose hfound
  have hflaw : (assembleGraph model nodes).Flaw _ :=
    .node n _ hn (.step s _ hs (hkeeps.flaw hselects))
  have hmem := (h.mem_diagnose_iff hfound).mpr (Or.inl ⟨.tail _ (.head _), hflaw⟩)
  have hreported := List.mem_append_right errors hmem
  rw [← herrors] at hreported
  have hfailed : result.success = false := by
    refine Bool.eq_false_iff.mpr fun htrue => ?_
    rw [hsuccess.mp htrue] at hreported
    exact List.not_mem_nil hreported
  obtain ⟨log, hlog⟩ := exists_compileProgram_of_failed hconclude hfailed
  exact ⟨_, hlog, hfailed, hreported⟩

end Assembles

/-- **The axes of softmaxes are resolved, or the compilation fails.** Let no name in a program be
marked as that of a placeholder. In a graph that the program is compiled to with the standard
library, whether declared shapes are trusted or not, the axis of every softmax is a plain integer
that counts an axis of the input from the front. It is the same axis as the one that is assigned, by
an override at the node, else by an override block, else the last one, and the value that is
assigned stands for an integer that selects an axis of the input. If inference comes to its end, and
there is a softmax whose assigned axis is no such value, the compilation fails with a diagnostic
about it. The steps that inference records are the first ones of every node, and all of them if it
has found no diagnostics. -/
theorem softmax_axes_resolved (options : Options) (hprogram : program.Authored) :
    (∀ graph, compileGraph options Standard.registry program = .ok graph →
      ∃ definition, lowerProgram program = .ok definition ∧
        List.Forall₂ (fun (spec : NodeSpec) (n : GraphNode) =>
          List.Forall₂ (fun (call : CallSpec) (s : LayerStep) => call.Names s ∧
            (call.name ∈ softmaxNames → s.CountsAxis (call.assignedAxis definition)))
            spec.stepCalls n.steps) definition.nodes graph.nodes) ∧
    ∀ definition model plan bindings errors nodes,
      Assembles options Standard.registry program definition model plan bindings errors nodes →
      List.Forall₂ (fun (spec : NodeSpec) (n : GraphNode) =>
        (errors = [] → n.steps.length = spec.stepCalls.length) ∧
        List.Forall₂ (fun (call : CallSpec) (s : LayerStep) => call.Names s ∧
          (call.name ∈ softmaxNames → ¬ (call.assignedAxis definition).Selects s.input.rank →
            ∃ compilation, compileProgram options Standard.registry program = .ok compilation ∧
              compilation.result.success = false ∧
              .axisRange call.name axisParameter (call.assignedAxis definition).display
                s.input.rank (some n.index) ∈ compilation.result.errors))
          (spec.stepCalls.take n.steps.length) n.steps) definition.nodes nodes := by
  constructor
  · intro graph hgraph
    obtain ⟨definition, model, plan, bindings, nodes, h, rfl⟩ := compiles_of_compileGraph hgraph
    have hmodel := h.model_written Standard.written_registry hprogram
    refine ⟨definition, h.lowered, forall₂_imp_of_mem (h.assembles.forall₂_nodes hmodel)
      (fun spec hspec => hspec) (fun n hn => hn) fun spec n hrecorded _ hn => ?_⟩
    have hsteps := hrecorded.steps
    rw [hrecorded.complete rfl, List.take_length] at hsteps
    refine forall₂_imp_of_mem hsteps (fun call hcall => hcall) (fun s hs => hs)
      fun call s hcall _ hs => hcall.imp_right fun hkeeps hname => ?_
    exact h.assembles.countsAxis h.checked hn hs (hkeeps hname)
  · intro definition model plan bindings errors nodes h
    have hmodel := h.model_written Standard.written_registry hprogram
    refine forall₂_imp_of_mem (h.forall₂_nodes hmodel) (fun spec hspec => hspec)
      (fun n hn => hn) fun spec n hrecorded _ hn => ⟨hrecorded.complete, ?_⟩
    refine forall₂_imp_of_mem hrecorded.steps (fun call hcall => hcall) (fun s hs => hs)
      fun call s hcall _ hs => hcall.imp_right fun hkeeps hname hselects => ?_
    exact h.axisRange_found hmodel hn hs (hkeeps hname) hselects

/-- A model of a dense layer and a softmax over an axis that is assigned to it. -/
def axisProgram (axis : Expr) : Program where
  imports := ["Linear", "Softmax"]
  model := some {
    name := "Axis"
    lines := [
      { index := 0, shape := some [.identifier "C"] },
      { index := 1
        calls := [{ name := "Linear" }, {
          name := "Softmax"
          overrides := [{ description := axisParameter, value := some axis }] }]
        shape := some [.literal (.int 10)] }] }

/-- The last axis of the model is counted from the front. Half an axis is found to be none. -/
theorem axisProgram_resolved :
    let last := axisProgram (.unary "-" (.literal (.int 1)))
    let half := axisProgram (.binary "/" (.literal (.int 1)) (.literal (.int 2)))
    (last.Authored ∧ ∃ definition graph spec n call s,
      lowerProgram last = .ok definition ∧ compileGraph {} Standard.registry last = .ok graph ∧
      definition.nodes[1]? = some spec ∧ graph.nodes[1]? = some n ∧
      spec.stepCalls[1]? = some call ∧ n.steps[1]? = some s ∧ call.name = "Softmax" ∧
      s.CountsAxis (call.assignedAxis definition)) ∧
    half.Authored ∧ ∃ definition model plan bindings nodes compilation,
      Assembles {} Standard.registry half definition model plan bindings [] nodes ∧
      compileProgram {} Standard.registry half = .ok compilation ∧
      compilation.result.success = false ∧
      .axisRange "Softmax" axisParameter "1 / 2" 1 (some 1) ∈ compilation.result.errors := by
  intro last half
  have hlast : last.Authored := by decide +kernel
  have hhalf : half.Authored := by decide +kernel
  refine ⟨⟨hlast, ?_⟩, hhalf, ?_⟩
  · have hrun : (lowerProgram last).toOption.any (fun definition =>
        (compileGraph {} Standard.registry last).toOption.any fun graph =>
          (definition.nodes[1]?).any fun spec => (graph.nodes[1]?).any fun n =>
            (spec.stepCalls[1]?).any fun call => (n.steps[1]?).any fun _ =>
              call.name == "Softmax") = true := by
      decide +kernel
    simp only [Option.any_eq_true, beq_iff_eq, toOption_eq_some_iff] at hrun
    obtain ⟨definition, hlower, graph, hgraph, spec, hspec, n, hn, call, hcall, s, hs,
      hname⟩ := hrun
    obtain ⟨other, hother, hnodes⟩ := (softmax_axes_resolved {} hlast).1 graph hgraph
    obtain rfl := Except.ok.inj (hlower.symm.trans hother)
    have hsteps := forall₂_getElem? hnodes hspec hn
    have hstep := forall₂_getElem? hsteps hcall hs
    exact ⟨definition, graph, spec, n, call, s, hlower, hgraph, hspec, hn, hcall, hs, hname,
      hstep.2 (hname ▸ .head _)⟩
  · have hrun : (lowerProgram half).toOption.any (fun definition =>
        (resolve Standard.registry true definition).toOption.any fun resolved =>
          (planModel resolved.1).toOption.any fun plan =>
            (resolveBindings resolved.1.hyperparameterValues).toOption.any fun bindings =>
              let run := infer ⟨false, bindings⟩ plan
              run.report.errors == [] && run.outcome.toOption.any fun result =>
                result.2 && (definition.nodes[1]?).any fun spec => (result.1[1]?).any fun n =>
                  n.index == 1 && (spec.stepCalls[1]?).any fun call => (n.steps[1]?).any fun s =>
                    call.name == "Softmax" && s.input.rank == 1 &&
                    (call.assignedAxis definition).display == "1 / 2" &&
                    (call.assignedAxis definition).toTerm? ==
                      some (.op .div (.const 1) (.const 2))) = true := by
      decide +kernel
    simp only [Option.any_eq_true, Bool.and_eq_true, beq_iff_eq, toOption_eq_some_iff] at hrun
    obtain ⟨definition, hlower, ⟨model, warnings⟩, hresolve, plan, hplan, bindings, hbindings,
      herrors, ⟨nodes, complete⟩, houtcome, hcomplete, spec, hspec, n, hn, hindex, call, hcall, s,
      hs, ⟨⟨hname, hrank⟩, hdisplay⟩, hterm⟩ := hrun
    obtain rfl : complete = true := hcomplete
    have h : Assembles {} Standard.registry half definition model plan bindings [] nodes :=
      ⟨hlower, ⟨warnings, hresolve⟩, hplan, hbindings, houtcome, herrors⟩
    have hnodes := (softmax_axes_resolved {} hhalf).2 definition model plan bindings [] nodes h
    obtain ⟨hlength, hsteps⟩ := forall₂_getElem? hnodes hspec hn
    rw [hlength rfl, List.take_length] at hsteps
    have hvalue : (Term.op .div (.const 1) (.const 2)).valueAt (.total fun _ => 0) =
        some (1 / 2) := by
      norm_num [Term.valueAt, Operator.onNumbers]
    have hselects : ¬ (call.assignedAxis definition).Selects s.input.rank := by
      rintro ⟨m, hm, -, -⟩
      have hdouble : 2 * (m : ℚ) = 1 := by linarith [hm.eq_of_valueAt hterm hvalue]
      have hinteger : 2 * m = 1 := by exact_mod_cast hdouble
      omega
    obtain ⟨compilation, hok, hfailed, hfound⟩ :=
      (forall₂_getElem? hsteps hcall hs).2 (hname ▸ .head _) hselects
    rw [hname, hdisplay, hrank, hindex] at hfound
    exact ⟨definition, model, plan, bindings, nodes, compilation, h, hok, hfailed, hfound⟩

/-- A name that is marked as the placeholder of the dense layer is replaced with it. So the model is
compiled although the axis that is assigned is not constant, and the recorded axis is a term. -/
theorem axisProgram_marked :
    let marked := axisProgram (.binary "-" (.identifier "Linear#1.Co") (.literal (.int 10)))
    ∃ definition graph spec n call s, lowerProgram marked = .ok definition ∧
      compileGraph {} Standard.registry marked = .ok graph ∧
      definition.nodes[1]? = some spec ∧ graph.nodes[1]? = some n ∧
      spec.stepCalls[1]? = some call ∧ n.steps[1]? = some s ∧
      call.name = "Softmax" ∧ call.Names s ∧ ¬ s.CountsAxis (call.assignedAxis definition) ∧
      (∀ position, s.params.get? axisParameter ≠ some (.int position)) ∧
      ¬ (call.assignedAxis definition).Selects s.input.rank := by
  intro marked
  have hrun : (lowerProgram marked).toOption.any (fun definition =>
      (compileGraph {} Standard.registry marked).toOption.any fun graph =>
        (definition.nodes[1]?).any fun spec => (graph.nodes[1]?).any fun n =>
          (spec.stepCalls[1]?).any fun call => (n.steps[1]?).any fun s =>
            call.name == "Softmax" && s.layerType.map (·.name) == some call.name &&
            (s.params.get? axisParameter).map Value.kind == some "dimension" &&
            (call.assignedAxis definition).toTerm? ==
              some (.op .sub (.sym "Linear#1.Co") (.const 10))) = true := by
    decide +kernel
  simp only [Option.any_eq_true, Bool.and_eq_true, beq_iff_eq, toOption_eq_some_iff] at hrun
  obtain ⟨definition, hlower, graph, hgraph, spec, hspec, n, hn, call, hcall, s, hs,
    ⟨⟨hname, hnames⟩, hkind⟩, hterm⟩ := hrun
  have hvalue (x : ℚ) : (Term.op .sub (.sym "Linear#1.Co") (.const 10)).valueAt
      (.total fun _ => x) = some (x - 10) := by
    norm_num [Term.valueAt, Operator.onNumbers, Instantiation.total]
  have hstands (m : ℤ) : ¬ (call.assignedAxis definition).StandsFor m := fun hm => by
    have hfirst := hm.eq_of_valueAt hterm (hvalue 0)
    have hsecond := hm.eq_of_valueAt hterm (hvalue 1)
    linarith
  refine ⟨definition, graph, spec, n, call, s, hlower, hgraph, hspec, hn, hcall, hs, hname, hnames,
    ?_, fun position hposition => ?_, ?_⟩
  · rintro ⟨m, -, hm, -⟩
    exact hstands m hm
  · rw [hposition, Option.map_some, Value.kind] at hkind
    exact absurd hkind (by decide)
  · rintro ⟨m, hm, -⟩
    exact hstands m hm

end Shapeline
