import Shapeline.Proofs.Compilation.Redeclaration
import Shapeline.Proofs.Inference.Following
import Shapeline.Proofs.Unrolling.Lowering

/-!
# Repetitions and inline models as notation

A number of repetitions stands for that many calls in a row, and an inline model whose lines declare
no shapes stands for the calls of these lines. A program that spells them out compiles whenever the
other one does, to the same graph up to the labels of the nodes and the names of their inline
models. The exception are calls that get lost: an inline model takes the place of the calls beside
it, and none is looked at on the input line. Such calls must be ones that can be lowered.
-/

namespace Shapeline

/-- Two nodes are equal up to their labels and the names of their inline models. -/
def GraphNode.Retitles (n n' : GraphNode) : Prop :=
  n' = { n with label := n'.label, submodel := n'.submodel }

/-- Two graphs are equal up to the labels of their nodes and the names of the inline models. -/
structure Graph.Retitles (g g' : Graph) : Prop where
  /-- All but the nodes is equal. -/
  rest : g' = { g with nodes := g'.nodes }
  /-- The nodes are equal up to their names. -/
  nodes : List.Forall₂ GraphNode.Retitles g.nodes g'.nodes

variable {options : Options} {registry : Registry} {program program' : Program}
  {definition definition' : Definition} {model : ResolvedModel} {plan plan' : List PlannedNode}
  {bindings : Dictionary Term} {nodes nodes' : List GraphNode} {n n' : GraphNode}
  {planned planned' : PlannedNode} {settings : InferenceSettings} {declared : List String}

/-- What planned nodes are called does not matter to inference. -/
theorem PlannedNode.Retitles.corresponds (h : planned.Retitles planned') :
    planned.Corresponds (fun _ _ => True) Eq Eq planned' := by
  rw [h]
  exact ⟨rfl, List.forall₂_same.mpr fun _ _ => rfl, declared_correspond _, trivial, trivial,
    checkpoints_correspond _⟩

/-- Plans that are equal up to names make nodes that are equal up to names. -/
theorem retitles_of_infer (h : List.Forall₂ PlannedNode.Retitles plan plan')
    (hrun : (infer settings plan).Yields [] (nodes, true)) :
    ∃ nodes', (infer settings plan').Yields [] (nodes', true) ∧
      List.Forall₂ GraphNode.Retitles nodes nodes' := by
  obtain ⟨⟨nodes', complete⟩, hrun', hcomplete, hnodes⟩ :=
    (Follows.refl settings).infer trivial (h.imp fun _ _ hp => hp.corresponds) _ hrun
  obtain rfl : complete = true := hcomplete
  refine ⟨nodes', hrun', hnodes.imp fun n n' hn => ?_⟩
  have hsteps : n.steps = n'.steps := List.forall₂_eq_eq_eq ▸ hn.steps
  have hrest := hn.rest
  rwa [← hsteps] at hrest

/-- Validation finds nothing in nodes that are equal up to names. -/
theorem checkNodes_of_retitles (hchecked : checkNodes declared none nodes = .ok [])
    (h : List.Forall₂ GraphNode.Retitles nodes nodes') :
    checkNodes declared none nodes' = .ok [] := by
  refine checkNodes_of_resembles hchecked (h.imp fun n n' hn => ?_) .none fun n' hn' name hname => ?_
  · rw [hn]
    exact ⟨rfl, List.forall₂_same.mpr fun _ _ => ⟨rfl, rfl, rfl, fun _ _ _ _ => rfl⟩, rfl, rfl⟩
  · obtain ⟨n, hn, hretitles⟩ := exists_of_mem_right h hn'
    rw [hretitles] at hname
    exact declared_of_checkNodes hchecked hn hname

/-- A definition that differs in its nodes only, uses the same layers and has the same plan up to
names goes through the remaining stages, to the same graph up to names. -/
theorem Compiles.retitle
    (h : Compiles options registry program definition model plan bindings nodes)
    (hlowered : lowerProgram program' = .ok definition')
    (hsame : definition' = { definition with nodes := definition'.nodes })
    (huses : ∀ n' ∈ definition'.nodes, n'.index ≠ 0 → ∀ name ∈ n'.layerNames,
      ∃ n ∈ definition.nodes, n.index ≠ 0 ∧ name ∈ n.layerNames)
    (hinput : definition'.inputShape = definition.inputShape)
    (hplanned : planModel { model with definition := definition' } = .ok plan')
    (hplans : List.Forall₂ PlannedNode.Retitles plan plan') :
    ∃ nodes', Compiles options registry program' definition'
        { model with definition := definition' } plan' bindings nodes' ∧
      (assembleGraph model nodes).Retitles
        (assembleGraph { model with definition := definition' } nodes') := by
  obtain ⟨warnings, hresolved⟩ := h.resolved
  have hdefinition := (resolve_eq_ok hresolved).1
  obtain ⟨warnings', hresolved'⟩ := resolve_of_layerNames hresolved huses
  rw [← hsame] at hresolved'
  obtain ⟨nodes', hinferred, hnodes⟩ := retitles_of_infer hplans h.inferred
  have hsymbols : inputSymbols { model with definition := definition' } = inputSymbols model := by
    unfold inputSymbols
    rw [hinput, hdefinition]
  have hgraph : assembleGraph { model with definition := definition' } nodes' =
      { assembleGraph model nodes with nodes := nodes' } := by
    have hname : definition'.name = model.definition.name := by rw [hsame, hdefinition]
    unfold assembleGraph ResolvedModel.name
    rw [hsymbols, hname]
  refine ⟨nodes', ⟨hlowered, ⟨warnings', hresolved'⟩, hplanned, h.bound, hinferred, ?_⟩, ?_⟩
  · rw [hgraph]
    exact checkNodes_of_retitles h.checked hnodes
  · rw [hgraph]
    exact ⟨rfl, hnodes⟩

/-- A program is unrolled to one that goes through all stages. -/
theorem Compiles.unroll (h : Compiles options registry program definition model plan bindings nodes)
    (hprogram : program.Unrollable) :
    ∃ definition' model' plan' nodes',
      Compiles options registry program.unrolled definition' model' plan' bindings nodes' ∧
        (assembleGraph model nodes).Retitles (assembleGraph model' nodes') := by
  obtain ⟨warnings, hresolved⟩ := h.resolved
  obtain ⟨definition', hlowered, hunrolls, hregular⟩ := hprogram.lowerProgram h.lowered
  obtain ⟨plan', hplanned, hplans⟩ :=
    (hunrolls.planModel hregular (resolve_eq_ok hresolved).1).1 plan h.planned
  obtain ⟨nodes', hcompiles, hgraph⟩ := h.retitle hlowered hunrolls.same
    (hunrolls.layerNames hregular).1 hunrolls.inputShape_eq hplanned hplans
  exact ⟨definition', _, plan', nodes', hcompiles, hgraph⟩

/-- A program goes through all stages if its unrolled form does. -/
theorem Compiles.roll
    (h : Compiles options registry program.unrolled definition' model plan' bindings nodes')
    (hprogram : program.Unrollable) :
    ∃ definition model plan nodes,
      Compiles options registry program definition model plan bindings nodes := by
  obtain ⟨warnings, hresolved⟩ := h.resolved
  obtain ⟨definition, hlowered⟩ := hprogram.exists_lowerProgram h.lowered
  obtain ⟨found, hfound, hunrolls, hregular⟩ := hprogram.lowerProgram hlowered
  obtain rfl := Except.ok.inj (hfound.symm.trans h.lowered)
  have hmodel : { { model with definition } with definition := found } = model := by
    rw [← (resolve_eq_ok hresolved).1]
  obtain ⟨hforward, hbackward⟩ := hunrolls.planModel hregular
    (show ({ model with definition } : ResolvedModel).definition = definition from rfl)
  rw [hmodel] at hforward hbackward
  obtain ⟨plan, hplanned⟩ := hbackward plan' h.planned
  obtain ⟨unrolled, hunrolled, hplans⟩ := hforward plan hplanned
  obtain rfl := Except.ok.inj (hunrolled.symm.trans h.planned)
  have hsame : definition = { found with nodes := definition.nodes } := by
    rw [hunrolls.same]
  obtain ⟨nodes, hcompiles, -⟩ := h.retitle hlowered hsame (hunrolls.layerNames hregular).2
    hunrolls.inputShape_eq.symm hplanned
      (hplans.flip.imp fun _ _ hp => PlannedNode.Retitles.symm hp)
  exact ⟨definition, _, plan, nodes, hcompiles⟩

/-- **Repetitions and inline models without shapes are notation.** Take a program whose numbers of
repetitions are positive integers and whose inline models hold plain node lines numbered from one.
In its unrolled form every call is written out as often as it is repeated, and the calls of an
inline model whose lines declare no shapes stand in place of the model. With one registry and the
same options either form compiles exactly if the other one does, and then the graphs are equal up to
the labels of the nodes and the names of their inline models. This requires that the calls that get
lost can be lowered: those beside an inline model whose lines declare no shapes, and those in such a
model on the input line. -/
theorem unrolled_compile_same (options : Options) (registry : Registry) (h : program.Unrollable) :
    ((∃ graph, compileGraph options registry program = .ok graph) ↔
      ∃ graph', compileGraph options registry program.unrolled = .ok graph') ∧
    ∀ graph graph', compileGraph options registry program = .ok graph →
      compileGraph options registry program.unrolled = .ok graph' → graph.Retitles graph' := by
  refine succeed_together (fun graph hgraph => ?_) fun graph' hgraph' => ?_
  · obtain ⟨_, _, _, _, _, hcompiles, rfl⟩ := compiles_of_compileGraph hgraph
    obtain ⟨_, _, _, _, hcompiles', hretitles⟩ := hcompiles.unroll h
    exact ⟨_, hcompiles'.compileGraph, hretitles⟩
  · obtain ⟨_, _, _, _, _, hcompiles, rfl⟩ := compiles_of_compileGraph hgraph'
    obtain ⟨_, _, _, _, hcompiles'⟩ := hcompiles.roll h
    exact ⟨_, hcompiles'.compileGraph⟩

/-- A convolution applied twice, an inline model that declares no shapes and one that declares one.
-/
def stackedProgram : Program where
  imports := ["Convolutions", "Pooling", "Activations"]
  model := some {
    name := "Stacked"
    lines := [
      { index := 0, shape := some [.literal (.int 8), .identifier "H", .identifier "W"] },
      { index := 1
        calls := [
          { name := "Conv2d"
            overrides := [{ description := "Co", value := some (.literal (.int 8)) }]
            repetitions := .int 2 },
          { name := "ReLU" }] },
      { index := 2
        model := some {
          name := "Tail"
          lines := [
            { index := 1, calls := [{ name := "ReLU", repetitions := .int 3 }] },
            { index := 2, calls := [{ name := "MaxPool2d" }, { name := "ReLU" }] }] } },
      { index := 3
        model := some {
          name := "Head"
          lines := [
            { index := 1
              calls := [
                { name := "Conv2d"
                  overrides := [{ description := "Co", value := some (.literal (.int 16)) }]
                  repetitions := .int 2 }]
              shape := some [.literal (.int 16), .binary "/" (.identifier "H") (.literal (.int 2)),
                .binary "/" (.identifier "W") (.literal (.int 2))] }] } }] }

/-- The convolution is written out twice, and the first inline model gives way to its calls. -/
theorem stackedProgram_same :
    stackedProgram.Unrollable ∧
      ∃ graph graph', compileGraph {} Standard.registry stackedProgram = .ok graph ∧
        compileGraph {} Standard.registry stackedProgram.unrolled = .ok graph' ∧
        graph.Retitles graph' := by
  have hunrollable : stackedProgram.Unrollable :=
    Program.Plain.unrollable (by decide) (by decide)
  obtain ⟨hcompiles, hretitles⟩ := unrolled_compile_same {} Standard.registry hunrollable
  obtain ⟨graph, hgraph⟩ := exists_eq_ok_iff.mpr (show (compileGraph {} Standard.registry
    stackedProgram).toOption.isSome = true by decide +kernel)
  obtain ⟨graph', hgraph'⟩ := hcompiles.mp ⟨graph, hgraph⟩
  exact ⟨hunrollable, graph, graph', hgraph, hgraph', hretitles graph graph' hgraph hgraph'⟩

/-- A call with an override that cannot be lowered. -/
def singularCall : LayerCall where
  name := "ReLU"
  overrides := [{
    description := "slope"
    value := some (.binary "/" (.literal (.int 1)) (.literal (.int 0))) }]

/-- A model with two lines, each with an inline model or without. -/
def lossyProgram (input output : Option InlineBlock) (calls : List LayerCall) : Program where
  imports := ["ReLU"]
  model := some {
    name := "Lossy"
    lines := [
      { index := 0, shape := some [.identifier "c"], model := input },
      { index := 1, calls := calls, model := output }] }

/-- An inline model of one call. -/
def wrappedCall (call : LayerCall) : InlineBlock where
  name := "Inner"
  lines := [{ index := 1, calls := [call] }]

/-- Of a program and its unrolled form only one can compile, and it can be either, if a call that
gets lost cannot be lowered. -/
theorem lost_calls_matter :
    let covering := lossyProgram none (some (wrappedCall { name := "ReLU" })) [singularCall]
    let skipping := lossyProgram (some (wrappedCall singularCall)) none [{ name := "ReLU" }]
    (covering.Plain ∧ (∃ graph, compileGraph {} Standard.registry covering.unrolled = .ok graph) ∧
      ¬ ∃ graph, compileGraph {} Standard.registry covering = .ok graph) ∧
    skipping.Plain ∧ (∃ graph, compileGraph {} Standard.registry skipping = .ok graph) ∧
      ¬ ∃ graph, compileGraph {} Standard.registry skipping.unrolled = .ok graph := by
  refine ⟨⟨by decide, exists_eq_ok_iff.mpr ?_, mt exists_eq_ok_iff.mp ?_⟩,
    by decide, exists_eq_ok_iff.mpr ?_, mt exists_eq_ok_iff.mp ?_⟩ <;> decide +kernel

end Shapeline
