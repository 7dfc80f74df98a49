import Shapeline.Proofs.Compilation.Stages
import Shapeline.Proofs.Inference.Symbols

/-!
# The symbols of a compiled graph

Validation looks at the shapes between nodes and at the recorded parameters. The shapes between the
steps of a node are not looked at, but their symbols come from what is, unless a node of an inline
model brings them in with a shape that it declares.
-/

namespace Shapeline

variable {options : Options} {registry : Registry} {program : Program} {definition : Definition}
  {model : ResolvedModel} {plan : List PlannedNode} {bindings : Dictionary Term}
  {nodes : List GraphNode}

/-- A node of the inline model at the given number declares a shape. -/
def Definition.DeclaresInside (d : Definition) (index : Int) (shape : Shape) : Prop :=
  ∃ spec ∈ d.nodes, spec.index = index ∧ ∃ line ∈ spec.inner, line.declared = some shape

/-- The symbols of a node are declared. Between its steps there are besides those of the shapes that
its inline model declares. -/
structure GraphNode.SymbolsDeclared (declared : String → Prop) (inside : Shape → Prop)
    (n : GraphNode) : Prop where
  /-- The symbols of the input are declared. -/
  input : n.input.SymbolsSatisfy declared
  /-- The symbols of the inferred shape are declared. -/
  inferred : n.inferred.SymbolsSatisfy declared
  /-- The symbols of the output are declared. -/
  output : n.output.SymbolsSatisfy declared
  /-- The declared shape is the output. -/
  shape : ∀ shape, n.declared = some shape → n.output = shape
  /-- The symbols in the parameters of the steps are declared. -/
  params : ∀ s ∈ n.steps, ∀ name, s.Records name → declared name
  /-- The symbols in the shapes of the steps are declared, or the inline model brings them in. -/
  steps : ∀ s ∈ n.steps, ∀ shape ∈ [s.input, s.output], shape.SymbolsSatisfy fun name =>
    declared name ∨ ∃ other, inside other ∧ name ∈ other.symbols

/-- Inference makes nodes with declared symbols if validation finds the symbols declared that it
looks at. -/
theorem Infers.symbolsDeclared {settings : InferenceSettings} {input : Shape}
    {errors : List Diagnostic} {declared : String → Prop} {inside : Int → Shape → Prop}
    (h : Infers settings plan input errors nodes) (herrors : errors = [])
    (hplan : ∀ planned ∈ plan, ∀ checkpoint ∈ planned.checkpoints,
      inside planned.index checkpoint.shape)
    (hinput : input.SymbolsSatisfy declared)
    (hnodes : ∀ n ∈ nodes, ∀ name ∈ n.symbols, declared name) :
    ∀ n ∈ nodes, n.SymbolsDeclared declared (inside n.index) := by
  induction h with
  | nil => simp
  | @cons planned rest input first second n nodes hmade _ ih =>
    obtain ⟨rfl, rfl⟩ := List.append_eq_nil_iff.mp herrors
    obtain ⟨hplanned, hrest⟩ := List.forall_mem_cons.mp hplan
    obtain ⟨hn, hothers⟩ := List.forall_mem_cons.mp hnodes
    have houtput : n.output.SymbolsSatisfy declared := fun name hname =>
      hn name (GraphNode.mem_symbols.mpr (Or.inr (Or.inl hname)))
    have hparams : ∀ s ∈ n.steps, ∀ name, s.Records name → declared name := fun s hs name hname =>
      hn name (GraphNode.mem_symbols.mpr (Or.inr (Or.inr ⟨s, hs, hname⟩)))
    let known : String → Prop := fun name =>
      declared name ∨ ∃ other, inside planned.index other ∧ name ∈ other.symbols
    have hdeclared : ∀ shape, planned.declared = some shape → shape.SymbolsSatisfy known := by
      intro shape hshape
      rw [← output_of_inferNode hmade hshape]
      exact houtput.imp fun _ => Or.inl
    obtain ⟨hindex, hown, hsame⟩ := made_of_inferNode hmade
    have hinputKnown : input.SymbolsSatisfy known := hinput.imp fun _ => Or.inl
    have hsteps := covered_of_inferNode hmade hinputKnown
      (fun checkpoint hcheckpoint name hname =>
        Or.inr ⟨_, hplanned checkpoint hcheckpoint, hname⟩) hdeclared
    intro m hm
    rcases List.mem_cons.mp hm with rfl | hm
    · have hknown {shape : Shape} (hshape : shape.SymbolsSatisfy (KnownOrRecorded known m.steps)) :
          shape.SymbolsSatisfy known := hshape.imp fun name hname => hname.elim id
        fun ⟨s, hs, hrecords⟩ => Or.inl (hparams s hs name hrecords)
      refine ⟨hsame ▸ hinput, fun name hname => hn name (GraphNode.mem_symbols.mpr (Or.inl hname)),
        houtput, fun shape hshape => output_of_inferNode hmade (hown ▸ hshape), hparams,
        fun s hs shape hshape => ?_⟩
      rw [hindex]
      obtain ⟨hs_input, hs_output⟩ := hsteps s hs
      simp only [List.mem_cons, List.not_mem_nil, or_false] at hshape
      rcases hshape with rfl | rfl
      · exact hknown hs_input
      · exact hknown hs_output
    · exact ih rfl hrest houtput hothers m hm
  | stop => simp

/-- The shapes of checkpoints are declared inside the node. -/
theorem declaresInside_of_planModel (hplan : planModel model = .ok plan) :
    ∀ planned ∈ plan, ∀ checkpoint ∈ planned.checkpoints,
      model.definition.DeclaresInside planned.index checkpoint.shape := by
  intro planned hplanned checkpoint hcheckpoint
  obtain ⟨spec, hspec, _, hplanNode⟩ := exists_of_mem_right (planModel_eq_ok hplan).1 hplanned
  exact ⟨spec, hspec, (index_of_planNode hplanNode).symm,
    (planNode_eq_ok hplanNode).2.2 checkpoint hcheckpoint⟩

/-- **Undeclared symbols can hide between the steps of a node only.** In every graph that compiles,
the symbols of the shapes that nodes start from, infer, declare and pass on and the symbols of all
recorded parameters are variables of the model or introduced by its input. The symbols of the
shapes between the steps of a node are so too, or else occur in a shape that a node of its inline
model declares. -/
theorem compiled_symbols_declared {graph : Graph}
    (h : compileGraph options registry program = .ok graph) :
    ∃ definition, lowerProgram program = .ok definition ∧ ∀ n ∈ graph.nodes,
      n.SymbolsDeclared (· ∈ graph.declaredSymbols) (definition.DeclaresInside n.index) := by
  obtain ⟨definition, model, plan, bindings, nodes, hcompiles, rfl⟩ := compiles_of_compileGraph h
  refine ⟨definition, hcompiles.lowered, ?_⟩
  obtain ⟨_, hresolved⟩ := hcompiles.resolved
  obtain rfl := (resolve_eq_ok hresolved).1
  have hinside := declaresInside_of_planModel hcompiles.planned
  have hsymbols : ∀ n ∈ nodes, ∀ name ∈ n.symbols,
      name ∈ (assembleGraph model nodes).declaredSymbols :=
    fun n hn name hname => declared_of_checkNodes hcompiles.checked hn hname
  obtain ⟨first, rest, shape, others, rfl, hdeclared, rfl, hinfers⟩ := hcompiles.infers
  obtain ⟨hfirst, hrest⟩ := List.forall_mem_cons.mp hinside
  obtain ⟨hinput, hothers⟩ := List.forall_mem_cons.mp hsymbols
  have hshape : shape.SymbolsSatisfy _ := fun name hname =>
    hinput name (GraphNode.mem_symbols.mpr (Or.inl hname))
  intro n hn
  rcases List.mem_cons.mp hn with rfl | hn
  · exact ⟨hshape, hshape, hshape, fun _ h => Option.some.inj h, by simp [inputNode],
      by simp [inputNode]⟩
  · exact hinfers.symbolsDeclared rfl hrest hshape hothers n hn

/-- A model whose inline model declares an extent that mentions a symbol without depending on it. -/
def leakyProgram : Program where
  imports := ["ReLU", "Linear"]
  model := some {
    name := "Leaky"
    lines := [
      { index := 0, shape := some [.literal (.int 5)] },
      { index := 1
        model := some {
          name := "Inner"
          lines := [
            { index := 1, calls := [{ name := "ReLU" }]
              shape := some [.binary "-"
                (.binary "+" (.literal (.int 5)) (.identifier "Foo")) (.identifier "Foo")] },
            { index := 2
              calls := [{
                name := "Linear"
                overrides := [
                  { description := "Ci", value := some (.literal (.int 5)) },
                  { description := "Co", value := some (.literal (.int 10)) }] }] }] } }] }

/-- The symbol gets into the graph of the model, although nothing introduces it. -/
theorem leakyProgram_symbols :
    ∃ graph definition, compileGraph {} Standard.registry leakyProgram = .ok graph ∧
      lowerProgram leakyProgram = .ok definition ∧
      (∀ n ∈ graph.nodes,
        n.SymbolsDeclared (· ∈ graph.declaredSymbols) (definition.DeclaresInside n.index)) ∧
      ∃ n ∈ graph.nodes, ∃ s ∈ n.steps,
        "Foo" ∈ s.input.symbols ∧ "Foo" ∉ graph.declaredSymbols := by
  have hrun : (compileGraph {} Standard.registry leakyProgram).toOption.any (fun graph =>
      graph.nodes.any fun n => n.steps.any fun s =>
        decide ("Foo" ∈ s.input.symbols ∧ "Foo" ∉ graph.declaredSymbols)) = true := by
    decide +kernel
  simp only [Option.any_eq_true, List.any_eq_true, decide_eq_true_eq,
    toOption_eq_some_iff] at hrun
  obtain ⟨graph, hgraph, n, hn, s, hs, hleak⟩ := hrun
  obtain ⟨definition, hlowered, hsymbols⟩ := compiled_symbols_declared hgraph
  exact ⟨graph, definition, hgraph, hlowered, hsymbols, n, hn, s, hs, hleak⟩

end Shapeline
