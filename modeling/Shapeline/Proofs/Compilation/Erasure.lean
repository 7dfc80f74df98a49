import Shapeline.Proofs.Compilation.Completion
import Shapeline.Proofs.Compilation.Introduction
import Shapeline.Proofs.Compilation.Redeclaration
import Shapeline.Proofs.Compilation.Symbols
import Shapeline.Proofs.Inference.Erasure

/-!
# Compiling without some of the declared shapes

Once no parameter has to be guessed, declared shapes are checks only: a program that compiles does so
without any of them, and the graphs are alike.
-/

namespace Shapeline

variable {options : Options} {program program' : Program} {definition definition' : Definition}
  {model : ResolvedModel} {plan plan' : List PlannedNode} {bindings : Dictionary Term}
  {nodes nodes' : List GraphNode} {block block' : ModelBlock} {σ : Substitution} {node : Int}

/-- A declared shape stays or is left out. -/
def Erases {α : Type} (shape shape' : Option α) : Prop := shape' = shape ∨ shape' = none

/-- Declared shapes are lowered to the same shapes, or left out. -/
theorem lowersTo_erases (node : Int) : LowersTo Erases Erases node := by
  rintro shape shape' declared (rfl | rfl) hlowers
  · exact ⟨declared, hlowers, Or.inl rfl⟩
  · exact ⟨none, .none, Or.inr rfl⟩

/-- Shapes that are the same are equivalent. -/
theorem Shape.Tallies.equivalentUnder {s s' : Shape} (h : s.Tallies σ s') (hσ : σ.Lowers) :
    s.EquivalentUnder σ s' :=
  h.axes.imp fun _ _ hxy => hxy.2.2.equivalentUnder hσ hxy.1.lowers hxy.2.1.lowers

/-- Steps that are the same are alike. -/
theorem LayerStep.Tallies.alike {s s' : LayerStep} (h : s.Tallies σ s') (hσ : σ.Lowers) :
    s.Alike σ s' where
  layerType := h.layerType
  params := h.params.imp fun _ _ hxy => hxy.2.equivalentUnder hσ hxy.1.1 hxy.1.2
  input := h.input.equivalentUnder hσ
  output := h.output.equivalentUnder hσ

/-- All shapes that a program declares are familiar if those inside inline models mention declared
symbols only. -/
theorem Compiles.declares_familiar
    (h : Compiles options Standard.registry program definition model plan bindings nodes)
    (hmodel : model.TermsSatisfy Term.Solid)
    (hinside : ∀ index shape, definition.DeclaresInside index shape →
      shape.SymbolsSatisfy (· ∈ (assembleGraph model nodes).declaredSymbols)) :
    ∀ planned ∈ plan, planned.Declares
      (Shape.Familiar (· ∈ (assembleGraph model nodes).declaredSymbols)) := by
  intro planned hmem
  have hsolid := termsSatisfy_planModel hmodel h.planned planned hmem
  obtain ⟨_, hresolved⟩ := h.resolved
  obtain rfl := (resolve_eq_ok hresolved).1
  refine ⟨fun shape hshape => ⟨hsolid.declared shape hshape, fun name hname => ?_⟩,
    fun checkpoint hcheckpoint => ⟨hsolid.checkpoints checkpoint hcheckpoint, ?_⟩⟩
  · obtain ⟨n, hn, rfl⟩ : ∃ n ∈ nodes, n.output = shape := by
      obtain ⟨first, rest, input, others, rfl, hdeclared, rfl, hinfers⟩ := h.infers
      rcases List.mem_cons.mp hmem with rfl | hmem
      · exact ⟨_, List.mem_cons_self, Option.some.inj (hdeclared.symm.trans hshape)⟩
      · obtain ⟨n, hn, houtput⟩ := hinfers.exists_output rfl planned hmem shape hshape
        exact ⟨n, List.mem_cons_of_mem _ hn, houtput⟩
    exact declared_of_checkNodes h.checked hn
      (GraphNode.mem_symbols.mpr (Or.inr (Or.inl hname)))
  · exact hinside _ _ (declaresInside_of_planModel h.planned planned hmem checkpoint hcheckpoint)

/-- The symbols of the nodes that inference makes without some of the declared shapes are
declared. -/
theorem Compiles.symbols_of_tallies
    (h : Compiles options Standard.registry program definition model plan bindings nodes)
    (hσ : (Substitution.ofTerms bindings).Lowers)
    (hplan' : ∃ first rest shape, plan' = first :: rest ∧ first.declared = some shape)
    (hrestated : List.Forall₂ (PlannedNode.Restated LeavesOut) plan plan')
    (hsteps : ∀ planned ∈ plan, ∀ step ∈ planned.steps, step.Determined (.ofTerms bindings))
    (hfamiliar : ∀ planned ∈ plan, planned.Declares
      (Shape.Familiar (· ∈ (assembleGraph model nodes).declaredSymbols)))
    (hinferred : (infer ⟨options.trustDeclaredShapes, bindings⟩ plan').Yields [] (nodes', true))
    (hrelated : List.Forall₂ (GraphNode.Related (Shape.Tallies (.ofTerms bindings))
      (LayerStep.Tallies (.ofTerms bindings))) nodes nodes') :
    ∀ n ∈ nodes', ∀ name ∈ n.symbols, name ∈ (assembleGraph model nodes).declaredSymbols := by
  have hfamiliar' : ∀ planned' ∈ plan', planned'.Declares
      (Shape.Familiar (· ∈ (assembleGraph model nodes).declaredSymbols)) ∧
      ∀ step ∈ planned'.steps, step.Determined (.ofTerms bindings) := by
    intro planned' hmem'
    obtain ⟨planned, hmem, hp⟩ := exists_of_mem_right hrestated hmem'
    refine ⟨hp.declares (hfamiliar planned hmem) fun a b hab ha s hs => ?_,
      hp.steps ▸ hsteps planned hmem⟩
    rcases hab.erased with rfl | rfl
    · exact ha s hs
    · cases hs
  have hgrounded : ∀ n' ∈ nodes', ∀ s' ∈ n'.steps,
      s'.Grounded (· ∈ (assembleGraph model nodes).declaredSymbols) := by
    intro n' hn' s' hs' name hname
    obtain ⟨n, hn, hnn⟩ := exists_of_mem_right hrelated hn'
    obtain ⟨s, hs, hss⟩ := exists_of_mem_right hnn.steps hs'
    exact (hss.grounded name hname).imp_left fun hrecords => declared_of_checkNodes h.checked hn
      (GraphNode.mem_symbols.mpr (Or.inr (Or.inr ⟨s, hs, hrecords⟩)))
  obtain ⟨first, rest, shape, others, rfl, hdeclared, rfl, hinfers⟩ :=
    infers_of_infer hplan' hinferred
  obtain ⟨hfirst, hrest⟩ := List.forall_mem_cons.mp hfamiliar'
  have hshape := hfirst.1.own shape hdeclared
  refine List.forall_mem_cons.mpr ⟨fun name hname => ?_, hinfers.familiar rfl hσ hrest hshape
    (List.forall_mem_cons.mp hgrounded).2⟩
  rcases GraphNode.mem_symbols.mp hname with hname | hname | ⟨s, hs, -⟩
  · exact hshape.symbols name hname
  · exact hshape.symbols name hname
  · cases hs

/-- A program of which declared shapes are left out compiles to a graph that is alike. -/
theorem Compiles.erase
    (h : Compiles options Standard.registry program definition model plan bindings nodes)
    (hplain : ∀ expr ∈ program.exprs, expr.isPlain = true)
    (htrust : options.trustDeclaredShapes = false) (hblock : program.model = some block)
    (hblock' : program'.model = some block') (himports : program'.imports = program.imports)
    (houtputs : ∀ planned ∈ plan, ∀ step ∈ planned.steps, step.GivesOutput (.ofTerms bindings))
    (hinside : ∀ index shape, definition.DeclaresInside index shape →
      shape.SymbolsSatisfy (· ∈ (assembleGraph model nodes).declaredSymbols))
    (herases : block.Redeclares (fun _ => Erases) block') :
    ∃ graph', Shapeline.compileGraph options Standard.registry program' = .ok graph' ∧
      (assembleGraph model nodes).Alike (.ofTerms bindings) graph' := by
  obtain ⟨warnings, hresolved⟩ := h.resolved
  have hmodel := h.model_solid (Standard.termsSatisfy_registry Term.arithmetic_solid) hplain
  have hσ := h.bindings_lowers hmodel
  have hsolid := termsSatisfy_planModel hmodel h.planned
  obtain ⟨definition', plan', hlowered, hdefinition, hplanned, hrestated, hinput⟩ :=
    h.replan herases lowersTo_erases (by rintro _ (h | h) <;> cases h) hblock hblock' himports
  have hplan : List.Forall₂ (PlannedNode.Restated LeavesOut) plan plan' :=
    forall₂_imp_of_mem hrestated hsolid (fun _ _ => trivial) fun planned planned' hp hs _ =>
      have hdeclares : planned.Declares (Shape.TermsSatisfy Term.Solid) :=
        ⟨hs.declared, hs.checkpoints⟩
      have hall : planned'.Declares fun _ => True := ⟨fun _ _ => trivial, fun _ _ => trivial⟩
      hp.imp hdeclares hall fun _ _ herased hsolid _ => ⟨herased, hsolid⟩
  have hsteps : ∀ planned ∈ plan, ∀ step ∈ planned.steps, step.Determined (.ofTerms bindings) :=
    fun planned hmem step hstep => ⟨(hsolid planned hmem).steps step hstep,
      houtputs planned hmem step hstep,
      Standard.fixesAxes (mem_layers_of_planModel hresolved h.planned planned hmem step hstep)⟩
  have hshape : ∀ shape, plan.head?.bind (·.declared) = some shape →
      shape.Tallies (.ofTerms bindings) shape := by
    intro shape hshape
    obtain ⟨first, hfirst, hdeclared⟩ := Option.bind_eq_some_iff.mp hshape
    exact .same ((hsolid first (List.mem_of_mem_head? hfirst)).declared shape hdeclared)
  obtain ⟨nodes', hinferred, hrelated⟩ :=
    h.reinfer htrust hplan hinput (simulates_leavesOut hσ) hsteps hshape
  have hsymbols := h.symbols_of_tallies hσ (planModel_eq_ok hplanned).2 hplan hsteps
    (h.declares_familiar hmodel hinside) hinferred hrelated
  have hcompiles := h.recheck hlowered hdefinition hplanned hinferred
    (hrelated.imp fun _ _ hn => hn.resembles_tallies) hsymbols
  exact ⟨_, hcompiles.compileGraph, alike_of_related (resolve_eq_ok hresolved).1 hdefinition
    hrelated (fun _ _ hab => hab.equivalentUnder hσ) fun _ _ hs => hs.alike hσ⟩

/-- **Declared shapes are checks only once no parameter has to be guessed.** Let a program compile,
let the channels and features that its steps do not take from their inputs be given by terms in which
the values of the variables can be substituted, and let the shapes that are declared inside inline
models mention declared symbols only. If declared shapes are left out, except for that of the input,
the program still compiles, and the graph has the same nodes and steps, with parameters and shapes
that are equivalent under the values of the variables. -/
theorem erased_compile_alike {options : Options} {program program' : Program}
    {block block' : ModelBlock} {definition : Definition} {model : ResolvedModel}
    {warnings : List Warning} {plan : List PlannedNode} {bindings : Dictionary Term} {graph : Graph}
    (hplain : ∀ expr ∈ program.exprs, expr.isPlain = true)
    (htrust : options.trustDeclaredShapes = false) (hblock : program.model = some block)
    (hblock' : program'.model = some block') (himports : program'.imports = program.imports)
    (herases : block.Redeclares (fun _ => Erases) block')
    (hcompile : compileGraph options Standard.registry program = .ok graph)
    (hlowered : lowerProgram program = .ok definition)
    (hresolved : resolve Standard.registry options.warnUnusedImports definition =
      .ok (model, warnings))
    (hplanned : planModel model = .ok plan) (hbindings : block.bindings = .ok bindings)
    (houtputs : ∀ planned ∈ plan, ∀ step ∈ planned.steps, step.GivesOutput (.ofTerms bindings))
    (hinside : ∀ index shape, definition.DeclaresInside index shape →
      shape.SymbolsSatisfy (· ∈ graph.declaredSymbols)) :
    ∃ graph', compileGraph options Standard.registry program' = .ok graph' ∧
      graph.Alike (.ofTerms bindings) graph' := by
  obtain ⟨definition₁, model₁, plan₁, bindings₁, nodes, h, rfl⟩ := compiles_of_compileGraph hcompile
  obtain rfl := Except.ok.inj (h.lowered.symm.trans hlowered)
  obtain ⟨warnings₁, hresolved₁⟩ := h.resolved
  obtain ⟨rfl, -⟩ := Prod.mk.inj (Except.ok.inj (hresolved₁.symm.trans hresolved))
  obtain rfl := Except.ok.inj (h.planned.symm.trans hplanned)
  obtain rfl := Except.ok.inj ((h.bindings_eq hblock).symm.trans hbindings)
  exact h.erase hplain htrust hblock hblock' himports houtputs hinside herases

/-- A classifier whose channels and features are given. The shape of the first line of its inline
model and that of its last node can be chosen. -/
def classifierModel (inner outer : Option (List Expr)) : ModelBlock where
  name := "Classifier"
  declarations := [{ description := "N", value := some (.literal (.int 8)) }]
  lines := [
    { index := 0, shape := some [.identifier "c", .identifier "N"] },
    { index := 1
      model := some {
        name := "Body"
        lines := [
          { index := 1, calls := [{ name := "ReLU" }], shape := inner },
          { index := 2
            calls := [{
              name := "Conv1d"
              overrides := [{ description := "Co", value := some (.literal (.int 4)) }] }] }] } },
    { index := 2
      calls := [
        { name := "Transform" },
        { name := "Linear"
          overrides := [{ description := "Co", value := some (.identifier "N") }] }]
      shape := outer }]

/-- The model with the layer types that it needs. -/
def classifierProgram (inner outer : Option (List Expr)) : Program where
  imports := ["ReLU", "Conv1d", "Transform", "Linear"]
  model := some (classifierModel inner outer)

/-- Shapes can be left out of the classifier one by one. -/
theorem redeclares_classifierModel {inner inner' outer outer' : Option (List Expr)}
    (hinner : Erases inner inner') (houter : Erases outer outer') :
    (classifierModel inner outer).Redeclares (fun _ => Erases) (classifierModel inner' outer') :=
  ⟨rfl, .cons ⟨⟨rfl, Or.inl rfl⟩, fun _ => rfl, .none⟩
    (.cons ⟨⟨rfl, Or.inl rfl⟩, fun _ => rfl, .some ⟨rfl,
      .cons ⟨⟨rfl, hinner⟩, rfl⟩ (.cons ⟨⟨rfl, Or.inl rfl⟩, rfl⟩ .nil)⟩⟩
    (.cons ⟨⟨rfl, houter⟩, fun h => absurd h (show ¬(2 : Int) < 1 by decide), .none⟩
      .nil))⟩

/-- The extents of the input, with the value of the variable. -/
def inputExtents : Option (List Expr) := some [.identifier "c", .literal (.int 8)]

/-- The number of classes. -/
def classExtents : Option (List Expr) := some [.literal (.int 8)]

/-- The classifier compiles with its declared shapes and without, and the graphs are alike. -/
theorem classifierProgram_alike :
    ∃ definition model warnings plan bindings graph graph',
      lowerProgram (classifierProgram inputExtents classExtents) = .ok definition ∧
      resolve Standard.registry true definition = .ok (model, warnings) ∧
      planModel model = .ok plan ∧
      (classifierModel inputExtents classExtents).bindings = .ok bindings ∧
      (∀ planned ∈ plan, ∀ step ∈ planned.steps, step.GivesOutput (.ofTerms bindings)) ∧
      (∀ index shape, definition.DeclaresInside index shape →
        shape.SymbolsSatisfy (· ∈ graph.declaredSymbols)) ∧
      compileGraph {} Standard.registry (classifierProgram inputExtents classExtents) =
        .ok graph ∧
      compileGraph {} Standard.registry (classifierProgram none none) = .ok graph' ∧
      graph.Alike (.ofTerms bindings) graph' := by
  have hrun : (lowerProgram (classifierProgram inputExtents classExtents)).toOption.any
      (fun definition => (resolve Standard.registry true definition).toOption.any fun resolved =>
        (planModel resolved.1).toOption.any fun plan =>
          (classifierModel inputExtents classExtents).bindings.toOption.any fun bindings =>
            (compileGraph {} Standard.registry
                (classifierProgram inputExtents classExtents)).toOption.any fun graph =>
              decide (∀ planned ∈ plan, ∀ step ∈ planned.steps,
                step.GivesOutput (.ofTerms bindings)) &&
              definition.nodes.all fun spec => spec.inner.all fun line =>
                line.declared.all fun shape =>
                  shape.symbols.all (graph.declaredSymbols.contains ·)) = true := by
    decide +kernel
  simp only [Option.any_eq_true, Bool.and_eq_true, decide_eq_true_eq, List.all_eq_true,
    Option.all_eq_true, toOption_eq_some_iff, List.contains_iff_mem] at hrun
  obtain ⟨definition, hlowered, ⟨model, warnings⟩, hresolved, plan, hplanned, bindings, hbindings,
    graph, hgraph, houtputs, hdeclared⟩ := hrun
  have hinside : ∀ index shape, definition.DeclaresInside index shape →
      shape.SymbolsSatisfy (· ∈ graph.declaredSymbols) := by
    rintro index shape ⟨spec, hspec, -, line, hline, hshape⟩
    exact hdeclared spec hspec line hline shape hshape
  have hplain : ∀ expr ∈ (classifierProgram inputExtents classExtents).exprs,
      expr.isPlain = true := by decide +kernel
  have herases : (classifierModel inputExtents classExtents).Redeclares (fun _ => Erases)
      (classifierModel none none) := redeclares_classifierModel (Or.inr rfl) (Or.inr rfl)
  obtain ⟨graph', hgraph', halike⟩ := erased_compile_alike hplain
    (show ({} : Options).trustDeclaredShapes = false from rfl) rfl
    (show (classifierProgram none none).model = some (classifierModel none none) from rfl) rfl
    herases hgraph hlowered hresolved hplanned hbindings houtputs hinside
  exact ⟨definition, model, warnings, plan, bindings, graph, graph', hlowered, hresolved, hplanned,
    hbindings, houtputs, hinside, hgraph, hgraph', halike⟩

/-- Every step of a program has the channels or features that it does not take from its input. -/
def Program.SetsOutputs (program : Program) : Prop :=
  ∃ definition model warnings plan, lowerProgram program = .ok definition ∧
    resolve Standard.registry true definition = .ok (model, warnings) ∧
    planModel model = .ok plan ∧ ∀ planned ∈ plan, ∀ step ∈ planned.steps, ∀ name,
      step.layerType.rule.family.outputParameter? = some name →
        ∃ t, step.params.term? name .absent = some t

/-- A sufficient check that every step has its output. -/
theorem Program.SetsOutputs.of_any {program : Program}
    (h : (lowerProgram program).toOption.any (fun definition =>
      (resolve Standard.registry true definition).toOption.any fun resolved =>
        (planModel resolved.1).toOption.any fun plan => plan.all fun planned =>
          planned.steps.all fun step => step.layerType.rule.family.outputParameter?.all
            fun name => (step.params.term? name .absent).isSome) = true) : program.SetsOutputs := by
  simp only [Option.any_eq_true, List.all_eq_true, Option.all_eq_true, toOption_eq_some_iff,
    Option.isSome_iff_exists] at h
  obtain ⟨definition, hlowered, ⟨model, warnings⟩, hresolved, plan, hplanned, hsets⟩ := h
  exact ⟨definition, model, warnings, plan, hlowered, hresolved, hplanned, hsets⟩

/-- A flattened convolution whose channels have no value under that of the variable. Whether its
kernel exceeds an extent that is zero is not known, as no number is given for it. The shape in front
of it can be chosen. -/
def vanishingModel (extents : Option (List Expr)) : ModelBlock where
  name := "Vanishing"
  declarations := [{ description := "N", value := some (.literal (.int 10)) }]
  lines := [
    { index := 0
      shape := some [.identifier "c", .binary "-" (.identifier "c") (.identifier "c")] },
    { index := 1, calls := [{ name := "ReLU" }], shape := extents },
    { index := 2
      calls := [{
        name := "Conv1d"
        overrides := [
          { description := "Co"
            value := some (.binary "/" (.identifier "c")
              (.binary "-" (.identifier "N") (.literal (.int 10)))) },
          { description := "K", value := some (.identifier "c") }] }] },
    { index := 3, calls := [{ name := "Transform" }], shape := some [.literal (.int 0)] }]

/-- The model with the layer types that it needs. -/
def vanishingProgram (extents : Option (List Expr)) : Program where
  imports := ["ReLU", "Conv1d", "Transform"]
  model := some (vanishingModel extents)

/-- An inline model that declares a shape with a symbol that nobody has introduced. The shape of its
last line can be chosen. -/
def cancellingModel (extents : Option (List Expr)) : ModelBlock where
  name := "Cancelling"
  lines := [
    { index := 0, shape := some [.literal (.int 5)] },
    { index := 1
      model := some {
        name := "Inner"
        lines := [
          { index := 1, calls := [{ name := "ReLU" }]
            shape := some [.binary "-"
              (.binary "+" (.literal (.int 5)) (.identifier "Foo")) (.identifier "Foo")] },
          { index := 2, calls := [{ name := "ReLU" }], shape := extents }] } }]

/-- The model with the layer type that it needs. -/
def cancellingProgram (extents : Option (List Expr)) : Program where
  imports := ["ReLU"]
  model := some (cancellingModel extents)

/-- Two programs compile with a declared shape and not without it, although the channels of all
steps are set. Multiplied by a zero that is declared, channels without a value vanish, which they do
not if the extent has to be computed; and a declared shape hides the symbols of the one in front of
it. -/
theorem left_out_declarations_matter :
    ((∀ expr ∈ (vanishingProgram (some [.identifier "c", .literal (.int 0)])).exprs,
        expr.isPlain = true) ∧
      (vanishingProgram (some [.identifier "c", .literal (.int 0)])).SetsOutputs ∧
      (vanishingModel (some [.identifier "c", .literal (.int 0)])).Redeclares (fun _ => Erases)
        (vanishingModel none) ∧
      (∃ graph, compileGraph {} Standard.registry
        (vanishingProgram (some [.identifier "c", .literal (.int 0)])) = .ok graph) ∧
      ¬ ∃ graph, compileGraph {} Standard.registry (vanishingProgram none) = .ok graph) ∧
    (∀ expr ∈ (cancellingProgram (some [.literal (.int 5)])).exprs, expr.isPlain = true) ∧
    (cancellingProgram (some [.literal (.int 5)])).SetsOutputs ∧
    (cancellingModel (some [.literal (.int 5)])).Redeclares (fun _ => Erases)
      (cancellingModel none) ∧
    (∃ graph, compileGraph {} Standard.registry
      (cancellingProgram (some [.literal (.int 5)])) = .ok graph) ∧
    ¬ ∃ graph, compileGraph {} Standard.registry (cancellingProgram none) = .ok graph := by
  refine ⟨⟨by decide +kernel, .of_any (by decide +kernel), ?_, ?_, ?_⟩, by decide +kernel,
    .of_any (by decide +kernel), ?_, ?_, ?_⟩
  · exact ⟨rfl, .cons ⟨⟨rfl, Or.inl rfl⟩, fun _ => rfl, .none⟩
      (.cons ⟨⟨rfl, Or.inr rfl⟩, fun h => (Int.lt_irrefl 1 h).elim, .none⟩
      (.cons ⟨⟨rfl, Or.inl rfl⟩, fun _ => rfl, .none⟩
      (.cons ⟨⟨rfl, Or.inl rfl⟩, fun _ => rfl, .none⟩ .nil)))⟩
  · exact exists_eq_ok_iff.mpr (by decide +kernel)
  · exact mt exists_eq_ok_iff.mp (by decide +kernel)
  · exact ⟨rfl, .cons ⟨⟨rfl, Or.inl rfl⟩, fun _ => rfl, .none⟩
      (.cons ⟨⟨rfl, Or.inl rfl⟩, fun _ => rfl, .some ⟨rfl, .cons ⟨⟨rfl, Or.inl rfl⟩, rfl⟩
        (.cons ⟨⟨rfl, Or.inr rfl⟩, rfl⟩ .nil)⟩⟩ .nil)⟩
  · exact exists_eq_ok_iff.mpr (by decide +kernel)
  · exact mt exists_eq_ok_iff.mp (by decide +kernel)

end Shapeline
