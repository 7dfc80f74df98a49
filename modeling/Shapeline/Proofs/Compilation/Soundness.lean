import Shapeline.Proofs.Compilation.Stages
import Shapeline.Proofs.Inference.Numbers

/-!
# Soundness of compilation

The shapes that a compiled graph records are those that its layers compute, at every choice of
numbers for the symbols that the values of the model's variables leave over. A mismatch between an
inferred and a declared shape would show in such a run; it is refused unless declared shapes are
trusted.
-/

namespace Shapeline

variable {options : Options} {registry : Registry} {program : Program} {definition : Definition}
  {model : ResolvedModel} {plan : List PlannedNode} {bindings : Dictionary Term}
  {nodes : List GraphNode}

/-- Every node starts from the output of the one before, and unless declared shapes are trusted the
nodes are consistent. -/
theorem Compiles.consistent
    (h : Compiles options registry program definition model plan bindings nodes)
    (hmodel : model.Written) (htrust : options.trustDeclaredShapes = false) :
    (∃ first shape others, nodes = inputNode first shape :: others ∧ Chained shape nodes) ∧
      ∀ n ∈ nodes, n.Consistent (.ofTerms bindings) := by
  obtain ⟨first, rest, shape, others, hplan, hdeclared, rfl, hinfers⟩ := h.infers
  have hwritten := written_planModel hmodel h.planned
  rw [hplan] at hwritten
  obtain ⟨hfirst, hrest⟩ := List.forall_mem_cons.mp hwritten
  have hshape := hfirst.declared shape hdeclared
  refine ⟨⟨first, shape, others, rfl, rfl, hinfers.chained⟩, fun n hn => ?_⟩
  have hvalid := h.valid hmodel n hn
  rcases List.mem_cons.mp hn with rfl | hn
  · exact ⟨hvalid, Shape.AgreesUnder.refl _ shape, Shape.AgreesUnder.refl _ shape⟩
  · refine hinfers.consistent rfl (h.bindings_written hmodel) hrest hshape htrust
      (fun m hm name hname => ?_) n hn
    obtain ⟨axis, haxis, hname⟩ := List.mem_flatMap.mp hname
    refine h.not_marked hmodel (List.mem_cons_of_mem _ hm) name ?_
    exact Names.mem_union.mpr (Or.inr (Names.mem_union.mpr (Or.inl
      (Shape.mem_symbols.mpr ⟨axis, haxis, hname⟩))))

/-- **Compilation is sound for every instantiation.** Give the symbols that are left over any
numbers at which all recorded shapes and dimensions have values. Then the layers, run on plain
numbers from the values of the input shape, pass at every step and every node through the values of
the recorded shapes. -/
theorem compiled_graph_sound {graph : Graph} (hprogram : program.Authored)
    (htrust : options.trustDeclaredShapes = false)
    (h : compileGraph options Standard.registry program = .ok graph) :
    ∃ bindings, resolveBindings graph.hyperparameterValues = .ok bindings ∧
      ∀ ρ : String → ℚ, (∀ n ∈ graph.nodes, n.HasValues (Term.boundValue bindings ρ)) →
        ∃ traces, graph.run (Term.boundValue bindings ρ) = some traces ∧
          List.Forall₂ (fun n trace => trace.Follows (Term.boundValue bindings ρ) n) graph.nodes
            traces := by
  obtain ⟨definition, model, plan, bindings, nodes, hcompiles, rfl⟩ := compiles_of_compileGraph h
  have hmodel := hcompiles.model_written Standard.written_registry hprogram
  obtain ⟨⟨first, shape, others, rfl, hchained⟩, hconsistent⟩ :=
    hcompiles.consistent hmodel htrust
  refine ⟨bindings, (hyperparameterValues_assembleGraph hmodel).symm ▸ hcompiles.bound, ?_⟩
  intro ρ hvalues
  rw [Term.boundValue_eq] at hvalues ⊢
  obtain ⟨xs, hxs⟩ := (hvalues _ List.mem_cons_self).output
  obtain ⟨traces, hrun, hfollows⟩ := hchained.runNodes_eq hconsistent hvalues hxs
  refine ⟨traces, ?_, hfollows⟩
  have hinput : (assembleGraph model (inputNode first shape :: others)).inputShape = .ok shape :=
    rfl
  have hstart : shape.values (Term.valueAt ((Instantiation.total ρ).under (.ofTerms bindings))) =
      some xs := hxs
  rw [Graph.run, hinput]
  exact Option.bind_eq_some_iff.mpr ⟨shape, rfl, Option.bind_eq_some_iff.mpr ⟨xs, hstart, hrun⟩⟩

/-- The sample program runs on extents of thirty-two. -/
theorem sampleProgram_sound : sampleProgram.Authored ∧
    ∃ graph bindings, compileGraph {} Standard.registry sampleProgram = .ok graph ∧
      resolveBindings graph.hyperparameterValues = .ok bindings ∧
      (∀ n ∈ graph.nodes, n.HasValues (Term.boundValue bindings fun _ => 32)) ∧
      ∃ traces, graph.run (Term.boundValue bindings fun _ => 32) = some traces ∧
        List.Forall₂ (fun n trace => trace.Follows (Term.boundValue bindings fun _ => 32) n)
          graph.nodes traces := by
  have hrun : (compileGraph {} Standard.registry sampleProgram).toOption.any (fun graph =>
      (resolveBindings graph.hyperparameterValues).toOption.any fun bindings =>
        decide (∀ n ∈ graph.nodes, n.HasValues (Term.boundValue bindings fun _ => 32))) = true := by
    decide +kernel
  simp only [Option.any_eq_true, decide_eq_true_eq] at hrun
  obtain ⟨graph, hgraph, bindings, hbindings, hvalues⟩ := hrun
  obtain ⟨bindings', hbindings', hsound⟩ :=
    compiled_graph_sound authored_sampleProgram rfl (toOption_eq_some_iff.mp hgraph)
  obtain rfl := Except.ok.inj ((toOption_eq_some_iff.mp hbindings).symm.trans hbindings')
  exact ⟨authored_sampleProgram, graph, bindings, toOption_eq_some_iff.mp hgraph, hbindings',
    hvalues, hsound _ hvalues⟩

end Shapeline
