import Shapeline.Proofs.Compilation.Stages
import Shapeline.Proofs.Rule.Reapplication

/-!
# Graphs that apply again

The parameters and shapes that a graph records are rewritten after the rules have run: derived
channels are merged in, and placeholders are replaced whenever a declared shape says what they are.
The checks of the rules hold for what is recorded in the end.
-/

namespace Shapeline

/-- **Every step of a compiled graph applies again.** Wherever the values of the model's variables
can be substituted in the input and the parameters that a step records, the rule of its layer type
applies to them without minting a placeholder, and its output is equivalent to the recorded one. -/
theorem compiled_steps_reapply {options : Options} {program : Program} {graph : Graph}
    (hprogram : program.Authored)
    (h : compileGraph options Standard.registry program = .ok graph) :
    ∃ bindings, resolveBindings graph.hyperparameterValues = .ok bindings ∧
      ∀ n ∈ graph.nodes, ∀ s ∈ n.steps, ∀ input params,
        s.input.substitute (.ofTerms bindings) = .ok input →
        s.params.substitute (.ofTerms bindings) = .ok params →
        ∃ layer, s.Reapplies (.ofTerms bindings) layer := by
  obtain ⟨definition, model, plan, bindings, nodes, hcompiles, rfl⟩ := compiles_of_compileGraph h
  have hmodel := hcompiles.model_written Standard.written_registry hprogram
  refine ⟨bindings, (hyperparameterValues_assembleGraph hmodel).symm ▸ hcompiles.bound, ?_⟩
  intro n hn s hs input params hinput hparams
  obtain ⟨layer, hvalid⟩ := (hcompiles.valid hmodel n hn).steps s hs
  exact ⟨layer, hvalid.reapplies (hcompiles.bindings_written hmodel) hinput hparams⟩

/-- A step of the sample program applies again. -/
theorem sampleProgram_steps_reapply : sampleProgram.Authored ∧
    ∃ graph bindings, compileGraph {} Standard.registry sampleProgram = .ok graph ∧
      resolveBindings graph.hyperparameterValues = .ok bindings ∧
      ∃ n ∈ graph.nodes, ∃ s ∈ n.steps, ∃ layer, s.Reapplies (.ofTerms bindings) layer := by
  have hrun : (compileGraph {} Standard.registry sampleProgram).toOption.any (fun graph =>
      (resolveBindings graph.hyperparameterValues).toOption.any fun bindings =>
        graph.nodes.any fun n => n.steps.any fun s =>
          (s.input.substitute (.ofTerms bindings)).toOption.isSome &&
            (s.params.substitute (.ofTerms bindings)).toOption.isSome) = true := by
    decide +kernel
  simp only [Option.any_eq_true, List.any_eq_true, Bool.and_eq_true,
    Option.isSome_iff_exists] at hrun
  obtain ⟨graph, hgraph, bindings, hbindings, n, hn, s, hs, ⟨input, hinput⟩, params, hparams⟩ :=
    hrun
  obtain ⟨bindings', hbindings', hreapply⟩ :=
    compiled_steps_reapply authored_sampleProgram (toOption_eq_some_iff.mp hgraph)
  obtain rfl := Except.ok.inj ((toOption_eq_some_iff.mp hbindings).symm.trans hbindings')
  exact ⟨authored_sampleProgram, graph, bindings, toOption_eq_some_iff.mp hgraph, hbindings',
    n, hn, s, hs, hreapply n hn s hs input params (toOption_eq_some_iff.mp hinput)
      (toOption_eq_some_iff.mp hparams)⟩

end Shapeline
