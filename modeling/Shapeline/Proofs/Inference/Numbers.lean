import Shapeline.Proofs.Inference.Invariants
import Shapeline.Proofs.Rule.Numbers

/-!
# Runs on plain numbers

The layers of a graph can be run on plain numbers, each from what the layer before has yielded, with
the values of the recorded parameters. In consistent nodes such a run passes through the values of
the recorded shapes, although it never looks at them after the first.
-/

namespace Shapeline

/-- The value of a term once the values of a model's variables have been substituted. -/
def Term.boundValue (bindings : Dictionary Term) (ρ : String → ℚ) (t : Term) : Option ℚ :=
  (t.substituteTerms bindings).toOption.bind (Term.valueAt (.total ρ))

/-- The layers of several steps on plain numbers, one after another: the extents after each. -/
def runLayers (value : Term → Option ℚ) : List LayerStep → List ℚ → Option (List (List ℚ))
  | [], _ => some []
  | s :: rest, extents => do
    let output ← s.run value extents
    let outputs ← runLayers value rest output
    pure (output :: outputs)

/-- What the layers of a node yield on plain numbers. -/
structure NodeTrace where
  /-- The extents after each step. -/
  outputs : List (List ℚ)
  /-- The extents after the last step. -/
  result : List ℚ

/-- The layers of a node on plain numbers. -/
def GraphNode.run (value : Term → Option ℚ) (n : GraphNode) (extents : List ℚ) :
    Option NodeTrace := do
  let outputs ← runLayers value n.steps extents
  pure ⟨outputs, outputs.getLastD extents⟩

/-- The layers of several nodes on plain numbers, each node from the result of the one before. -/
def runNodes (value : Term → Option ℚ) : List GraphNode → List ℚ → Option (List NodeTrace)
  | [], _ => some []
  | n :: rest, extents => do
    let trace ← n.run value extents
    let traces ← runNodes value rest trace.result
    pure (trace :: traces)

/-- The layers of a graph on plain numbers, from the values of the shape that the graph takes. -/
def Graph.run (value : Term → Option ℚ) (g : Graph) : Option (List NodeTrace) := do
  let shape ← g.inputShape.toOption
  runNodes value g.nodes (← shape.values value)

/-- The shapes of a step and those of its parameters that are dimensions have values. -/
structure LayerStep.HasValues (value : Term → Option ℚ) (s : LayerStep) : Prop where
  /-- The input has values. -/
  input : ∃ xs, s.input.values value = some xs
  /-- The output has values. -/
  output : ∃ xs, s.output.values value = some xs
  /-- The dimensions among the parameters have values. -/
  params : ∀ name v t, s.params.get? name = some v → v.toTerm? = some t → ∃ x, value t = some x

/-- The steps and the shapes of a node have values. -/
structure GraphNode.HasValues (value : Term → Option ℚ) (n : GraphNode) : Prop where
  /-- The steps have values. -/
  steps : ∀ s ∈ n.steps, s.HasValues value
  /-- The inferred shape has values. -/
  inferred : ∃ xs, n.inferred.values value = some xs
  /-- The output has values. -/
  output : ∃ xs, n.output.values value = some xs

/-- The values that a step has can be looked for one by one. -/
theorem LayerStep.hasValues_iff {value : Term → Option ℚ} {s : LayerStep} :
    s.HasValues value ↔ (s.input.values value).isSome ∧ (s.output.values value).isSome ∧
      ∀ entry ∈ s.params.entries, ∀ t ∈ entry.2.toTerm?, (value t).isSome := by
  simp only [Option.isSome_iff_exists]
  constructor
  · intro h
    exact ⟨h.input, h.output, fun entry hentry t ht =>
      h.params entry.1 entry.2 t (Dictionary.mem_entries_iff.mp hentry) ht⟩
  · rintro ⟨hinput, houtput, hparams⟩
    exact ⟨hinput, houtput, fun name v t hget ht =>
      hparams (name, v) (Dictionary.mem_entries_iff.mpr hget) t ht⟩

instance {value : Term → Option ℚ} {s : LayerStep} : Decidable (s.HasValues value) :=
  decidable_of_iff _ LayerStep.hasValues_iff.symm

/-- The values that a node has can be looked for one by one. -/
theorem GraphNode.hasValues_iff {value : Term → Option ℚ} {n : GraphNode} :
    n.HasValues value ↔ (∀ s ∈ n.steps, s.HasValues value) ∧
      (n.inferred.values value).isSome ∧ (n.output.values value).isSome := by
  simp only [Option.isSome_iff_exists]
  constructor
  · intro h
    exact ⟨h.steps, h.inferred, h.output⟩
  · rintro ⟨hsteps, hinferred, houtput⟩
    exact ⟨hsteps, hinferred, houtput⟩

instance {value : Term → Option ℚ} {n : GraphNode} : Decidable (n.HasValues value) :=
  decidable_of_iff _ GraphNode.hasValues_iff.symm

/-- A run passes through the values of the shapes that a node records. -/
structure NodeTrace.Follows (value : Term → Option ℚ) (n : GraphNode) (trace : NodeTrace) :
    Prop where
  /-- After every step there are the values of its output. -/
  outputs : List.Forall₂ (fun s xs => s.output.values value = some xs) n.steps trace.outputs
  /-- After the last step there are the values of the inferred shape. -/
  inferred : n.inferred.values value = some trace.result
  /-- These are the values of the output too. -/
  output : n.output.values value = some trace.result

variable {σ : Substitution} {ρ : Instantiation} {a b start last : Shape} {steps : List LayerStep}
  {n : GraphNode} {nodes : List GraphNode} {xs ys zs : List ℚ}

/-- The value of a term once variables have been substituted is its value at the instantiation that
gives the variables the numbers of their values. -/
theorem Term.boundValue_eq (bindings : Dictionary Term) (ρ : String → ℚ) :
    Term.boundValue bindings ρ =
      Term.valueAt ((Instantiation.total ρ).under (.ofTerms bindings)) := by
  funext t
  cases hsubstitute : t.substituteTerms bindings with
  | ok u =>
    have hvalue := valueAt_of_substitute (ρ := .total ρ) hsubstitute
    simp [boundValue, hsubstitute, Except.toOption, hvalue]
  | error failure =>
    have hnone : t.valueAt ((Instantiation.total ρ).under (.ofTerms bindings)) = none := by
      by_contra hsome
      obtain ⟨x, hx⟩ := Option.ne_none_iff_exists'.mp hsome
      obtain ⟨u, hu⟩ := exists_substitute hx
      cases hsubstitute.symm.trans hu
    rw [hnone]
    simp [boundValue, hsubstitute, Except.toOption]

/-- Shapes that agree have the same values. -/
theorem Shape.AgreesUnder.values_eq (h : a.AgreesUnder σ b)
    (ha : a.values (Term.valueAt (ρ.under σ)) = some xs)
    (hb : b.values (Term.valueAt (ρ.under σ)) = some ys) : xs = ys := by
  rw [← List.forall₂_eq_eq_eq]
  rw [values_eq_some_iff] at ha hb
  exact forall₂_transport (fun x y u v hxy hu hv => hxy ρ u v hu hv) h ha hb

/-- Along linked steps the run passes through the values of the outputs to those of the last
shape. -/
theorem Linked.runLayers_eq (h : Linked σ start steps last)
    (hsteps : ∀ s ∈ steps, ∃ layer, s.Computes layer)
    (hvalues : ∀ s ∈ steps, s.HasValues (Term.valueAt (ρ.under σ)))
    (hstart : start.values (Term.valueAt (ρ.under σ)) = some xs)
    (hlast : last.values (Term.valueAt (ρ.under σ)) = some zs) :
    ∃ outputs, runLayers (Term.valueAt (ρ.under σ)) steps xs = some outputs ∧
      List.Forall₂ (fun s ys => s.output.values (Term.valueAt (ρ.under σ)) = some ys) steps
        outputs ∧
      outputs.getLastD xs = zs := by
  induction steps generalizing start xs with
  | nil => exact ⟨[], rfl, List.Forall₂.nil, Shape.AgreesUnder.values_eq h hstart hlast⟩
  | cons s rest ih =>
    obtain ⟨hinput, hrest⟩ := h
    obtain ⟨⟨layer, hcomputes⟩, hothers⟩ := List.forall_mem_cons.mp hsteps
    obtain ⟨hs, hrestValues⟩ := List.forall_mem_cons.mp hvalues
    obtain ⟨us, hus⟩ := hs.input
    obtain ⟨ys, hys⟩ := hs.output
    obtain rfl := hinput.values_eq hstart hus
    have hparams (name : String) (t : Term) (ht : s.params.term? name .absent = some t) :
        ∃ x, t.valueAt (ρ.under σ) = some x := by
      obtain ⟨v, hv, ht⟩ := Parameters.term?_absent_iff.mp ht
      exact hs.params name v t hv ht
    have hrun := hcomputes.run_eq hus hparams hys
    obtain ⟨outputs, houtputs, hall, hresult⟩ := ih hrest hothers hrestValues hys
    refine ⟨ys :: outputs, ?_, List.Forall₂.cons hys hall, ?_⟩
    · simp [runLayers, hrun, houtputs]
    · rw [List.getLastD_cons, hresult]

/-- On a consistent node the run passes through the values of the recorded shapes. -/
theorem GraphNode.Consistent.run_eq (h : n.Consistent σ)
    (hvalues : n.HasValues (Term.valueAt (ρ.under σ)))
    (hstart : n.input.values (Term.valueAt (ρ.under σ)) = some xs) :
    ∃ trace, n.run (Term.valueAt (ρ.under σ)) xs = some trace ∧
      trace.Follows (Term.valueAt (ρ.under σ)) n := by
  obtain ⟨zs, hzs⟩ := hvalues.inferred
  obtain ⟨ys, hys⟩ := hvalues.output
  have hsteps (s : LayerStep) (hs : s ∈ n.steps) : ∃ layer, s.Computes layer := by
    obtain ⟨layer, hvalid⟩ := h.steps s hs
    exact ⟨layer, hvalid.computes⟩
  obtain ⟨outputs, hrun, hall, rfl⟩ := h.linked.runLayers_eq hsteps hvalues.steps hstart hzs
  obtain rfl := h.agrees.values_eq hzs hys
  exact ⟨⟨outputs, outputs.getLastD xs⟩, by simp [run, hrun], ⟨hall, hzs, hys⟩⟩

/-- On consistent nodes in a chain the run passes through the values of the recorded shapes. -/
theorem Chained.runNodes_eq (h : Chained start nodes) (hnodes : ∀ n ∈ nodes, n.Consistent σ)
    (hvalues : ∀ n ∈ nodes, n.HasValues (Term.valueAt (ρ.under σ)))
    (hstart : start.values (Term.valueAt (ρ.under σ)) = some xs) :
    ∃ traces, runNodes (Term.valueAt (ρ.under σ)) nodes xs = some traces ∧
      List.Forall₂ (fun n trace => trace.Follows (Term.valueAt (ρ.under σ)) n) nodes traces := by
  induction nodes generalizing start xs with
  | nil => exact ⟨[], rfl, List.Forall₂.nil⟩
  | cons n rest ih =>
    obtain ⟨rfl, hrest⟩ := h
    obtain ⟨hconsistent, hothers⟩ := List.forall_mem_cons.mp hnodes
    obtain ⟨hn, hrestValues⟩ := List.forall_mem_cons.mp hvalues
    obtain ⟨trace, hrun, hfollows⟩ := hconsistent.run_eq hn hstart
    obtain ⟨traces, htraces, hall⟩ := ih hrest hothers hrestValues hfollows.output
    exact ⟨trace :: traces, by simp [runNodes, hrun, htraces], List.Forall₂.cons hfollows hall⟩

end Shapeline
