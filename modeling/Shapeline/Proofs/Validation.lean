import Shapeline.Proofs.Outcome
import Shapeline.Validation

/-!
# Graphs without diagnostics

Validation finds nothing in a graph if it finds nothing in each node and at each boundary between
nodes. Besides the symbols it looks at numbers of axes, at layer types and at the parameters that
select axes only, so a graph that resembles one without diagnostics in these has none either.
-/

namespace Shapeline

variable {declared : List String} {previous previous' : Option GraphNode} {n n' p p' : GraphNode}
  {nodes nodes' rest : List GraphNode} {s s' : LayerStep} {steps steps' : List LayerStep}
  {node : Int} {name : String}

/-- Validation finds nothing in a node, and nothing at the boundary to the node before. -/
structure GraphNode.Passes (declared : List String) (previous : Option GraphNode) (n : GraphNode) :
    Prop where
  /-- The symbols are declared. -/
  symbols : ∀ name ∈ n.symbols, name ∈ declared
  /-- The steps have no diagnostics. -/
  steps : checkSteps n.index n.steps = .ok []
  /-- The numbers of axes agree with the node before. -/
  chain : ∀ p, previous = some p → checkChain p n = .ok []

/-- The symbols of a node have no diagnostics exactly if they are declared. -/
theorem checkSymbols_eq_nil_iff :
    checkSymbols declared n = [] ↔ ∀ name ∈ n.symbols, name ∈ declared := by
  simp [checkSymbols, Names.diff, List.filter_eq_nil_iff]

/-- Nodes have no diagnostics if the first has none and those after it have none. -/
theorem checkNodes_cons_eq_nil_iff :
    checkNodes declared previous (n :: rest) = .ok [] ↔
      n.Passes declared previous ∧ checkNodes declared (some n) rest = .ok [] := by
  constructor
  · intro h
    obtain ⟨steps, hsteps, h⟩ := bind_eq_ok_iff.mp h
    have hchain : ∃ chain others, (∀ p, previous = some p → checkChain p n = .ok chain) ∧
        checkNodes declared (some n) rest = .ok others ∧
        checkSymbols declared n ++ steps ++ chain ++ others = [] := by
      cases previous with
      | none =>
        obtain ⟨chain, hchain, h⟩ := bind_eq_ok_iff.mp h
        obtain ⟨others, hothers, h⟩ := bind_eq_ok_iff.mp h
        exact ⟨chain, others, nofun, hothers, (pure_eq_ok_iff.mp h).symm⟩
      | some p =>
        obtain ⟨chain, hchain, h⟩ := bind_eq_ok_iff.mp h
        obtain ⟨others, hothers, h⟩ := bind_eq_ok_iff.mp h
        refine ⟨chain, others, fun p' hp' => ?_, hothers, (pure_eq_ok_iff.mp h).symm⟩
        exact Option.some.inj hp' ▸ hchain
    obtain ⟨chain, others, hchain, hothers, hnil⟩ := hchain
    simp only [List.append_eq_nil_iff] at hnil
    obtain ⟨⟨⟨hsymbols, rfl⟩, rfl⟩, rfl⟩ := hnil
    exact ⟨⟨checkSymbols_eq_nil_iff.mp hsymbols, hsteps, hchain⟩, hothers⟩
  · rintro ⟨hpasses, hothers⟩
    refine bind_eq_ok_iff.mpr ⟨[], hpasses.steps, ?_⟩
    have hend : (do
        return checkSymbols declared n ++ [] ++ [] ++ (← checkNodes declared (some n) rest)) =
          (.ok [] : Outcome (List Diagnostic)) := by
      rw [checkSymbols_eq_nil_iff.mpr hpasses.symbols]
      exact bind_eq_ok_iff.mpr ⟨[], hothers, rfl⟩
    cases previous with
    | none => exact bind_eq_ok_iff.mpr ⟨[], rfl, hend⟩
    | some p => exact bind_eq_ok_iff.mpr ⟨[], hpasses.chain p rfl, hend⟩

/-- In a graph without diagnostics every symbol of a node is declared. -/
theorem declared_of_checkNodes (h : checkNodes declared previous nodes = .ok []) (hn : n ∈ nodes)
    (hname : name ∈ n.symbols) : name ∈ declared := by
  induction nodes generalizing previous with
  | nil => cases hn
  | cons first rest ih =>
    obtain ⟨hpasses, hothers⟩ := checkNodes_cons_eq_nil_iff.mp h
    rcases List.mem_cons.mp hn with rfl | hn
    · exact hpasses.symbols name hname
    · exact ih hothers hn

/-- Nodes without diagnostics have none if more symbols are declared. -/
theorem checkNodes_mono {declared' : List String} (h : checkNodes declared previous nodes = .ok [])
    (hdeclared : ∀ name ∈ declared, name ∈ declared') :
    checkNodes declared' previous nodes = .ok [] := by
  induction nodes generalizing previous with
  | nil => rfl
  | cons first rest ih =>
    obtain ⟨hpasses, hothers⟩ := checkNodes_cons_eq_nil_iff.mp h
    have hsymbols : ∀ name ∈ first.symbols, name ∈ declared' :=
      fun name hname => hdeclared name (hpasses.symbols name hname)
    exact checkNodes_cons_eq_nil_iff.mpr ⟨{ hpasses with symbols := hsymbols }, ih hothers⟩

/-- The boundary to the node before has no diagnostics if the numbers of axes agree. -/
theorem checkChain_eq_nil_iff :
    checkChain p n = .ok [] ↔ n.input.rank = p.output.rank ∧
      ∀ first ∈ n.steps.head?, first.input.rank = p.output.rank := by
  unfold checkChain
  by_cases hinput : n.input.rank = p.output.rank
  · rw [if_pos hinput]
    cases hsteps : n.steps with
    | nil => exact iff_of_true rfl ⟨hinput, nofun⟩
    | cons first others =>
      by_cases hfirst : first.input.rank = p.output.rank
      · exact iff_of_true (if_pos hfirst) ⟨hinput, fun s hs => Option.some.inj hs ▸ hfirst⟩
      · refine iff_of_false (fun h => ?_) fun h => hfirst (h.2 first rfl)
        dsimp only at h
        rw [if_neg hfirst] at h
        obtain ⟨_, -, h⟩ := bind_eq_ok_iff.mp h
        cases pure_eq_ok_iff.mp h
  · rw [if_neg hinput]
    refine iff_of_false (fun h => ?_) fun h => hinput h.1
    obtain ⟨_, -, h⟩ := bind_eq_ok_iff.mp h
    cases pure_eq_ok_iff.mp h

/-- Two checks in a row find nothing exactly if each finds nothing. -/
theorem checks_eq_nil_iff {x y : Outcome (List Diagnostic)} :
    (do return (← x) ++ (← y)) = .ok [] ↔ x = .ok [] ∧ y = .ok [] := by
  constructor
  · intro h
    obtain ⟨first, hx, h⟩ := bind_eq_ok_iff.mp h
    obtain ⟨second, hy, h⟩ := bind_eq_ok_iff.mp h
    obtain ⟨rfl, rfl⟩ := List.append_eq_nil_iff.mp (pure_eq_ok_iff.mp h).symm
    exact ⟨hx, hy⟩
  · rintro ⟨rfl, rfl⟩
    rfl

/-- The parameters of a step that select an axis have no diagnostics exactly if each that is given
selects an axis of the output. -/
theorem checkAxes_eq_nil_iff {layer : LayerType} {names : List String} :
    checkAxes node layer s names = .ok [] ↔ ∀ name ∈ names, ∀ v, s.params.given? name = some v →
      ∃ position, resolveAxis v s.output.rank = .ok (some position) := by
  induction names with
  | nil => exact iff_of_true rfl nofun
  | cons name rest ih =>
    rw [List.forall_mem_cons, ← ih, checkAxes]
    cases s.params.given? name with
    | none => exact checks_eq_nil_iff.trans (and_congr_left fun _ => iff_of_true rfl nofun)
    | some v =>
      dsimp only
      rw [bind_eq_ok_iff]
      constructor
      · rintro ⟨found, hfound, h⟩
        cases found with
        | none => cases (checks_eq_nil_iff.mp h).1
        | some position =>
          refine ⟨fun w hw => ⟨position, ?_⟩, (checks_eq_nil_iff.mp h).2⟩
          exact Option.some.inj hw ▸ hfound
      · rintro ⟨h, hrest⟩
        obtain ⟨position, hfound⟩ := h v rfl
        exact ⟨some position, hfound, checks_eq_nil_iff.mpr ⟨rfl, hrest⟩⟩

/-- A step has no diagnostics exactly if it has a layer type that accepts its input and whose
parameters select axes of its output. -/
theorem checkStep_eq_nil_iff : checkStep node s = .ok [] ↔ ∃ layer, s.layerType = some layer ∧
    layer.rule.acceptsRank s.input.rank = true ∧
    ∀ name ∈ layer.axisParameters, ∀ v, s.params.given? name = some v →
      ∃ position, resolveAxis v s.output.rank = .ok (some position) := by
  unfold checkStep
  cases s.layerType with
  | none =>
    refine iff_of_false (fun h => ?_) (by simp)
    cases pure_eq_ok_iff.mp h
  | some layer =>
    have harity : (pure (if layer.rule.acceptsRank s.input.rank = true then []
        else [Diagnostic.arity (some layer.name) layer.rule.expectedRank s.input.rank (some node)]) :
          Outcome (List Diagnostic)) = .ok [] ↔ layer.rule.acceptsRank s.input.rank = true := by
      split <;> simp [pure_eq_ok_iff, *]
    refine checks_eq_nil_iff.trans (Iff.trans (and_congr harity checkAxes_eq_nil_iff) ?_)
    simp only [Option.some.injEq, exists_eq_left']

/-- Steps have no diagnostics exactly if none of them has. -/
theorem checkSteps_eq_nil_iff :
    checkSteps node steps = .ok [] ↔ ∀ s ∈ steps, checkStep node s = .ok [] := by
  induction steps with
  | nil => exact iff_of_true rfl nofun
  | cons s rest ih =>
    rw [List.forall_mem_cons, ← ih]
    exact checks_eq_nil_iff

/-- Two steps have one layer type, as many axes and the same parameters that select an axis. -/
structure LayerStep.Resembles (s s' : LayerStep) : Prop where
  /-- The layer types are equal. -/
  layerType : s'.layerType = s.layerType
  /-- The inputs have as many axes. -/
  input : s'.input.rank = s.input.rank
  /-- The outputs have as many axes. -/
  output : s'.output.rank = s.output.rank
  /-- The parameters that select an axis are equal. -/
  params : ∀ layer, s.layerType = some layer → ∀ name ∈ layer.axisParameters,
    s'.params.get? name = s.params.get? name

/-- Two nodes have steps that resemble each other, and shapes with as many axes. -/
structure GraphNode.Resembles (n n' : GraphNode) : Prop where
  /-- The numbers are equal. -/
  index : n'.index = n.index
  /-- The steps resemble each other. -/
  steps : List.Forall₂ LayerStep.Resembles n.steps n'.steps
  /-- The inputs have as many axes. -/
  input : n'.input.rank = n.input.rank
  /-- The outputs have as many axes. -/
  output : n'.output.rank = n.output.rank

/-- The diagnostics about parameters that select an axis depend on these and on the number of axes
only. -/
theorem checkAxes_congr {layer : LayerType} {names : List String}
    (houtput : s'.output.rank = s.output.rank)
    (hparams : ∀ name ∈ names, s'.params.get? name = s.params.get? name) :
    checkAxes node layer s' names = checkAxes node layer s names := by
  induction names with
  | nil => rfl
  | cons name names ih =>
    obtain ⟨hname, hnames⟩ := List.forall_mem_cons.mp hparams
    have hgiven : Parameters.given? s'.params name = Parameters.given? s.params name := by
      unfold Parameters.given?
      rw [hname]
    unfold checkAxes
    rw [hgiven, houtput, ih hnames]

/-- Steps that resemble each other have the same diagnostics. -/
theorem LayerStep.Resembles.checkStep_eq (h : s.Resembles s') :
    checkStep node s' = checkStep node s := by
  unfold checkStep
  rw [h.layerType]
  cases hlayer : s.layerType with
  | none => rfl
  | some layer =>
    simp only [h.input, checkAxes_congr h.output (h.params layer hlayer)]

/-- Steps that resemble each other one by one have the same diagnostics. -/
theorem checkSteps_eq_of_resembles (h : List.Forall₂ LayerStep.Resembles steps steps') :
    checkSteps node steps' = checkSteps node steps := by
  induction h with
  | nil => rfl
  | cons hstep _ ih => rw [checkSteps, checkSteps, hstep.checkStep_eq, ih]

/-- A node that resembles one without diagnostics has none if its symbols are declared. -/
theorem GraphNode.Passes.of_resembles (h : n.Passes declared previous) (hn : n.Resembles n')
    (hprevious : Option.Rel GraphNode.Resembles previous previous')
    (hsymbols : ∀ name ∈ n'.symbols, name ∈ declared) : n'.Passes declared previous' where
  symbols := hsymbols
  steps := by rw [checkSteps_eq_of_resembles hn.steps, hn.index, h.steps]
  chain p' hp' := by
    cases hprevious with
    | none => cases hp'
    | @some p _ hp =>
      cases hp'
      obtain ⟨hinput, hfirst⟩ := checkChain_eq_nil_iff.mp (h.chain p rfl)
      refine checkChain_eq_nil_iff.mpr ⟨by rw [hn.input, hp.output, hinput], fun first' h' => ?_⟩
      obtain ⟨first, hmem, hstep⟩ := exists_of_head? hn.steps h'
      rw [hstep.input, hp.output, hfirst first hmem]

/-- Nodes that resemble ones without diagnostics have none if their symbols are declared. -/
theorem checkNodes_of_resembles (h : checkNodes declared previous nodes = .ok [])
    (hnodes : List.Forall₂ GraphNode.Resembles nodes nodes')
    (hprevious : Option.Rel GraphNode.Resembles previous previous')
    (hsymbols : ∀ n ∈ nodes', ∀ name ∈ n.symbols, name ∈ declared) :
    checkNodes declared previous' nodes' = .ok [] := by
  induction hnodes generalizing previous previous' with
  | nil => rfl
  | cons hn _ ih =>
    obtain ⟨hpasses, hothers⟩ := checkNodes_cons_eq_nil_iff.mp h
    obtain ⟨hfirst, hrest⟩ := List.forall_mem_cons.mp hsymbols
    exact checkNodes_cons_eq_nil_iff.mpr
      ⟨hpasses.of_resembles hn hprevious hfirst, ih hothers (.some hn) hrest⟩

end Shapeline
