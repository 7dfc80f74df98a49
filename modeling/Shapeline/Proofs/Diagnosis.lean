import Shapeline.Proofs.Rule.Axes
import Shapeline.Validation

/-!
# What validation finds

A graph that nobody has checked can be wrong in many ways at once: a symbol is not declared, a step
has no layer type or one that refuses its input, a parameter selects no axis, or a node does not
start where the one before it ends. The flaws of a graph are described here apart from the walk that
looks for them. The walk finds exactly the flaws, and each step without a layer type once. There is
one exception: a boundary whose message needs the name of a layer type that is not there.
-/

namespace Shapeline

/-- A step of a node has no layer type. -/
def Diagnostic.missingLayer (node : ℤ) : Diagnostic :=
  (Diagnostic.unknownLayer "<missing>").atNode node none

/-- A parameter of a step selects no axis of the output. -/
def LayerStep.AxisFlaw (node : ℤ) (s : LayerStep) (layer : LayerType) (name : String)
    (d : Diagnostic) : Prop :=
  ∃ v, s.params.given? name = some v ∧ ¬ v.Selects s.output.rank ∧
    d = .axisRange layer.name name v.display s.output.rank (some node)

/-- The terms by which a step selects axes lower. -/
def LayerStep.AxesLower (s : LayerStep) : Prop :=
  ∀ layer, s.layerType = some layer → ∀ name ∈ layer.axisParameters, ∀ v,
    s.params.given? name = some v → v.TermsSatisfy Term.Lowers

/-- What is wrong with a step of a node. -/
inductive LayerStep.Flaw (node : ℤ) (s : LayerStep) : Diagnostic → Prop
  /-- The step has no layer type. -/
  | untyped : s.layerType = none → Flaw node s (.missingLayer node)
  /-- The layer type refuses the number of axes of the input. -/
  | arity (layer : LayerType) : s.layerType = some layer →
    layer.rule.acceptsRank s.input.rank = false →
    Flaw node s (.arity (some layer.name) layer.rule.expectedRank s.input.rank (some node))
  /-- A parameter selects no axis of the output. -/
  | axis (layer : LayerType) (name : String) (d : Diagnostic) : s.layerType = some layer →
    name ∈ layer.axisParameters → s.AxisFlaw node layer name d → Flaw node s d

/-- What is wrong with a node by itself. -/
inductive GraphNode.Flaw (declared : List String) (n : GraphNode) : Diagnostic → Prop
  /-- A symbol is not declared. -/
  | symbol (name : String) : name ∈ n.symbols → name ∉ declared →
    Flaw declared n (.undeclaredSymbol name (some n.index))
  /-- Something is wrong with a step. -/
  | step (s : LayerStep) (d : Diagnostic) : s ∈ n.steps → s.Flaw n.index d → Flaw declared n d

/-- The name of the layer type that a node begins with, if it has one. -/
def GraphNode.firstLayer? (n : GraphNode) : Option String :=
  n.steps.head?.bind fun first => first.layerType.map (·.name)

/-- What is wrong between a node and the next one. -/
inductive GraphNode.Break (p n : GraphNode) : Diagnostic → Prop
  /-- The node does not start from as many axes as the one before it yields. -/
  | input : n.input.rank ≠ p.output.rank →
    Break p n (.arity n.firstLayer? (toString p.output.rank) n.input.rank (some n.index))
  /-- Its first step does not. -/
  | start (first : LayerStep) : n.input.rank = p.output.rank → first ∈ n.steps.head? →
    first.input.rank ≠ p.output.rank →
    Break p n (.arity n.firstLayer? (toString p.output.rank) first.input.rank (some n.index))

/-- What is wrong with a graph. -/
inductive Graph.Flaw (g : Graph) : Diagnostic → Prop
  /-- Something is wrong with a node. -/
  | node (n : GraphNode) (d : Diagnostic) : n ∈ g.nodes → n.Flaw g.declaredSymbols d → Flaw g d
  /-- Something is wrong between neighbouring nodes. -/
  | boundary (p n : GraphNode) (d : Diagnostic) : [p, n] <:+: g.nodes → p.Break n d → Flaw g d

/-- The layer types that the message about a boundary needs are there: all of the node if it starts
from another number of axes, the first one if only its first step does. -/
structure GraphNode.Nameable (p n : GraphNode) : Prop where
  /-- The node starts from another number of axes. -/
  input : n.input.rank ≠ p.output.rank → ∀ s ∈ n.steps, s.layerType ≠ none
  /-- The first step starts from another number of axes. -/
  start : n.input.rank = p.output.rank → ∀ first ∈ n.steps.head?,
    first.input.rank ≠ p.output.rank → first.layerType ≠ none

/-- A diagnostic for each step of a node that has no layer type. -/
def missingLayers (node : ℤ) (steps : List LayerStep) : List Diagnostic :=
  (steps.filter (·.layerType.isNone)).map fun _ => .missingLayer node

/-- A list holds the diagnostics with a property, and some of them say that a layer type is
missing. -/
structure Lists (flaw : Diagnostic → Prop) (missing found : List Diagnostic) : Prop where
  /-- The list holds nothing else. -/
  mem_iff : ∀ d, d ∈ found ↔ flaw d
  /-- These say that a layer type is missing, in their order. -/
  missing : found.filter (·.code = .unknownLayer) = missing

namespace Lists

variable {F G : Diagnostic → Prop} {a b missing missing' : List Diagnostic}

/-- Two lists in a row. -/
theorem append (ha : Lists F missing a) (hb : Lists G missing' b) :
    Lists (fun d => F d ∨ G d) (missing ++ missing') (a ++ b) where
  mem_iff d := by rw [List.mem_append, ha.mem_iff, hb.mem_iff]
  missing := by rw [List.filter_append, ha.missing, hb.missing]

/-- The property may be described in another way. -/
theorem congr (h : Lists F missing a) (hFG : ∀ d, F d ↔ G d) : Lists G missing a :=
  ⟨fun d => (h.mem_iff d).trans (hFG d), h.missing⟩

/-- An empty list holds nothing. -/
theorem nil (hF : ∀ d, ¬ F d) : Lists F [] [] := ⟨fun d => iff_of_false (by simp) (hF d), rfl⟩

/-- A list of one diagnostic that is about something else than a missing layer type. -/
theorem singleton {d : Diagnostic} (hd : d.code ≠ .unknownLayer) (hF : ∀ e, F e ↔ e = d) :
    Lists F [] [d] := ⟨fun e => by rw [List.mem_singleton, hF], by simp [hd]⟩

/-- Two walks in a row. -/
theorem of_walks {x y : Outcome (List Diagnostic)} (hx : Returns (Lists F missing) x)
    (hy : Returns (Lists G missing') y) :
    Returns (Lists (fun d => F d ∨ G d) (missing ++ missing')) (do return (← x) ++ (← y)) :=
  hx.of_bind fun _ ha => hy.of_bind fun _ hb => .of_pure (ha.append hb)

end Lists

/-- A walk finds the flaws if it can name what it has to, and otherwise stops at a step without a
layer type. -/
def Walks (named : Prop) (flaw : Diagnostic → Prop) (missing : List Diagnostic)
    (walk : Outcome (List Diagnostic)) : Prop :=
  (named ∧ Returns (Lists flaw missing) walk) ∨ ¬ named ∧ walk = .error .missingLayerType

/-- A walk that continues another one, after what has been found before. -/
theorem Walks.continue {N M : Prop} {F G H : Diagnostic → Prop}
    {before missing missing' : List Diagnostic} {x y : Outcome (List Diagnostic)}
    (hbefore : Lists F missing before) (hx : Walks N G [] x) (hy : Walks M H missing' y) :
    Walks (N ∧ M) (fun d => F d ∨ G d ∨ H d) (missing ++ missing')
      (do return before ++ (← x) ++ (← y)) := by
  rcases hx with ⟨hN, a, rfl, ha⟩ | ⟨hN, rfl⟩
  · rcases hy with ⟨hM, b, rfl, hb⟩ | ⟨hM, rfl⟩
    · refine Or.inl ⟨⟨hN, hM⟩, .of_pure ?_⟩
      rw [List.append_assoc]
      exact hbefore.append (ha.append hb)
    · exact Or.inr ⟨fun h => hM h.2, rfl⟩
  · exact Or.inr ⟨fun h => hN h.1, rfl⟩

/-- The conditions of a walk may be described in another way. -/
theorem Walks.congr {N M : Prop} {F G : Diagnostic → Prop} {missing : List Diagnostic}
    {x : Outcome (List Diagnostic)} (h : Walks N F missing x) (hNM : N ↔ M)
    (hFG : ∀ d, F d ↔ G d) : Walks M G missing x := by
  rw [Walks, ← hNM]
  exact h.imp_left fun ⟨hN, found, hfound, hlists⟩ => ⟨hN, found, hfound, hlists.congr hFG⟩

variable {declared : List String} {p n : GraphNode} {nodes rest : List GraphNode} {s : LayerStep}
  {steps : List LayerStep} {layer : LayerType} {names : List String} {node : ℤ}

/-- The terms that select axes lower if all terms among the parameters do. -/
theorem LayerStep.AxesLower.of_params (h : s.params.TermsSatisfy Term.Lowers) : s.AxesLower :=
  fun _ _ name _ v hv t ht => h name t
    (Parameters.term?_eq_some_iff_given?.mpr ⟨v, hv, Value.toTerm_eq_ok_iff.mpr ht⟩)

/-- The walk over parameters finds those that select no axis. -/
theorem lists_checkAxes (hterms : ∀ name ∈ names, ∀ v, s.params.given? name = some v →
      v.TermsSatisfy Term.Lowers) :
    Returns (Lists (fun d => ∃ name ∈ names, s.AxisFlaw node layer name d) [])
      (checkAxes node layer s names) := by
  induction names with
  | nil => exact .of_pure (.nil (by simp))
  | cons name names ih =>
    obtain ⟨hname, hnames⟩ := List.forall_mem_cons.mp hterms
    have hfirst {found : List Diagnostic} (hfound : Lists (s.AxisFlaw node layer name) [] found) :
        Returns (Lists (fun d => ∃ other ∈ name :: names, s.AxisFlaw node layer other d) [])
          (do return found ++ (← checkAxes node layer s names)) :=
      (ih hnames).of_bind fun others hothers =>
        .of_pure ((hfound.append hothers).congr fun d => by
          rw [List.exists_mem_cons_iff (s.AxisFlaw node layer · d)])
    unfold checkAxes
    cases hgiven : s.params.given? name with
    | none =>
      simp only [pure_bind]
      exact hfirst (.nil fun d hd => by simp [LayerStep.AxisFlaw, hgiven] at hd)
    | some v =>
      rcases resolveAxis_cases (hname v hgiven) s.output.rank with
        ⟨hselects, position, hresolve⟩ | ⟨hselects, hresolve⟩
      · refine Returns.of_bind (P := (· = some position)) ⟨_, hresolve, rfl⟩ ?_
        rintro _ rfl
        exact hfirst (.nil fun d hd => by simp [LayerStep.AxisFlaw, hgiven, hselects] at hd)
      · refine Returns.of_bind (P := (· = none)) ⟨_, hresolve, rfl⟩ ?_
        rintro _ rfl
        exact hfirst (.singleton nofun fun d => by simp [LayerStep.AxisFlaw, hgiven, hselects])

/-- The walk over one step finds its flaws. -/
theorem lists_checkStep (hterms : s.AxesLower) :
    Returns (Lists (s.Flaw node) (missingLayers node [s])) (checkStep node s) := by
  unfold checkStep
  cases hlayer : s.layerType with
  | none =>
    refine .of_pure ⟨fun d => ?_, by simp [missingLayers, hlayer]; rfl⟩
    rw [List.mem_singleton]
    constructor
    · rintro rfl
      exact .untyped hlayer
    · rintro (_ | ⟨layer, h, _⟩ | ⟨layer, name, _, h, _, _⟩)
      · rfl
      · cases hlayer.symm.trans h
      · cases hlayer.symm.trans h
  | some layer =>
    have harity : Lists (fun d => layer.rule.acceptsRank s.input.rank = false ∧
        d = .arity (some layer.name) layer.rule.expectedRank s.input.rank (some node)) []
        (if layer.rule.acceptsRank s.input.rank then []
          else [.arity (some layer.name) layer.rule.expectedRank s.input.rank (some node)]) := by
      cases haccepts : layer.rule.acceptsRank s.input.rank with
      | true => exact .nil (by simp)
      | false => exact .singleton nofun (by simp)
    have haxes : Returns (Lists (fun d => ∃ name ∈ layer.axisParameters,
        s.AxisFlaw node layer name d) []) (checkAxes node layer s layer.axisParameters) :=
      lists_checkAxes (hterms layer hlayer)
    obtain ⟨found, hfound, hlists⟩ := Lists.of_walks (.of_pure harity) haxes
    have hmissing : missingLayers node [s] = [] := by simp [missingLayers, hlayer]
    rw [hmissing]
    refine ⟨found, hfound, hlists.congr fun d => ⟨?_, ?_⟩⟩
    · rintro (⟨haccepts, rfl⟩ | ⟨name, hname, hd⟩)
      · exact .arity layer hlayer haccepts
      · exact .axis layer name d hlayer hname hd
    · rintro (h | ⟨other, h, haccepts⟩ | ⟨other, name, _, h, hname, hd⟩)
      · cases hlayer.symm.trans h
      · obtain rfl := Option.some.inj (hlayer.symm.trans h)
        exact Or.inl ⟨haccepts, rfl⟩
      · obtain rfl := Option.some.inj (hlayer.symm.trans h)
        exact Or.inr ⟨name, hname, hd⟩

/-- The walk over the steps of a node finds their flaws. -/
theorem lists_checkSteps (hterms : ∀ s ∈ steps, s.AxesLower) :
    Returns (Lists (fun d => ∃ s ∈ steps, s.Flaw node d) (missingLayers node steps))
      (checkSteps node steps) := by
  induction steps with
  | nil => exact .of_pure (.nil (by simp))
  | cons s rest ih =>
    obtain ⟨hs, hrest⟩ := List.forall_mem_cons.mp hterms
    obtain ⟨found, hfound, hlists⟩ := Lists.of_walks (lists_checkStep hs) (ih hrest)
    have hmissing : missingLayers node (s :: rest) =
        missingLayers node [s] ++ missingLayers node rest := by
      rw [missingLayers, ← List.singleton_append, List.filter_append, List.map_append]
      rfl
    rw [hmissing]
    exact ⟨found, hfound, hlists.congr fun d => by
      rw [List.exists_mem_cons_iff (LayerStep.Flaw node · d)]⟩

/-- The undeclared symbols of a node are found. -/
theorem lists_checkSymbols (declared : List String) (n : GraphNode) :
    Lists (fun d => ∃ name ∈ n.symbols, name ∉ declared ∧
      d = .undeclaredSymbol name (some n.index)) [] (checkSymbols declared n) where
  mem_iff d := by
    unfold checkSymbols Names.diff
    rw [List.mem_map]
    simp only [List.mem_filter, Bool.not_eq_true', List.contains_eq_mem, decide_eq_false_iff_not,
      and_assoc, eq_comm (a := d)]
  missing := by
    rw [List.filter_eq_nil_iff]
    intro d hd
    obtain ⟨name, -, rfl⟩ := List.mem_map.mp hd
    simp [Diagnostic.code, Diagnostic.undeclaredSymbol, Cause.code]

/-- The layers of steps can be named exactly if all of them have layer types. -/
theorem mapM_layer_cases (steps : List LayerStep) :
    ((∀ s ∈ steps, s.layerType ≠ none) ∧ ∃ names, steps.mapM LayerStep.layer = .ok names ∧
      names.head? = steps.head?.bind fun first => first.layerType.map (·.name)) ∨
    ¬ (∀ s ∈ steps, s.layerType ≠ none) ∧
      steps.mapM LayerStep.layer = .error .missingLayerType := by
  induction steps with
  | nil => exact Or.inl ⟨nofun, [], rfl, rfl⟩
  | cons s rest ih =>
    rw [List.mapM_cons, List.forall_mem_cons]
    cases hlayer : s.layerType with
    | none =>
      refine Or.inr ⟨fun h => h.1 rfl, ?_⟩
      rw [LayerStep.layer, hlayer]
      rfl
    | some layer =>
      have hname : s.layer = .ok layer.name := by rw [LayerStep.layer, hlayer]; rfl
      rw [hname]
      rcases ih with ⟨hall, names, hnames, -⟩ | ⟨hnot, herror⟩
      · exact Or.inl ⟨⟨nofun, hall⟩, layer.name :: names, by rw [hnames]; rfl, by simp [hlayer]⟩
      · exact Or.inr ⟨fun h => hnot h.2, by rw [herror]; rfl⟩

/-- The walk finds what is wrong at a boundary that can be named, and stops at any other. -/
theorem walks_checkChain (p n : GraphNode) :
    Walks (p.Nameable n) (p.Break n) [] (checkChain p n) := by
  unfold checkChain Walks
  by_cases hinput : n.input.rank = p.output.rank
  · rw [if_pos hinput]
    have hbreak (d : Diagnostic) : p.Break n d ↔ ∃ first ∈ n.steps.head?,
        first.input.rank ≠ p.output.rank ∧ d = .arity n.firstLayer? (toString p.output.rank)
          first.input.rank (some n.index) := by
      constructor
      · rintro (hne | ⟨first, _, hfirst, hne⟩)
        · exact absurd hinput hne
        · exact ⟨first, hfirst, hne, rfl⟩
      · rintro ⟨first, hfirst, hne, rfl⟩
        exact .start first hinput hfirst hne
    have hnameable : p.Nameable n ↔ ∀ first ∈ n.steps.head?, first.input.rank ≠ p.output.rank →
        first.layerType ≠ none :=
      ⟨fun h => h.start hinput, fun h => ⟨fun hne => absurd hinput hne, fun _ => h⟩⟩
    rw [hnameable]
    cases hsteps : n.steps with
    | nil => exact Or.inl ⟨nofun, .of_pure (.nil fun d hd => by simp [hbreak, hsteps] at hd)⟩
    | cons first rest =>
      simp only [hsteps, List.head?_cons, Option.mem_def, Option.some_inj,
        exists_eq_left'] at hbreak
      simp only [List.head?_cons, Option.mem_def, Option.some_inj, forall_eq']
      by_cases hfirst : first.input.rank = p.output.rank
      · rw [if_pos hfirst]
        exact Or.inl ⟨fun hne => absurd hfirst hne, .of_pure (.nil fun d hd => by
          simp [hbreak, hfirst] at hd)⟩
      · rw [if_neg hfirst]
        cases hlayer : first.layerType with
        | none =>
          refine Or.inr ⟨fun h => h hfirst rfl, ?_⟩
          rw [LayerStep.layer, hlayer]
          rfl
        | some layer =>
          refine Or.inl ⟨fun _ => nofun, ?_⟩
          rw [LayerStep.layer, hlayer]
          exact .of_pure (.singleton nofun fun d => by
            simp [hbreak, hfirst, GraphNode.firstLayer?, hsteps, hlayer])
  · rw [if_neg hinput]
    have hbreak (d : Diagnostic) : p.Break n d ↔
        d = .arity n.firstLayer? (toString p.output.rank) n.input.rank (some n.index) := by
      constructor
      · rintro (_ | ⟨_, heq, _, _⟩)
        · rfl
        · exact absurd heq hinput
      · rintro rfl
        exact .input hinput
    have hnameable : p.Nameable n ↔ ∀ s ∈ n.steps, s.layerType ≠ none :=
      ⟨fun h => h.input hinput, fun h => ⟨fun _ => h, fun heq => absurd heq hinput⟩⟩
    rw [hnameable, GraphNode.layers]
    rcases mapM_layer_cases n.steps with ⟨hall, names, hnames, hhead⟩ | ⟨hnot, herror⟩
    · refine Or.inl ⟨hall, ?_⟩
      rw [hnames]
      exact .of_pure (.singleton nofun fun d => by rw [hbreak, GraphNode.firstLayer?, ← hhead])
    · exact Or.inr ⟨hnot, by rw [herror]; rfl⟩

/-- The walk over the symbols and the steps of a node finds its flaws. -/
theorem lists_node (declared : List String)
    (hterms : ∀ s ∈ n.steps, s.AxesLower) :
    ∃ found, checkSteps n.index n.steps = .ok found ∧
      Lists (n.Flaw declared) (missingLayers n.index n.steps)
        (checkSymbols declared n ++ found) := by
  obtain ⟨found, hfound, hlists⟩ : Returns (Lists (fun d => ∃ s ∈ n.steps, s.Flaw n.index d)
      (missingLayers n.index n.steps)) (checkSteps n.index n.steps) := lists_checkSteps hterms
  refine ⟨found, hfound, ((lists_checkSymbols declared n).append hlists).congr fun d => ⟨?_, ?_⟩⟩
  · rintro (⟨name, hname, hnot, rfl⟩ | ⟨s, hs, hd⟩)
    · exact .symbol name hname hnot
    · exact .step s d hs hd
  · rintro (⟨name, hname, hnot⟩ | ⟨s, _, hs, hd⟩)
    · exact Or.inl ⟨name, hname, hnot, rfl⟩
    · exact Or.inr ⟨s, hs, hd⟩

/-- The neighbours in a list are its first two items and the neighbours in the rest. -/
theorem pair_infix_cons_iff {α : Type} {a b x y : α} {items : List α} :
    [a, b] <:+: x :: y :: items ↔ (a = x ∧ b = y) ∨ [a, b] <:+: y :: items := by
  rw [List.infix_cons_iff, List.cons_prefix_cons, List.cons_prefix_cons]
  simp

/-- The walk over nodes finds what is wrong with them and between them, unless it comes to a
boundary that cannot be named. -/
theorem walks_checkNodes (declared : List String) (previous : Option GraphNode)
    (hterms : ∀ n ∈ nodes, ∀ s ∈ n.steps, s.AxesLower) :
    Walks (∀ p n, [p, n] <:+: previous.toList ++ nodes → p.Nameable n)
      (fun d => (∃ n ∈ nodes, n.Flaw declared d) ∨
        ∃ p n, [p, n] <:+: previous.toList ++ nodes ∧ p.Break n d)
      (nodes.flatMap fun n => missingLayers n.index n.steps)
      (checkNodes declared previous nodes) := by
  induction nodes generalizing previous with
  | nil =>
    have hpair (p n : GraphNode) : ¬ [p, n] <:+: previous.toList ++ [] := fun h => by
      have hlen := h.length_le
      cases previous <;> simp at hlen
    refine Or.inl ⟨fun p n h => absurd h (hpair p n), .of_pure (.nil ?_)⟩
    rintro d (⟨n, hn, -⟩ | ⟨p, n, h, -⟩)
    · cases hn
    · exact hpair p n h
  | cons n rest ih =>
    obtain ⟨hn, hrest⟩ := List.forall_mem_cons.mp hterms
    obtain ⟨steps, hsteps, hnode⟩ := lists_node declared hn
    rw [checkNodes, hsteps, List.flatMap_cons]
    cases previous with
    | none =>
      have hstart : Walks True (fun _ => False) [] (pure []) :=
        Or.inl ⟨trivial, .of_pure (.nil fun _ => id)⟩
      refine (hstart.continue hnode (ih (some n) hrest)).congr (by simp) fun d => ?_
      rw [List.exists_mem_cons_iff (GraphNode.Flaw declared · d)]
      simp only [false_or, or_assoc, Option.toList_none, Option.toList_some, List.nil_append,
        List.singleton_append]
    | some p =>
      refine (Walks.continue hnode (walks_checkChain p n) (ih (some n) hrest)).congr ?_ fun d => ?_
      · simp only [Option.toList_some, List.singleton_append, pair_infix_cons_iff]
        constructor
        · rintro ⟨hfirst, hothers⟩ a b (⟨rfl, rfl⟩ | h)
          · exact hfirst
          · exact hothers a b h
        · exact fun h => ⟨h p n (Or.inl ⟨rfl, rfl⟩), fun a b hab => h a b (Or.inr hab)⟩
      · rw [List.exists_mem_cons_iff (GraphNode.Flaw declared · d)]
        simp only [Option.toList_some, List.singleton_append, pair_infix_cons_iff]
        constructor
        · rintro (hd | hd | ⟨⟨m, hm, hd⟩ | ⟨a, b, hab, hd⟩⟩)
          · exact Or.inl (Or.inl hd)
          · exact Or.inr ⟨p, n, Or.inl ⟨rfl, rfl⟩, hd⟩
          · exact Or.inl (Or.inr ⟨m, hm, hd⟩)
          · exact Or.inr ⟨a, b, Or.inr hab, hd⟩
        · rintro (⟨hd | ⟨m, hm, hd⟩⟩ | ⟨a, b, ⟨rfl, rfl⟩ | hab, hd⟩)
          · exact Or.inl hd
          · exact Or.inr (Or.inr (Or.inl ⟨m, hm, hd⟩))
          · exact Or.inr (Or.inl hd)
          · exact Or.inr (Or.inr (Or.inr ⟨a, b, hab, hd⟩))

/-- The terms that select axes lower if the walk over the parameters ends. -/
theorem lowers_of_checkAxes {found : List Diagnostic}
    (h : checkAxes node layer s names = .ok found) :
    ∀ name ∈ names, ∀ v, s.params.given? name = some v → v.TermsSatisfy Term.Lowers := by
  induction names generalizing found with
  | nil => exact nofun
  | cons name names ih =>
    have hrest {found found' : List Diagnostic}
        (h : (do return found ++ (← checkAxes node layer s names)) = .ok found') :
        ∀ name ∈ names, ∀ v, s.params.given? name = some v → v.TermsSatisfy Term.Lowers := by
      obtain ⟨_, hothers, -⟩ := bind_eq_ok_iff.mp h
      exact ih hothers
    rw [List.forall_mem_cons]
    unfold checkAxes at h
    cases hgiven : s.params.given? name with
    | none =>
      rw [hgiven] at h
      exact ⟨nofun, hrest h⟩
    | some v =>
      rw [hgiven] at h
      obtain ⟨selected, hresolve, h⟩ := bind_eq_ok_iff.mp h
      refine ⟨fun w hw => Option.some.inj hw ▸ lowers_of_resolveAxis hresolve, ?_⟩
      cases selected <;> exact hrest h

/-- The terms that select axes lower in all nodes if the walk over them ends. -/
theorem axesLower_of_checkNodes {previous : Option GraphNode} {found : List Diagnostic}
    (h : checkNodes declared previous nodes = .ok found) :
    ∀ n ∈ nodes, ∀ s ∈ n.steps, s.AxesLower := by
  have hsteps {node : ℤ} {steps : List LayerStep} {found : List Diagnostic}
      (h : checkSteps node steps = .ok found) : ∀ s ∈ steps, s.AxesLower := by
    induction steps generalizing found with
    | nil => exact nofun
    | cons s rest ih =>
      obtain ⟨_, hfirst, h⟩ := bind_eq_ok_iff.mp h
      obtain ⟨_, hrest, -⟩ := bind_eq_ok_iff.mp h
      refine List.forall_mem_cons.mpr ⟨fun layer hlayer => ?_, ih hrest⟩
      unfold checkStep at hfirst
      rw [hlayer] at hfirst
      obtain ⟨_, haxes, -⟩ := bind_eq_ok_iff.mp hfirst
      exact lowers_of_checkAxes haxes
  induction nodes generalizing previous found with
  | nil => exact nofun
  | cons n rest ih =>
    obtain ⟨_, hnode, h⟩ := bind_eq_ok_iff.mp h
    obtain ⟨_, hothers⟩ : ∃ others, checkNodes declared (some n) rest = .ok others := by
      cases previous with
      | none =>
        obtain ⟨_, -, h⟩ := bind_eq_ok_iff.mp h
        obtain ⟨others, hothers, -⟩ := bind_eq_ok_iff.mp h
        exact ⟨others, hothers⟩
      | some p =>
        obtain ⟨_, -, h⟩ := bind_eq_ok_iff.mp h
        obtain ⟨others, hothers, -⟩ := bind_eq_ok_iff.mp h
        exact ⟨others, hothers⟩
    exact List.forall_mem_cons.mpr ⟨hsteps hnode, ih hothers⟩

/-- **Validation finds every flaw of a graph, unless a boundary cannot be named.** Whatever its
nodes, shapes, parameters and steps are, as long as the terms among the parameters lower, a graph
gets a list of diagnostics that holds exactly its flaws, with one diagnostic for each step without a
layer type. The walk stops at such a step instead where two neighbouring nodes disagree on the
number of axes and the message about that has to name it. -/
theorem diagnose_finds_flaws (g : Graph)
    (hterms : ∀ n ∈ g.nodes, ∀ s ∈ n.steps, s.AxesLower) :
    ((∀ p n, [p, n] <:+: g.nodes → p.Nameable n) ∧ ∃ found, g.diagnose = .ok found ∧
      (∀ d, d ∈ found ↔ g.Flaw d) ∧
      found.filter (·.code = .unknownLayer) =
        g.nodes.flatMap fun n => missingLayers n.index n.steps) ∨
    ¬ (∀ p n, [p, n] <:+: g.nodes → p.Nameable n) ∧ g.diagnose = .error .missingLayerType := by
  refine (walks_checkNodes g.declaredSymbols none hterms).imp_left
    fun ⟨hall, found, hfound, hlists⟩ => ⟨hall, found, hfound, fun d => ?_, hlists.missing⟩
  rw [hlists.mem_iff]
  constructor
  · rintro (⟨n, hn, hd⟩ | ⟨p, n, hpn, hd⟩)
    · exact .node n d hn hd
    · exact .boundary p n d hpn hd
  · rintro (⟨n, _, hn, hd⟩ | ⟨p, n, _, hpn, hd⟩)
    · exact Or.inl ⟨n, hn, hd⟩
    · exact Or.inr ⟨p, n, hpn, hd⟩

/-- A node with an undeclared symbol, a step without a layer type and an axis that is not there gets
a diagnostic for each of them. A node that starts from two axes after one with one axis gets none if
its step has no layer type. -/
theorem malformed_graphs :
    let line : Shape := ⟨[.sym "C"]⟩
    let plane : Shape := ⟨[.sym "C", .sym "H"]⟩
    let softmax : LayerType :=
      { name := "Softmax", rule := ⟨.softmax, 0⟩, axisParameters := [axisParameter] }
    let input : GraphNode := { index := 0, input := line, inferred := line, output := line }
    let select : LayerStep :=
      ⟨some softmax, Dictionary.empty.insert axisParameter (.dim (.op .div (.const 3) (.const 2))),
        line, line⟩
    let flawed : Graph :=
      { name := "M", inputSymbols := ["C"], nodes := [input,
          { index := 1, input := line, inferred := plane, output := line,
            steps := [⟨none, .empty, line, line⟩, select] }] }
    let unnamed : Graph :=
      { name := "M", inputSymbols := ["C", "H"], nodes := [input,
          { index := 1, input := plane, inferred := plane, output := plane,
            steps := [⟨none, .empty, plane, plane⟩] }] }
    (∃ found, flawed.diagnose = .ok found ∧ .undeclaredSymbol "H" (some 1) ∈ found ∧
        .axisRange "Softmax" axisParameter "3 / 2" 1 (some 1) ∈ found ∧
        found.filter (·.code = .unknownLayer) = [.missingLayer 1]) ∧
      unnamed.diagnose = .error .missingLayerType := by
  intro line plane softmax input select flawed unnamed
  let half : Term := .op .div (.const 3) (.const 2)
  have hhalf : half.valueAt (.total fun _ => 0) = some (3 / 2) := by
    norm_num [half, Term.valueAt, Operator.onNumbers]
  have hselect : ¬ (Value.dim half).Selects 1 := by
    rintro ⟨n, ⟨-, hn⟩, -, -⟩
    have hthree : 2 * (n : ℚ) = 3 := by linarith [hn _ _ hhalf]
    have hinteger : 2 * n = 3 := by exact_mod_cast hthree
    omega
  have hempty : Parameters.TermsSatisfy Term.Lowers Dictionary.empty := fun name t ht => by
    simp [Parameters.term?, Value.toTerm?] at ht
  have hpair {p n a b : GraphNode} (h : [p, n] <:+: [a, b]) : p = a ∧ n = b := by
    rcases pair_infix_cons_iff.mp h with h | h
    · exact h
    · exact absurd h.length_le (by simp)
  constructor
  · have hterms : ∀ n ∈ flawed.nodes, ∀ s ∈ n.steps, s.params.TermsSatisfy Term.Lowers := by
      simp only [flawed, List.forall_mem_cons, List.not_mem_nil, false_imp_iff, implies_true,
        and_true, input, true_and]
      refine ⟨hempty, fun name t ht => ?_⟩
      obtain ⟨v, hv, ht⟩ := Parameters.term?_absent_iff.mp ht
      rw [Dictionary.get?_insert] at hv
      split at hv
      · obtain rfl := Option.some.inj hv
        exact Option.some.inj ht ▸ Term.lowers_of_valueAt hhalf
      · simp at hv
    rcases diagnose_finds_flaws flawed fun n hn s hs => .of_params (hterms n hn s hs) with
      ⟨-, found, hfound, hmem, hmissing⟩ | ⟨hnot, -⟩
    · refine ⟨found, hfound, (hmem _).mpr ?_, (hmem _).mpr ?_, hmissing⟩
      · exact .node _ _ (.tail _ (.head _)) (.symbol "H" (by decide) (by decide))
      · exact .node _ _ (.tail _ (.head _)) (.step select _ (.tail _ (.head _))
          (.axis softmax axisParameter _ rfl (.head _) ⟨.dim half, rfl, hselect, by decide⟩))
    · refine absurd (fun p n h => ?_) hnot
      obtain ⟨rfl, rfl⟩ := hpair h
      exact ⟨fun hne => absurd rfl hne, fun _ first hfirst hne =>
        absurd (Option.some.inj hfirst ▸ rfl) hne⟩
  · have hterms : ∀ n ∈ unnamed.nodes, ∀ s ∈ n.steps, s.params.TermsSatisfy Term.Lowers := by
      simp only [unnamed, List.forall_mem_cons, List.not_mem_nil, false_imp_iff, implies_true,
        and_true, input, true_and]
      exact hempty
    rcases diagnose_finds_flaws unnamed fun n hn s hs => .of_params (hterms n hn s hs) with
      ⟨hall, -⟩ | ⟨-, herror⟩
    · exact absurd rfl ((hall _ _ (List.infix_refl _)).input (by decide) _ (.head _))
    · exact herror

end Shapeline
