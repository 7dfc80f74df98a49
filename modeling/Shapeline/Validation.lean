import Shapeline.Graph

/-!
# Validation

A last walk over a graph. Every symbol must be a variable of the model or introduced by the input,
every step needs a layer type that accepts the number of axes of its input, parameters that select
an axis must select one of the output, and neighbouring nodes must agree on the number of axes.
-/

namespace Shapeline

/-- The symbols of the shapes of a node and of the dimensions among its parameters. -/
def GraphNode.symbols (n : GraphNode) : List String :=
  let parameters := n.steps.flatMap fun step =>
    step.params.values.flatMap fun value => ((value.toTerm?).map Term.symbols).getD []
  Names.union n.inferred.symbols (Names.union n.output.symbols (Names.ofList parameters))

/-- A diagnostic for every symbol of a node that is not declared. -/
def checkSymbols (declared : List String) (n : GraphNode) : List Diagnostic :=
  (Names.diff n.symbols declared).map fun name => .undeclaredSymbol name (some n.index)

/-- A diagnostic for every parameter of a step that selects no axis of its output. -/
def checkAxes (node : Int) (layer : LayerType) (step : LayerStep) :
    List String → Outcome (List Diagnostic)
  | [] => pure []
  | parameter :: rest => do
    let found ←
      match Parameters.given? step.params parameter with
      | none => pure []
      | some value => do
        match ← resolveAxis value step.output.rank with
        | some _ => pure []
        | none =>
          pure [.axisRange layer.name parameter value.display step.output.rank (some node)]
    return found ++ (← checkAxes node layer step rest)

/-- The diagnostics of one step. -/
def checkStep (node : Int) (step : LayerStep) : Outcome (List Diagnostic) :=
  match step.layerType with
  | none => pure [(Diagnostic.unknownLayer "<missing>").atNode node none]
  | some layer => do
    let rank := step.input.rank
    let arity :=
      if layer.rule.acceptsRank rank then []
      else [.arity (some layer.name) layer.rule.expectedRank rank (some node)]
    return arity ++ (← checkAxes node layer step layer.axisParameters)

/-- The diagnostics of several steps. -/
def checkSteps (node : Int) : List LayerStep → Outcome (List Diagnostic)
  | [] => pure []
  | step :: rest => do
    let found ← checkStep node step
    return found ++ (← checkSteps node rest)

/-- A diagnostic if a node does not start from as many axes as the node before it yields. -/
def checkChain (previous node : GraphNode) : Outcome (List Diagnostic) :=
  let expected := previous.output.rank
  if node.input.rank = expected then
    match node.steps with
    | [] => pure []
    | first :: _ =>
      if first.input.rank = expected then pure []
      else do
        return [.arity (some (← first.layer)) (toString expected) first.input.rank
          (some node.index)]
  else do
    let layers ← node.layers
    pure [.arity layers.head? (toString expected) node.input.rank (some node.index)]

/-- The diagnostics of several nodes, of which the first comes after the given one. -/
def checkNodes (declared : List String) :
    Option GraphNode → List GraphNode → Outcome (List Diagnostic)
  | _, [] => pure []
  | previous, node :: rest => do
    let steps ← checkSteps node.index node.steps
    let chain ←
      match previous with
      | some previous => checkChain previous node
      | none => pure []
    return checkSymbols declared node ++ steps ++ chain ++ (← checkNodes declared (some node) rest)

/-- All diagnostics of a graph, node by node. -/
def Graph.diagnose (g : Graph) : Outcome (List Diagnostic) :=
  checkNodes g.declaredSymbols none g.nodes

/-- A graph without diagnostics; otherwise they are raised together. -/
def Graph.validate (g : Graph) : Outcome Graph := do
  match ← g.diagnose with
  | [] => pure g
  | errors => throw (.problems errors)

end Shapeline
