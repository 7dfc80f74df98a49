import Shapeline.Definition

/-!
# Graphs

The graph of a model is a chain of nodes, each of which applies layers one after another. Every step
holds its final parameters and the shapes before and after it. Shapes stay symbolic; the values of
the model's variables can be substituted when they are wanted.
-/

namespace Shapeline

/-- The application of a layer. -/
structure LayerStep where
  /-- The layer type. Only a graph that was not built by inference can lack one. -/
  layerType : Option LayerType
  /-- The parameters. -/
  params : Parameters
  /-- The shape of the input. -/
  input : Shape
  /-- The shape of the output. -/
  output : Shape

namespace LayerStep

/-- The name of the layer type. -/
def layer (s : LayerStep) : Outcome String :=
  match s.layerType with
  | some layer => pure layer.name
  | none => throw .missingLayerType

/-- Replace the symbols of parameters and shapes. -/
def substitute (σ : Substitution) (s : LayerStep) : Outcome LayerStep := do
  return {
    layerType := s.layerType
    params := ← Parameters.substitute σ s.params
    input := ← s.input.substitute σ
    output := ← s.output.substitute σ }

end LayerStep

/-- The item of a list at a position. A negative position counts from the end. -/
def itemAt {α : Type} (items : List α) (position : Int) : Outcome α :=
  let index := if position < 0 then position + items.length else position
  if index < 0 then throw .outOfRange
  else
    match items[index.toNat]? with
    | some item => pure item
    | none => throw .outOfRange

/-- A node of a graph. -/
structure GraphNode where
  /-- The number of the node. -/
  index : Int
  /-- The steps in order. -/
  steps : List LayerStep := []
  /-- The shape of the input. -/
  input : Shape
  /-- The shape that the rules yield. -/
  inferred : Shape
  /-- The shape that the next node starts from: the declared one, if there is one. -/
  output : Shape
  /-- The declared shape, if there is one. -/
  declared : Option Shape := none
  /-- The label, if there is one. -/
  label : Option String := none
  /-- The name of the inline model, if the node holds one. -/
  submodel : Option String := none

namespace GraphNode

/-- Whether a node is the input. -/
def isInput (n : GraphNode) : Bool := decide (n.index = 0)

/-- The names of the layer types of a node. -/
def layers (n : GraphNode) : Outcome (List String) := n.steps.mapM LayerStep.layer

/-- The step at a position. A negative position counts from the end. -/
def stepAt (n : GraphNode) (position : Int) : Outcome LayerStep := itemAt n.steps position

end GraphNode

/-- The graph of a model. -/
structure Graph where
  /-- The name of the model. -/
  name : String
  /-- The nodes in order. -/
  nodes : List GraphNode
  /-- The variables of the model. -/
  hyperparameters : List Hyperparameter := []
  /-- The symbols that the input shape introduces. -/
  inputSymbols : List String := []

namespace Graph

/-- The pairs of positions of neighbouring nodes. -/
def edges (g : Graph) : List (Nat × Nat) :=
  (List.range (g.nodes.length - 1)).map fun i => (i, i + 1)

/-- The node at a position. A negative position counts from the end. -/
def nodeAt (g : Graph) (position : Int) : Outcome GraphNode := itemAt g.nodes position

/-- The shape that the graph takes. -/
def inputShape (g : Graph) : Outcome Shape := do return (← g.nodeAt 0).output

/-- The shape that the graph yields. -/
def outputShape (g : Graph) : Outcome Shape := do return (← g.nodeAt (-1)).output

/-- The values of the variables that are dimensions. -/
def hyperparameterValues (g : Graph) : Dictionary Value :=
  .ofList ((g.hyperparameters.filter (·.isBound)).map fun h => (h.symbol, h.value))

/-- The symbols that a shape may mention. -/
def declaredSymbols (g : Graph) : List String :=
  Names.union (g.hyperparameters.map (·.symbol)) (Names.ofList g.inputSymbols)

/-- The values of the variables, of which the given ones take precedence, with the references
between them replaced. -/
def bindings (g : Graph) (given : Dictionary Value) : Outcome (Dictionary Term) :=
  resolveBindings (g.hyperparameterValues.insertAll given.entries)

/-- The output shape of a node with the values of variables substituted. -/
def boundShape (g : Graph) (position : Int) (given : Dictionary Value) : Outcome Shape := do
  let node ← g.nodeAt position
  let bindings ← g.bindings given
  (← node.output.substitute (.ofTerms bindings)).simplify

/-- The output shapes of all nodes with the values of variables substituted. -/
def boundShapes (g : Graph) (given : Dictionary Value) : Outcome (List Shape) := do
  let bindings ← g.bindings given
  g.nodes.mapM fun node => do (← node.output.substitute (.ofTerms bindings)).simplify

end Graph

end Shapeline
