import Shapeline.Resolution

/-!
# Plans

A plan lists the steps of every node: layer types with their final parameters, not yet applied to a
shape. A call with a number of repetitions becomes that many equal steps. An inline model becomes
one chain of steps; the shapes that its own nodes declare are kept as checkpoints, due after a
number of steps.
-/

namespace Shapeline

/-- A layer type with its final parameters. -/
structure PlannedStep where
  /-- The layer type. -/
  layerType : LayerType
  /-- The parameters. -/
  params : Parameters

/-- A shape declared inside an inline model. -/
structure Checkpoint where
  /-- The number of steps after which the shape is due. -/
  after : Nat
  /-- The number of the node of the inline model. -/
  index : Int
  /-- The declared shape. -/
  shape : Shape

/-- A node with its steps. -/
structure PlannedNode where
  /-- The number of the node. -/
  index : Int
  /-- The steps in order. -/
  steps : List PlannedStep := []
  /-- The declared shape, if there is one. -/
  declared : Option Shape := none
  /-- The label, if there is one. -/
  label : Option String := none
  /-- The name of the inline model, if the node holds one. -/
  submodel : Option String := none
  /-- The shapes declared inside the inline model. -/
  checkpoints : List Checkpoint := []

/-- Check that numbers count up without gaps. A diagnostic belongs to the enclosing node if there is
one. -/
def checkIndices (enclosing : Option Int) : Int → List Int → Outcome Unit
  | _, [] => pure ()
  | expected, index :: rest =>
    if index = expected then checkIndices enclosing (expected + 1) rest
    else throw (.problem (.numbering expected index enclosing))

/-- The steps of one use of a layer type, with the problems of its overrides. -/
def planCall (model : ResolvedModel) (node : Int) (call : CallSpec) :
    Outcome (List PlannedStep × List Diagnostic) :=
  match model.layerTypes.get? call.name, model.typeParameters.get? call.name with
  | some layer, some base => do
    let merge ← mergeParameters layer base call.overrides "inline overrides" (some node) []
    pure (List.replicate call.repetitions ⟨layer, merge.params⟩, merge.errors)
  | _, _ => throw .missingLayerType

/-- The steps of several uses of layer types, with the problems of their overrides. -/
def planCalls (model : ResolvedModel) (node : Int) :
    List CallSpec → Outcome (List PlannedStep × List Diagnostic)
  | [] => pure ([], [])
  | call :: rest => do
    let (steps, errors) ← planCall model node call
    let (others, otherErrors) ← planCalls model node rest
    pure (steps ++ others, errors ++ otherErrors)

/-- The steps and checkpoints of the nodes of an inline model, after a number of steps. -/
def planLines (model : ResolvedModel) (node : Int) :
    Nat → List LineSpec → Outcome (List PlannedStep × List Checkpoint × List Diagnostic)
  | _, [] => pure ([], [], [])
  | done, line :: rest => do
    let (steps, errors) ← planCalls model node line.calls
    let done := done + steps.length
    let checkpoint :=
      match line.declared with
      | some shape => [⟨done, line.index, shape⟩]
      | none => []
    let (others, checkpoints, otherErrors) ← planLines model node done rest
    pure (steps ++ others, checkpoint ++ checkpoints, errors ++ otherErrors)

/-- A node that holds an inline model. If its nodes are not numbered from one without gaps, it is
planned without steps. -/
def planInline (model : ResolvedModel) (node : NodeSpec) (inline : InlineSpec) :
    Outcome (PlannedNode × List Diagnostic) := do
  let planned : PlannedNode :=
    { index := node.index, declared := node.declared, label := node.label,
      submodel := some inline.name }
  match checkIndices (some node.index) 1 (inline.lines.map (·.index)) with
  | .error (.problem d) => pure (planned, [d.atNode node.index (some inline.name)])
  | .error failure => throw failure
  | .ok () =>
    let (steps, checkpoints, errors) ← planLines model node.index 0 inline.lines
    pure ({ planned with steps, checkpoints }, errors)

/-- A node with the problems of its overrides and of its inline model. -/
def planNode (model : ResolvedModel) (node : NodeSpec) :
    Outcome (PlannedNode × List Diagnostic) :=
  match node.inline with
  | some inline => planInline model node inline
  | none => do
    let (steps, errors) ← planCalls model node.index node.calls
    pure ({ index := node.index, steps, declared := node.declared, label := node.label }, errors)

/-- Plan several nodes and join their problems. -/
def planNodes (model : ResolvedModel) :
    List NodeSpec → Outcome (List PlannedNode × List Diagnostic)
  | [] => pure ([], [])
  | node :: rest => do
    let (planned, errors) ← planNode model node
    let (others, otherErrors) ← planNodes model rest
    pure (planned :: others, errors ++ otherErrors)

/-- The plan of a resolved model. The nodes must be numbered from zero without gaps and the first
must declare its shape; either problem is raised alone, those of overrides and inline models
together. -/
def planModel (model : ResolvedModel) : Outcome (List PlannedNode) := do
  let nodes := model.definition.nodes
  checkIndices none 0 (nodes.map (·.index))
  match nodes with
  | [] => throw (.problem (.missingInputShape 0))
  | first :: _ =>
    if first.declared.isNone then throw (.problem (.missingInputShape 0))
    match ← planNodes model nodes with
    | (planned, []) => pure planned
    | (_, errors) => throw (.problems errors)

/-- The symbols that the input shape introduces, axis by axis: those that are not variables of the
model. -/
def inputSymbols (model : ResolvedModel) : List String :=
  match model.definition.inputShape with
  | none => []
  | some shape =>
    (shape.axes.flatMap fun t => t.symbols.filter (!model.hyperparameters.contains ·)).foldl
      appendNew []

end Shapeline
