import Shapeline.Graph
import Shapeline.Plan
import Shapeline.Reporting

/-!
# Shape inference

The nodes of a plan are run through their shape rules one after another, each from the output of the
one before. Where a node declares a shape, the inferred shape is compared with it:

* an axis that is a placeholder is bound to the declared axis, and the binding flows back into the
  parameters and shapes of the node's steps;
* every other axis must be equivalent to the declared one, after the values of the model's variables
  have been substituted on both sides.

A mismatch is recorded and the declared shape is carried on, so that one pass finds all mismatches.
After a rule has failed the declared shape of the node is carried on too; if there is none, the pass
ends, because the input of the next node is not known. The shapes that an inline model declares are
checked, and carried on, between the steps where they are due.
-/

namespace Shapeline

/-- What governs a run of inference. -/
structure InferenceSettings where
  /-- Whether a mismatch with a declared shape is only a warning. -/
  trustDeclared : Bool
  /-- The values of the model's variables. -/
  bindings : Dictionary Term

/-- The name of the placeholder for a parameter of a layer type, at a step of a node. The first step
is not mentioned. -/
def placeholderName (layer : String) (node step : Int) (parameter : String) : String :=
  let suffix := if step = 0 then "" else s!":{step}"
  layer ++ s!"#{node}" ++ suffix ++ "." ++ parameter

/-- The placeholder for a parameter of a layer type, named by the parameter's short name if it has
one. -/
def mintPlaceholder (layer : LayerType) (node : Int) (step : Nat) (parameter : String) :
    Placeholder :=
  let short :=
    match (layer.spec? parameter).bind (·.shortName) with
    | some short => if short = "" then parameter else short
    | none => parameter
  { name := placeholderName layer.name node step short, node, layer := layer.name, parameter }

/-- Apply a planned step, at a position of a node, to a shape. -/
def applyStep (settings : InferenceSettings) (node : Int) (position : Nat) (step : PlannedStep)
    (shape : Shape) : Outcome LayerStep := do
  let layer := step.layerType
  let outcome ← layer.rule.apply layer.name shape step.params (mintPlaceholder layer node position)
    (.ofTerms settings.bindings)
  return ⟨some layer, Parameters.merged step.params outcome.derived, shape, outcome.shape⟩

/-- How an inferred shape differs from a declared one. -/
inductive Discrepancy
  /-- The numbers of axes differ. -/
  | rank
  /-- The axes differ, first at a position. -/
  | axis (position : Nat)
  deriving DecidableEq

/-- The position that a discrepancy names. -/
def Discrepancy.position? : Discrepancy → Option Int
  | rank => none
  | axis position => some position

/-- How an inferred shape differs from a declared one after a substitution, if it does. -/
def discrepancy (σ : Substitution) (inferred declared : Shape) : Outcome (Option Discrepancy) :=
  if inferred.rank = declared.rank then do
    match ← inferred.mismatches σ declared with
    | [] => pure none
    | position :: _ => pure (some (.axis position))
  else pure (some .rank)

/-- The chain of steps of a node on its way through inference. -/
structure Chain where
  /-- The steps that have been applied. -/
  steps : List LayerStep
  /-- The shape after these steps. -/
  shape : Shape

/-- The name of the layer type of the last step. -/
def Chain.lastLayer (c : Chain) : Option String :=
  (c.steps.getLast?.bind (·.layerType)).map (·.name)

/-- Replace the symbols of all steps and of the shape. -/
def Chain.substitute (σ : Substitution) (c : Chain) : Outcome Chain := do
  let shape ← c.shape.substitute σ
  return ⟨← c.steps.mapM (LayerStep.substitute σ), shape⟩

/-- Bind the placeholders of a chain to what a declared shape says about them. -/
def bindPlaceholders (node : Int) (chain : Chain) (declared : Shape) : Reporting Chain := do
  let bindings := chain.shape.unify declared
  if bindings.entries.isEmpty then pure chain
  else do
    Reporting.record { notes := [.bound node bindings] }
    Reporting.ofOutcome (chain.substitute (.ofTerms bindings))

/-- What is recorded about a discrepancy between the shape of a chain and a declared shape: a
warning if declared shapes are trusted, otherwise a diagnostic. -/
def reportDiscrepancy (settings : InferenceSettings) (node : Int) (chain : Chain) (declared : Shape)
    (what : String) (found : Discrepancy) : Report :=
  let layer := chain.lastLayer
  if settings.trustDeclared then
    { warnings := [{
        code := .trustedShape
        message := s!"{what} ({declared.text}) trusted over inferred shape ({chain.shape.text})"
        node := some node
        layer }] }
  else
    { errors := [
        .mismatch declared.text chain.shape.text found.position? (some node) layer what] }

/-- Bind the placeholders of a chain against a declared shape and record a discrepancy. -/
def reconcile (settings : InferenceSettings) (node : Int) (chain : Chain) (declared : Shape)
    (what : String) : Reporting Chain := do
  let chain ← bindPlaceholders node chain declared
  match ← Reporting.ofOutcome (discrepancy (.ofTerms settings.bindings) chain.shape declared) with
  | some found => do
    Reporting.record (reportDiscrepancy settings node chain declared what found)
    pure chain
  | none => pure chain

/-- How a shape declared inside an inline model is named in messages. -/
def checkpointName (planned : PlannedNode) (checkpoint : Checkpoint) : String :=
  let model := planned.submodel.getD "None"
  s!"declared shape of '{model}' #{checkpoint.index}"

/-- Check the shapes of an inline model that are due after a number of steps, and carry the last of
them on. The checkpoints that are not due yet remain. -/
def checkDue (settings : InferenceSettings) (planned : PlannedNode) (done : Nat) :
    List Checkpoint → Chain → Reporting (List Checkpoint × Chain)
  | [], chain => pure ([], chain)
  | checkpoint :: rest, chain =>
    if checkpoint.after = done then do
      let reconciled ← reconcile settings planned.index chain checkpoint.shape
        (checkpointName planned checkpoint)
      checkDue settings planned done rest { reconciled with shape := checkpoint.shape }
    else pure (checkpoint :: rest, chain)

/-- Apply the steps of a node, of which the first has the given position, and check the shapes that
are due after each. The answer tells whether all steps could be applied. -/
def runSteps (settings : InferenceSettings) (planned : PlannedNode) :
    Nat → List PlannedStep → List Checkpoint → Chain → Reporting (Chain × Bool)
  | _, [], _, chain => pure (chain, true)
  | position, step :: rest, pending, chain =>
    match applyStep settings planned.index position step chain.shape with
    | .ok applied => do
      let (pending, chain) ← checkDue settings planned (position + 1) pending
        ⟨chain.steps ++ [applied], applied.output⟩
      runSteps settings planned (position + 1) rest pending chain
    | .error (.problem d) => do
      Reporting.record { errors := [d.atNode planned.index (some step.layerType.name)] }
      pure (chain, false)
    | .error failure => Reporting.ofOutcome (.error failure)

/-- The shape that the next node may start from although a rule of this one has failed. -/
def fallbackShape (planned : PlannedNode) : Option Shape :=
  planned.declared.or (planned.checkpoints.getLast?.bind fun checkpoint =>
    if checkpoint.after = planned.steps.length then some checkpoint.shape else none)

/-- The node of a graph that a chain of steps makes of a planned node. -/
def PlannedNode.finish (planned : PlannedNode) (input : Shape) (chain : Chain) (output : Shape) :
    GraphNode :=
  { index := planned.index, steps := chain.steps, input, inferred := chain.shape, output,
    declared := planned.declared, label := planned.label, submodel := planned.submodel }

/-- Infer the shapes of one node. There is no node if a rule failed and nothing tells the shape that
the next node starts from. -/
def inferNode (settings : InferenceSettings) (planned : PlannedNode) (input : Shape) :
    Reporting (Option GraphNode) := do
  let (pending, chain) ← checkDue settings planned 0 planned.checkpoints ⟨[], input⟩
  let (chain, complete) ← runSteps settings planned 0 planned.steps pending chain
  if complete then
    match planned.declared with
    | none => pure (some (planned.finish input chain chain.shape))
    | some declared => do
      let chain ← reconcile settings planned.index chain declared "declared shape"
      pure (some (planned.finish input chain declared))
  else pure ((fallbackShape planned).map (planned.finish input chain))

/-- Infer the shapes of several nodes, of which the first starts from the given shape. The answer
tells whether all nodes could be inferred. -/
def inferNodes (settings : InferenceSettings) :
    List PlannedNode → Shape → Reporting (List GraphNode × Bool)
  | [], _ => pure ([], true)
  | planned :: rest, input => do
    match ← inferNode settings planned input with
    | none =>
      Reporting.record { notes := [.stopped planned.index] }
      pure ([], false)
    | some node => do
      let (nodes, complete) ← inferNodes settings rest node.output
      pure (node :: nodes, complete)

/-- The node of a graph that holds the input. -/
def inputNode (planned : PlannedNode) (shape : Shape) : GraphNode :=
  { index := 0, input := shape, inferred := shape, output := shape, declared := some shape,
    label := planned.label }

/-- Infer the shapes of a plan. Nothing can be inferred without an input node that declares its
shape. -/
def infer (settings : InferenceSettings) (plan : List PlannedNode) :
    Reporting (List GraphNode × Bool) :=
  match plan with
  | [] => pure ([], false)
  | first :: rest =>
    match first.declared with
    | none => pure ([], false)
    | some shape => do
      let (nodes, complete) ← inferNodes settings rest shape
      pure (inputNode first shape :: nodes, complete)

/-- Infer the shapes of a plan under values of the model's variables, which are resolved first. -/
def inferUnder (trustDeclared : Bool) (values : Dictionary Value) (plan : List PlannedNode) :
    Reporting (List GraphNode × Bool) := do
  let bindings ← Reporting.ofOutcome (resolveBindings values)
  infer ⟨trustDeclared, bindings⟩ plan

end Shapeline
