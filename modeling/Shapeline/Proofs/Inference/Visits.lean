import Shapeline.Proofs.Shape

/-!
# Places that declare a shape

The shapes that an inline model declares are due after a number of steps, and the shape of the node
itself after all of them. A course of a node applies the steps one after another, visits the places
as they come to be due and goes on from the shape that the last of them declares.
-/

namespace Shapeline

/-- A place that declares a shape, as inference arrives there. -/
structure Visit where
  /-- The number of the node. -/
  node : Int
  /-- The name of the layer type of the step before. -/
  layer : Option String
  /-- What the declared shape is called. -/
  what : String
  /-- The declared shape. -/
  declared : Shape
  /-- The shape that arrives. -/
  arriving : Shape

/-- What the declared shape says about the placeholders of the arriving one. -/
def Visit.binding (v : Visit) : Substitution := v.arriving.binding v.declared

/-- The diagnostic about a place where a shape does not match the declared one. -/
def Visit.mismatch (v : Visit) (bound : Shape) (position : Option Int) : Diagnostic :=
  .mismatch v.declared.text bound.text position (some v.node) v.layer v.what

/-- What is to be recorded at a place, where the arriving shape is compared with the declared one
after its placeholders have been bound. -/
inductive Visit.Verdict (σ : Substitution) (v : Visit) : List Diagnostic → Prop
  /-- The shapes match, and nothing is recorded. -/
  | same {bound : Shape} : v.arriving.substitute v.binding = .ok bound →
    bound.Matches σ v.declared → Verdict σ v []
  /-- The numbers of axes differ. -/
  | rank {bound : Shape} : v.arriving.substitute v.binding = .ok bound →
    bound.rank ≠ v.declared.rank → Verdict σ v [v.mismatch bound none]
  /-- The numbers of axes agree, and the shapes differ first at a position. -/
  | axis {bound : Shape} {position : Nat} : v.arriving.substitute v.binding = .ok bound →
    bound.rank = v.declared.rank → bound.DiffersFirstAt σ v.declared position →
    Verdict σ v [v.mismatch bound (some position)]

/-- The shape that is carried on past places, each a name with a declared shape. -/
def carried (arriving : Shape) (places : List (String × Shape)) : Shape :=
  (places.map Prod.snd).getLastD arriving

/-- The visits to several places, one after another. -/
def visitsAt (node : Int) (layer : Option String) : Shape → List (String × Shape) → List Visit
  | _, [] => []
  | arriving, (what, declared) :: rest =>
    ⟨node, layer, what, declared, arriving⟩ :: visitsAt node layer declared rest

namespace PlannedNode

/-- The places of checkpoints, each with what its shape is called. -/
def placesOf (planned : PlannedNode) (checkpoints : List Checkpoint) : List (String × Shape) :=
  checkpoints.map fun checkpoint => (checkpointName planned checkpoint, checkpoint.shape)

/-- The places of an inline model that are due after a number of steps. -/
def due (planned : PlannedNode) (done : Nat) : List (String × Shape) :=
  planned.placesOf (planned.checkpoints.filter (·.after = done))

/-- The place of the node itself, if the node declares a shape. -/
def own (planned : PlannedNode) : List (String × Shape) :=
  planned.declared.toList.map ("declared shape", ·)

/-- The name of the layer type of the last of a number of steps. -/
def layerBefore (planned : PlannedNode) : Nat → Option String
  | 0 => none
  | done + 1 => planned.steps[done]?.map (·.layerType.name)

/-- The shape that the step after a number of steps, whose outputs are given, starts from. -/
def upcoming (planned : PlannedNode) (input : Shape) (outputs : List Shape) : Shape :=
  carried (outputs.getLastD input) (planned.due outputs.length)

/-- The visits of a node whose first steps have the given outputs to the places of its inline
model: after every step to those that are due. -/
def innerVisits (planned : PlannedNode) (input : Shape) (outputs : List Shape) : List Visit :=
  (input :: outputs).zipIdx.flatMap fun (arriving, done) =>
    visitsAt planned.index (planned.layerBefore done) arriving (planned.due done)

/-- The visits of a node whose first steps have the given outputs: those to the places of its inline
model and, after all steps, the one to the place of the node itself. -/
def visits (planned : PlannedNode) (input : Shape) (outputs : List Shape) : List Visit :=
  planned.innerVisits input outputs ++
    if outputs.length = planned.steps.length then
      visitsAt planned.index (planned.layerBefore outputs.length) (planned.upcoming input outputs)
        planned.own
    else []

end PlannedNode

/-- The first steps of a node are applied one after another, each to the shape that is carried on
past the places due before it, with the given outputs. -/
inductive Course (settings : InferenceSettings) (planned : PlannedNode) (input : Shape) :
    List Shape → Prop
  /-- No step is applied. -/
  | start : Course settings planned input []
  /-- A further step is applied. -/
  | step {outputs : List Shape} {step : PlannedStep} {s : LayerStep} :
    Course settings planned input outputs → planned.steps[outputs.length]? = some step →
    applyStep settings planned.index outputs.length step (planned.upcoming input outputs) = .ok s →
    Course settings planned input (outputs ++ [s.output])

/-- Why the course of a node ends after the steps with the given outputs: these were all steps, or
the rule of the next one fails with a diagnostic. -/
inductive CourseEnds (settings : InferenceSettings) (planned : PlannedNode) (input : Shape)
    (outputs : List Shape) : List Diagnostic → Prop
  /-- All steps have been applied. -/
  | complete : outputs.length = planned.steps.length → CourseEnds settings planned input outputs []
  /-- The rule of the next step fails. -/
  | failed {step : PlannedStep} {d : Diagnostic} :
    planned.steps[outputs.length]? = some step →
    applyStep settings planned.index outputs.length step (planned.upcoming input outputs) =
      .error (.problem d) →
    CourseEnds settings planned input outputs [d.atNode planned.index (some step.layerType.name)]

end Shapeline
