import Shapeline.Reporting
import Shapeline.Settings.Options
import Shapeline.Shape

/-!
# Events of a compilation

A compilation tells what it does and what it finds. Every event has a level and a message, and all
but the notes of shape inference carry the name of the model. The length of numbers is limited where
the output shape of a compiled model is told, and nothing can be told of a model that exceeds it.
-/

namespace Shapeline

/-- Something that a compilation tells. -/
inductive Event
  /-- A program is turned into a definition. -/
  | lowering (model : String)
  /-- The names of a definition are bound to layer types. -/
  | resolving
  /-- The steps of the nodes are listed. -/
  | planning
  /-- Shapes are inferred over a number of nodes. -/
  | inferring (nodes : Nat)
  /-- Shape inference remarked something. -/
  | noted (note : Note)
  /-- The graph is validated. -/
  | validating
  /-- The model was compiled. -/
  | compiled (model : String) (output : Shape)
  /-- The compilation failed with a diagnostic. -/
  | failed (diagnostic : Diagnostic)
  /-- The compilation ended with a warning. -/
  | warned (warning : Warning)

namespace Event

/-- The level of an event. -/
def level : Event → LogLevel
  | lowering _ => .debug
  | resolving => .info
  | planning => .info
  | inferring _ => .info
  | noted _ => .debug
  | validating => .info
  | compiled _ _ => .info
  | failed _ => .error
  | warned _ => .warning

/-- An event in words, unless they hold a number that is too long. -/
def message : Event → Outcome String
  | lowering model => pure s!"Lowering model '{model}'"
  | resolving => pure "Resolving imports and type overrides"
  | planning => pure "Planning graph"
  | inferring nodes => pure s!"Inferring shapes over {nodes} nodes"
  | noted note => pure note.text
  | validating => pure "Validating graph"
  | compiled model output =>
    if output.isWritable then pure s!"Compiled '{model}': output shape ({output.text})"
    else throw .notConstant
  | failed diagnostic => pure s!"Compilation error: {diagnostic.text}"
  | warned warning => pure warning.text

/-- Whether an event carries the name of the model. -/
def namesModel : Event → Bool
  | noted _ => false
  | _ => true

/-- The record of an event in the compilation of a model. -/
def record (model : String) (event : Event) : Outcome LogRecord := do
  let extra : Dictionary Setting :=
    if event.namesModel then .ofList [("model", .text model)] else .empty
  return { level := event.level, message := ← event.message, extra }

end Event

end Shapeline
