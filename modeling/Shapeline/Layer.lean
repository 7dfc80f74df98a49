import Shapeline.Rule

/-!
# Layer types

A layer type is a named transformation: a list of parameters, of which some have default values, and
a shape rule. A parameter may be set under its name or under a short one.
-/

namespace Shapeline

/-- A parameter that a layer type has. -/
structure ParameterSpec where
  /-- The name. -/
  name : String
  /-- The value that counts unless another one is set. -/
  default : Value := .absent
  /-- A second, shorter name. -/
  shortName : Option String := none
  /-- What the parameter is for. -/
  description : String := ""
  /-- The kind of values that the parameter accepts. -/
  kind : ValueKind

namespace ParameterSpec

/-- The parameter whose kind is that of its default value. -/
def ofDefault (name : String) (default : Value) (shortName : Option String) (description : String) :
    Outcome ParameterSpec := do
  return { name, default, shortName, description, kind := ← ValueKind.ofValue default }

/-- Whether a parameter has no default value. -/
def isRequired (spec : ParameterSpec) : Bool :=
  match spec.default with
  | .absent => true
  | _ => false

/-- Whether a key is the name or the short name of a parameter. -/
def answersTo (spec : ParameterSpec) (key : String) : Bool :=
  decide (key = spec.name ∨ spec.shortName = some key)

end ParameterSpec

/-- A named transformation. -/
structure LayerType where
  /-- The name. -/
  name : String
  /-- The parameters. -/
  parameters : List ParameterSpec := []
  /-- The shape rule. -/
  rule : Rule := ⟨.pointwise, 0⟩
  /-- The names of the parameters that select an axis. -/
  axisParameters : List String := []
  /-- What the layer type does. -/
  description : String := ""

namespace LayerType

/-- The parameters that have default values, with these. -/
def defaults (layer : LayerType) : Parameters :=
  .ofList ((layer.parameters.filter (!·.isRequired)).map fun spec => (spec.name, spec.default))

/-- The first parameter that answers to a key. -/
def spec? (layer : LayerType) (key : String) : Option ParameterSpec :=
  layer.parameters.find? (·.answersTo key)

/-- The names of the parameters. -/
def parameterNames (layer : LayerType) : List String := layer.parameters.map (·.name)

end LayerType

end Shapeline
