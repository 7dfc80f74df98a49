import Shapeline.Override

/-!
# Model definitions

A model with its expressions replaced by values and terms. The names that it uses are not yet bound
to layer types.
-/

namespace Shapeline

/-- A variable of a model. -/
structure Hyperparameter where
  /-- The symbol that stands for the variable in terms. -/
  symbol : String
  /-- What the variable is. -/
  description : String := ""
  /-- The value. -/
  value : Value := .absent

/-- Whether a variable has a value that is a dimension. -/
def Hyperparameter.isBound (h : Hyperparameter) : Bool := h.value.isDimension

/-- The use of a layer type in a node. -/
structure CallSpec where
  /-- The name of the layer type. -/
  name : String
  /-- The overrides at this place. -/
  overrides : List Assignment := []
  /-- How many times the layer is applied in a row. -/
  repetitions : Nat := 1

/-- The overrides of a model for one layer type. -/
structure TypeOverride where
  /-- The name of the layer type. -/
  layer : String
  /-- The overrides. -/
  assignments : List Assignment := []

/-- What every node holds. -/
structure LineSpec where
  /-- The number of the node. -/
  index : Int
  /-- The layers that the node applies. -/
  calls : List CallSpec := []
  /-- The declared shape, if there is one. -/
  declared : Option Shape := none
  /-- The label, if there is one. -/
  label : Option String := none

/-- An inline model. -/
structure InlineSpec where
  /-- The name. -/
  name : String
  /-- The nodes. -/
  lines : List LineSpec := []

/-- A node of a model. A node that holds an inline model has no layers of its own. -/
structure NodeSpec extends LineSpec where
  /-- The inline model, if the node holds one. -/
  inline : Option InlineSpec := none

namespace NodeSpec

/-- The nodes of the inline model. -/
def inner (n : NodeSpec) : List LineSpec :=
  match n.inline with
  | some model => model.lines
  | none => []

/-- The names of the layer types that a node uses, with repetitions. -/
def layerNames (n : NodeSpec) : List String :=
  n.calls.map (·.name) ++ n.inner.flatMap fun line => line.calls.map (·.name)

end NodeSpec

/-- A model with its expressions replaced by values and terms. -/
structure Definition where
  /-- The name. -/
  name : String
  /-- The names that are imported. -/
  imports : List String := []
  /-- The override blocks. -/
  typeOverrides : List TypeOverride := []
  /-- The variables. -/
  hyperparameters : List Hyperparameter := []
  /-- The nodes. -/
  nodes : List NodeSpec := []

/-- Append a name to a list unless it is there already. -/
def appendNew (names : List String) (name : String) : List String :=
  if names.contains name then names else names ++ [name]

namespace Definition

/-- The shape that the first node with number zero declares. -/
def inputShape (d : Definition) : Option Shape :=
  (d.nodes.find? (·.index = 0)).bind (·.declared)

/-- The names of the layer types that nodes other than the input use, in the order of their first
uses. -/
def referencedLayers (d : Definition) : List String :=
  ((d.nodes.filter (·.index ≠ 0)).flatMap NodeSpec.layerNames).foldl appendNew []

end Definition

end Shapeline
