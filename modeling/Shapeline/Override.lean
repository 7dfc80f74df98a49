import Shapeline.Layer

/-!
# Overrides

The values of a layer's parameters come from three tiers, each of which takes precedence over the
one before: the defaults of the layer type, the override blocks of the model and the overrides at
the node. One tier is applied here. An assignment may name a parameter by its short name; it is
rejected if the layer type has no such parameter, if the parameter is already set at this tier, or
if the value has the wrong kind.
-/

namespace Shapeline

/-- A key, which may be a parameter's name or short name, with the value assigned to it. -/
structure Assignment where
  /-- The key as written. -/
  key : String
  /-- The value. -/
  value : Value

/-- Parameters on the way through one tier of assignments. -/
structure Merge where
  /-- The parameters with the assignments so far applied. -/
  params : Parameters
  /-- The problems of rejected assignments, in order. -/
  errors : List Diagnostic := []
  /-- The names of the parameters that are set at this tier. -/
  seen : List String := []

/-- Apply one assignment or reject it. -/
def Merge.assign (layer : LayerType) (tier : String) (node : Option Int) (m : Merge)
    (a : Assignment) : Outcome Merge :=
  match layer.spec? a.key with
  | none =>
    pure { m with errors :=
      m.errors ++ [.unknownParameter layer.name a.key node layer.parameterNames] }
  | some spec =>
    if m.seen.contains spec.name then
      pure { m with errors := m.errors ++ [.duplicateOverride layer.name spec.name tier node] }
    else do
      let seen := Names.insert spec.name m.seen
      let given ← ValueKind.ofValue a.value
      if spec.kind.accepts given then
        pure { m with params := m.params.insert spec.name a.value, seen }
      else
        pure { m with
          errors := m.errors ++
            [.valueType (some layer.name) spec.name spec.kind.name a.value.literal node]
          seen }

/-- Apply the assignments of one tier to a set of parameters. The names of the parameters that the
tier has set before are given and extended. -/
def mergeParameters (layer : LayerType) (base : Parameters) (assignments : List Assignment)
    (tier : String) (node : Option Int) (seen : List String) : Outcome Merge :=
  assignments.foldlM (Merge.assign layer tier node) { params := base, seen }

end Shapeline
