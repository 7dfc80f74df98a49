import Shapeline.Layer

/-!
# The registry of layer types

A registry holds layer types by name and groups of them that can be imported together. A group may
only name layer types that are registered before it. Once the registry is frozen nothing can be
registered any more. Registrations change the registry step by step, and any step may fail.
-/

namespace Shapeline

/-- Layer types and groups by name. -/
structure Registry where
  /-- The layer types. -/
  layers : Dictionary LayerType := .empty
  /-- The names of the members of each group. -/
  groups : Dictionary (List String) := .empty
  /-- Whether registrations are refused. -/
  frozen : Bool := false

namespace Registry

/-- The registry that holds nothing. -/
def empty : Registry := {}

/-- The registry that refuses all further registrations. -/
def freeze (r : Registry) : Registry := { r with frozen := true }

end Registry

/-- An operation on a registry. It ends with a value or a failure, and with the registry that it
leaves: what it has changed before it fails stays changed. -/
abbrev Registration := EStateM Failure Registry

namespace Registration

/-- Registrations under a name are possible unless the registry is frozen. -/
def checkWritable (name : String) : Registration Unit := do
  if (← get).frozen then throw (.problem (.frozenRegistry name))

/-- Register a layer type. One of the same name is replaced. -/
def layer (layer : LayerType) : Registration Unit := do
  checkWritable layer.name
  modify fun r => { r with layers := r.layers.insert layer.name layer }

/-- The layer type that has the given default values as its parameters. -/
def makeLayer (name : String) (defaults : Parameters) (rule : Rule) (axisParameters : List String) :
    Outcome LayerType := do
  let parameters ← defaults.entries.mapM fun (parameter, default) =>
    ParameterSpec.ofDefault parameter default none ""
  return { name, parameters, rule, axisParameters }

/-- Register a layer type that has the given default values as its parameters. -/
def defaults (name : String) (defaults : Parameters) (rule : Rule) (axisParameters : List String) :
    Registration LayerType := do
  let made ← MonadExcept.ofExcept (makeLayer name defaults rule axisParameters)
  layer made
  return made

/-- Register a group. Its members must be registered layer types. -/
def group (name : String) (members : List String) : Registration Unit := do
  checkWritable name
  let layers := (← get).layers
  match members.find? (!layers.contains ·) with
  | some member =>
    throw (.problem { Diagnostic.unknownLayer member with
      hint := some s!"register it before group '{name}'" })
  | none => modify fun r => { r with groups := r.groups.insert name members }

/-- Refuse all further registrations. -/
def freeze : Registration Unit := modify Registry.freeze

end Registration

namespace Registry

/-- The value of an operation that succeeds, and the registry that it leaves. -/
def after {α : Type} (r : Registry) (operation : Registration α) : Outcome (Registry × α) :=
  match operation.run r with
  | .ok value next => pure (next, value)
  | .error failure _ => throw failure

/-- The registry with a further layer type, which replaces one of the same name. -/
def registerLayer (r : Registry) (layer : LayerType) : Outcome Registry := do
  return (← r.after (.layer layer)).1

/-- The registry with a layer type that has the given default values as its parameters, and that
layer type. -/
def register (r : Registry) (name : String) (defaults : Parameters) (rule : Rule)
    (axisParameters : List String) : Outcome (Registry × LayerType) :=
  r.after (.defaults name defaults rule axisParameters)

/-- The registry with a further group. -/
def registerGroup (r : Registry) (name : String) (members : List String) : Outcome Registry := do
  return (← r.after (.group name members)).1

/-- The layer type of a name. -/
def get? (r : Registry) (name : String) : Option LayerType := r.layers.get? name

/-- The layer type of a name, which must be registered. -/
def lookup (r : Registry) (name : String) : Outcome LayerType :=
  match r.get? name with
  | some layer => pure layer
  | none =>
    throw (.problem { Diagnostic.unknownLayer name with
      hint :=
        if r.groups.contains name then some "it is a library group; use a member name" else none })

/-- The names of the layer types that an import of a name brings into scope: the members of a group,
or the name itself if it is that of a layer type. -/
def members? (r : Registry) (name : String) : Option (List String) :=
  match r.groups.get? name with
  | some members => some members
  | none => if r.layers.contains name then some [name] else none

/-- The names of the layer types that an import of a name brings into scope. -/
def expand (r : Registry) (name : String) : Outcome (List String) :=
  match r.members? name with
  | some members => pure members
  | none => throw (.problem (.unknownLayer name))

/-- Whether a name is that of a layer type or a group. -/
def contains (r : Registry) (name : String) : Bool :=
  r.layers.contains name || r.groups.contains name

end Registry

end Shapeline
