import Shapeline.Definition
import Shapeline.Registry

/-!
# Resolution

A definition is bound to a registry: imports bring layer types into scope, override blocks change
their parameters, every layer that a node uses must be in scope, and the variables of the model are
collected by symbol. All problems are raised together. Only a definition without problems is checked
for imports and override blocks that have no effect.
-/

namespace Shapeline

/-- A definition whose names are bound to layer types. -/
structure ResolvedModel where
  /-- The definition. -/
  definition : Definition
  /-- The names of the layer types in scope, in the order of their imports. -/
  imported : List String
  /-- The layer types in scope. -/
  layerTypes : Dictionary LayerType
  /-- The parameters of the layer types in scope after the override blocks. -/
  typeParameters : Dictionary Parameters
  /-- The variables of the model by symbol. -/
  hyperparameters : Dictionary Hyperparameter

namespace ResolvedModel

/-- The name of the model. -/
def name (m : ResolvedModel) : String := m.definition.name

/-- The values of the variables that are dimensions. -/
def hyperparameterValues (m : ResolvedModel) : Dictionary Value :=
  m.hyperparameters.filterMap fun _ h => if h.isBound then some h.value else none

end ResolvedModel

/-- The names that imports bring into scope, with a diagnostic for every import that the registry
does not know. -/
def resolveImports (registry : Registry) (imports : List String) :
    List String × List Diagnostic :=
  imports.foldl (fun (scope, errors) name =>
    match registry.members? name with
    | some members => (members.foldl appendNew scope, errors)
    | none => (scope, errors ++ [.unresolvedImport name "not in the layer registry"]))
    ([], [])

/-- The diagnostic for a name that is not in scope: it is either unknown or only not imported. -/
def notInScope (registry : Registry) (name : String) (node : Option Int) : Diagnostic :=
  if registry.contains name then
    { Diagnostic.unresolvedImport name "not imported" with
      node, hint := some s!"add 'use {name}'" }
  else { Diagnostic.unknownLayer name with node }

/-- The parameters of the layer types in scope on the way through the override blocks. -/
structure OverrideState where
  /-- The parameters by layer type. -/
  parameters : Dictionary Parameters
  /-- The names of the parameters that earlier blocks have set, by layer type. -/
  seen : Dictionary (List String) := .empty
  /-- The problems so far. -/
  errors : List Diagnostic := []

/-- Apply one override block. -/
def OverrideState.applyBlock (registry : Registry) (layerTypes : Dictionary LayerType)
    (state : OverrideState) (block : TypeOverride) : Outcome OverrideState :=
  match layerTypes.get? block.layer with
  | none =>
    pure { state with errors := state.errors ++ [notInScope registry block.layer none] }
  | some layer => do
    let base := (state.parameters.get? block.layer).getD .empty
    let seen := (state.seen.get? block.layer).getD []
    let merge ← mergeParameters layer base block.assignments "model-level type block" none seen
    pure {
      parameters := state.parameters.insert block.layer merge.params
      seen := state.seen.insert block.layer merge.seen
      errors := state.errors ++ merge.errors }

/-- A diagnostic for every use of a layer, outside the input node, that is not in scope. -/
def checkReferences (registry : Registry) (scope : List String) (nodes : List NodeSpec) :
    List Diagnostic :=
  (nodes.filter (·.index ≠ 0)).flatMap fun node =>
    (node.layerNames.filter (!scope.contains ·)).map fun name =>
      notInScope registry name (some node.index)

/-- The variables by symbol, with a diagnostic for every symbol that is declared again. -/
def collectHyperparameters (model : String) (declared : List Hyperparameter) :
    Dictionary Hyperparameter × List Diagnostic :=
  declared.foldl (fun (known, errors) h =>
    if known.contains h.symbol then
      (known, errors ++ [.duplicateOverride model h.symbol "model variables" none])
    else (known.insert h.symbol h, errors))
    (.empty, [])

/-- A warning for every import of which no node uses a layer. -/
def unusedImports (registry : Registry) (used imports : List String) : List Warning :=
  (imports.filter fun name =>
    !((registry.members? name).getD []).any used.contains).map fun name =>
      { code := .unusedImport
        message := s!"'{name}' is imported but never used"
        layer := some name }

/-- A warning for every override block whose layer no node uses. -/
def unusedOverrides (used : List String) (blocks : List TypeOverride) : List Warning :=
  (blocks.filter fun block => !used.contains block.layer).map fun block =>
    { code := .unusedOverrides
      message := s!"override block for '{block.layer}' has no effect: no node uses it"
      layer := some block.layer }

/-- Bind a definition to a registry. Besides the resolved model there are warnings for imports, if
they are wanted, and for override blocks without effect. -/
def resolve (registry : Registry) (warnUnusedImports : Bool) (definition : Definition) :
    Outcome (ResolvedModel × List Warning) := do
  let (imported, importErrors) := resolveImports registry definition.imports
  let layers ← imported.mapM fun name => do return (name, ← registry.lookup name)
  let layerTypes : Dictionary LayerType := .ofList layers
  let overrides ← definition.typeOverrides.foldlM
    (OverrideState.applyBlock registry layerTypes)
    { parameters := layerTypes.map fun _ layer => layer.defaults }
  let referenceErrors := checkReferences registry imported definition.nodes
  let (hyperparameters, variableErrors) :=
    collectHyperparameters definition.name definition.hyperparameters
  match importErrors ++ overrides.errors ++ referenceErrors ++ variableErrors with
  | [] =>
    let used := definition.referencedLayers
    let warnings :=
      (if warnUnusedImports then unusedImports registry used definition.imports else []) ++
        unusedOverrides used definition.typeOverrides
    pure ({ definition, imported, layerTypes, typeParameters := overrides.parameters,
            hyperparameters }, warnings)
  | errors => throw (.problems errors)

end Shapeline
