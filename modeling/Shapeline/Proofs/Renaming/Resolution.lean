import Shapeline.Proofs.Renaming.Rule
import Shapeline.Proofs.Replanning

/-!
# Resolution of renamed definitions

Resolution looks at symbols in one place only: two variables must not have one symbol. A definition
with its symbols renamed is therefore resolved together with the definition itself, to the same
layer types with the renamed parameters, as long as the renaming leaves those symbols alone that the
defaults of the layer types mention.
-/

namespace Shapeline

/-- An assignment with the symbols of its value renamed. The key names a parameter. -/
def Assignment.rename (f : String → String) (a : Assignment) : Assignment :=
  { a with value := a.value.rename f }

/-- A use of a layer with the symbols of its overrides renamed. -/
def CallSpec.rename (f : String → String) (call : CallSpec) : CallSpec :=
  { call with overrides := call.overrides.map (Assignment.rename f) }

/-- An override block with its symbols renamed. -/
def TypeOverride.rename (f : String → String) (block : TypeOverride) : TypeOverride :=
  { block with assignments := block.assignments.map (Assignment.rename f) }

/-- A node of an inline model with its symbols renamed. -/
def LineSpec.rename (f : String → String) (line : LineSpec) : LineSpec :=
  { line with
    calls := line.calls.map (CallSpec.rename f)
    declared := line.declared.map (Shape.rename f) }

/-- An inline model with its symbols renamed. -/
def InlineSpec.rename (f : String → String) (inline : InlineSpec) : InlineSpec :=
  { inline with lines := inline.lines.map (LineSpec.rename f) }

/-- A node with its symbols renamed. -/
def NodeSpec.rename (f : String → String) (n : NodeSpec) : NodeSpec :=
  { n.toLineSpec.rename f with inline := n.inline.map (InlineSpec.rename f) }

/-- A variable has the new name and the renamed value. A variable whose description is its name may
have the new name for its description too. -/
structure Hyperparameter.Renames (f : String → String) (h h' : Hyperparameter) : Prop where
  /-- The symbol is renamed. -/
  symbol : h'.symbol = f h.symbol
  /-- The description stays, unless it is the symbol. -/
  description : h'.description = h.description ∨
    h.description = h.symbol ∧ h'.description = h'.symbol
  /-- The value is renamed. -/
  value : h'.value = h.value.rename f

/-- A definition differs from another one in the names of its symbols. -/
structure Definition.Renames (f : String → String) (d d' : Definition) : Prop where
  /-- The override blocks and the nodes are renamed, and the names and the imports stay. -/
  rest : d' = { d with
    typeOverrides := d.typeOverrides.map (TypeOverride.rename f)
    hyperparameters := d'.hyperparameters
    nodes := d.nodes.map (NodeSpec.rename f) }
  /-- The variables are renamed. -/
  hyperparameters : List.Forall₂ (Hyperparameter.Renames f) d.hyperparameters d'.hyperparameters

/-- The defaults of an imported layer type mention a symbol. -/
def Registry.Mentions (registry : Registry) (imports : List String) (symbol : String) : Prop :=
  ∃ name layer, registry.Imports imports name ∧ registry.get? name = some layer ∧
    ∃ parameter t, layer.defaults.term? parameter .absent = some t ∧ symbol ∈ t.symbols

variable {f : String → String} {registry : Registry} {d d' : Definition} {layer : LayerType}
  {seen : List String} {a : Assignment} {assignments : List Assignment} {entry : String × Value}
  {entries : List (String × Value)} {name : String} {n : NodeSpec} {model model' : ResolvedModel}

/-- A renamed value is of the same kind. -/
@[simp] theorem ValueKind.ofValue_rename (v : Value) : ofValue (v.rename f) = ofValue v := by
  cases v with
  | dim t => cases t <;> rfl
  | _ => rfl

/-- A renamed assignment sets the parameter to the renamed value. -/
theorem LayerType.Sets.rename (h : layer.Sets a entry) :
    layer.Sets (a.rename f) (entry.1, entry.2.rename f) := by
  obtain ⟨spec, hspec, ⟨given, hkind, haccepts⟩, rfl⟩ := h
  exact ⟨spec, hspec, ⟨given, (ValueKind.ofValue_rename _).trans hkind, haccepts⟩, rfl⟩

/-- Renamed assignments are accepted with the renamed values. -/
theorem LayerType.Accepts.rename (h : layer.Accepts seen assignments entries) :
    layer.Accepts seen (assignments.map (Assignment.rename f))
      (entries.map fun (name, v) => (name, v.rename f)) where
  sets := List.forall₂_map_left_iff.mpr (List.forall₂_map_right_iff.mpr
    (h.sets.imp fun _ _ hsets => hsets.rename))
  distinct := by
    rw [List.map_map]
    exact h.distinct
  fresh entry hentry := by
    obtain ⟨old, hold, rfl⟩ := List.mem_map.mp hentry
    exact h.fresh old hold

/-- The assignments for a layer type are renamed with the override blocks. -/
theorem assignmentsFor_rename (blocks : List TypeOverride) (name : String) :
    assignmentsFor (blocks.map (TypeOverride.rename f)) name =
      (assignmentsFor blocks name).map (Assignment.rename f) := by
  unfold assignmentsFor
  rw [List.filter_map, List.flatMap_map, List.map_flatMap]
  rfl

/-- The nodes of the inline model are renamed with the node. -/
theorem NodeSpec.inner_rename : (n.rename f).inner = n.inner.map (LineSpec.rename f) := by
  obtain ⟨line, inline⟩ := n
  cases inline <;> rfl

/-- The names of layer types stay. -/
theorem NodeSpec.layerNames_rename : (n.rename f).layerNames = n.layerNames := by
  have hcalls (calls : List CallSpec) :
      (calls.map (CallSpec.rename f)).map (·.name) = calls.map (·.name) := by
    rw [List.map_map]
    rfl
  unfold layerNames
  rw [inner_rename, List.flatMap_map]
  refine congrArg₂ _ (hcalls n.calls) (congrArg (List.flatMap · n.inner) ?_)
  funext line
  exact hcalls line.calls

/-- A renamed definition has no problems if the definition has none. -/
theorem Definition.Renames.resolvable (h : d.Renames f d') (hf : Function.Injective f)
    (hd : d.Resolvable registry) : d'.Resolvable registry := by
  have hsymbols : d'.hyperparameters.map (·.symbol) = (d.hyperparameters.map (·.symbol)).map f := by
    rw [List.map_map]
    exact (map_eq_map_of_forall₂ (h.hyperparameters.imp fun _ _ hh => hh.symbol.symm)).symm
  have hrest := h.rest
  generalize d'.hyperparameters = hyperparameters at hrest hsymbols
  subst hrest
  refine ⟨hd.known, hd.registered, fun block hblock => ?_, fun name layer hname hlayer => ?_,
    fun n hn hindex name hname => ?_, ?_⟩
  · obtain ⟨old, hold, rfl⟩ := List.mem_map.mp hblock
    exact hd.blocks old hold
  · obtain ⟨entries, haccepts⟩ := hd.accepted name layer hname hlayer
    exact ⟨_, assignmentsFor_rename d.typeOverrides name ▸ haccepts.rename⟩
  · obtain ⟨old, hold, rfl⟩ := List.mem_map.mp hn
    rw [NodeSpec.layerNames_rename] at hname
    exact hd.references old hold hindex name hname
  · rw [hsymbols]
    exact hd.symbols.map hf

/-- The defaults of an imported layer type stay if the symbols that they mention do. -/
theorem defaults_rename {layer : LayerType} {imports : List String}
    (hmentions : ∀ symbol, registry.Mentions imports symbol → f symbol = symbol)
    (hname : registry.Imports imports name) (hlayer : registry.get? name = some layer) :
    layer.defaults.rename f = layer.defaults := by
  rw [Parameters.rename_congr (g := id), Parameters.rename_id]
  exact fun parameter t ht symbol hsymbol =>
    hmentions symbol ⟨name, layer, hname, hlayer, parameter, t, ht, hsymbol⟩

/-- The renamed definition is resolved to the same layer types, with renamed parameters. -/
theorem Definition.Renames.matchesAt (h : model.definition.Renames f model'.definition)
    (hmodel : model.Binds registry) (hmodel' : model'.Binds registry)
    (hmentions : ∀ symbol, registry.Mentions model.definition.imports symbol → f symbol = symbol)
    (name : String) :
    model.MatchesAt (fun p p' => p' = Parameters.rename f p) model' name := by
  have himports : model'.definition.imports = model.definition.imports := by rw [h.rest]
  have hoverrides : model'.definition.typeOverrides =
      model.definition.typeOverrides.map (TypeOverride.rename f) := by rw [h.rest]
  refine hmodel.matchesAt hmodel' (by rw [himports])
    fun layer entries entries' hlayer haccepts haccepts' => ?_
  obtain ⟨himported, hregistered⟩ := (hmodel.layerTypes name layer).mp hlayer
  rw [hoverrides, assignmentsFor_rename] at haccepts'
  rw [Parameters.insertAll_rename, defaults_rename hmentions himported hregistered,
    haccepts'.unique haccepts.rename]

/-- The variables of the renamed definition are the renamed ones, in the same order. -/
theorem Definition.Renames.hyperparameter_entries
    (h : model.definition.Renames f model'.definition)
    (hmodel : model.Binds registry) (hmodel' : model'.Binds registry) :
    List.Forall₂ (fun e e' : String × Hyperparameter => e'.1 = f e.1 ∧ e.2.Renames f e'.2)
      model.hyperparameters.entries model'.hyperparameters.entries := by
  rw [hmodel.hyperparameters, hmodel'.hyperparameters, List.forall₂_map_left_iff,
    List.forall₂_map_right_iff]
  exact h.hyperparameters.imp fun _ _ hh => ⟨hh.symbol, hh⟩

end Shapeline
