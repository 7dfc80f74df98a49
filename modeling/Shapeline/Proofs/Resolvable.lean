import Shapeline.Proofs.Overrides
import Shapeline.Proofs.Reported.Resolution

/-!
# Which definitions are resolved

A definition is resolved exactly if its imports are known and bring registered layer types into
scope, its override blocks name layer types in scope and their assignments are accepted, its nodes
use layers in scope, and no two of its variables have one symbol. The resolved model holds the layer
types in scope, their defaults with all assignments put in, and the variables under their symbols.
None of this depends on the order of the imports.
-/

namespace Shapeline

/-- Some import brings a layer type into scope. -/
def Registry.Imports (registry : Registry) (imports : List String) (name : String) : Prop :=
  ∃ imported ∈ imports, ∃ members, registry.members? imported = some members ∧ name ∈ members

/-- A definition has no problems that resolution looks for. -/
structure Definition.Resolvable (registry : Registry) (definition : Definition) : Prop where
  /-- The imports are those of groups and layer types. -/
  known : ∀ name ∈ definition.imports, ∃ members, registry.members? name = some members
  /-- What they bring into scope is registered. -/
  registered : ∀ name, registry.Imports definition.imports name →
    ∃ layer, registry.get? name = some layer
  /-- The override blocks name layer types in scope. -/
  blocks : ∀ block ∈ definition.typeOverrides, registry.Imports definition.imports block.layer
  /-- The assignments of the blocks are accepted. -/
  accepted : ∀ name layer, registry.Imports definition.imports name →
    registry.get? name = some layer →
      ∃ entries, layer.Accepts [] (assignmentsFor definition.typeOverrides name) entries
  /-- The nodes use layer types in scope. -/
  references : ∀ n ∈ definition.nodes, n.index ≠ 0 → ∀ name ∈ n.layerNames,
    registry.Imports definition.imports name
  /-- The variables have different symbols. -/
  symbols : (definition.hyperparameters.map (·.symbol)).Nodup

/-- What resolution makes of a definition. -/
structure ResolvedModel.Binds (registry : Registry) (model : ResolvedModel) : Prop where
  /-- The layer types are the registered ones that are imported. -/
  layerTypes : ∀ name layer, model.layerTypes.get? name = some layer ↔
    registry.Imports model.definition.imports name ∧ registry.get? name = some layer
  /-- Their parameters are the defaults with the assignments of the override blocks put in. -/
  typeParameters : ∀ name layer, model.layerTypes.get? name = some layer → ∃ entries,
    layer.Accepts [] (assignmentsFor model.definition.typeOverrides name) entries ∧
      model.typeParameters.get? name = some (layer.defaults.insertAll entries)
  /-- The variables stand under their symbols. -/
  hyperparameters : model.hyperparameters.entries =
    model.definition.hyperparameters.map fun h => (h.symbol, h)

variable {registry : Registry} {definition : Definition} {model : ResolvedModel} {warn : Bool}
  {warnings : List Warning} {imports imports' scope : List String} {name : String}
  {declared : List Hyperparameter} {nodes : List NodeSpec} {layers : List (String × LayerType)}

/-- What is imported depends on the members of the list of imports only. -/
theorem Registry.Imports.congr (h : registry.Imports imports name)
    (hsame : ∀ other ∈ imports, other ∈ imports') : registry.Imports imports' name := by
  obtain ⟨imported, hmem, hmembers⟩ := h
  exact ⟨imported, hsame imported hmem, hmembers⟩

/-- A further import adds its members to the scope, or a problem. -/
theorem resolveImports_concat (registry : Registry) (imports : List String) (last : String) :
    resolveImports registry (imports ++ [last]) =
      match registry.members? last with
      | some members => (members.foldl appendNew (resolveImports registry imports).1,
          (resolveImports registry imports).2)
      | none => ((resolveImports registry imports).1, (resolveImports registry imports).2 ++
          [.unresolvedImport last "not in the layer registry"]) := by
  rw [resolveImports, List.foldl_append]
  rfl

/-- Imports have no problems if they are known, and they bring their members into scope. -/
theorem resolveImports_eq (registry : Registry) (imports : List String) :
    ((resolveImports registry imports).2 = [] ↔
      ∀ name ∈ imports, ∃ members, registry.members? name = some members) ∧
      ∀ name, name ∈ (resolveImports registry imports).1 ↔ registry.Imports imports name := by
  induction imports using List.reverseRecOn with
  | nil => simp [resolveImports, Registry.Imports]
  | append_singleton imports last ih =>
    obtain ⟨hknown, hscope⟩ := ih
    rw [resolveImports_concat]
    cases hmembers : registry.members? last with
    | none =>
      refine ⟨by simp [or_imp, forall_and, hmembers], fun name => (hscope name).trans ?_⟩
      simp [Registry.Imports, hmembers, or_and_right, exists_or]
    | some members =>
      have hadded {scope : List String} {name : String} :
          name ∈ members.foldl appendNew scope ↔ name ∈ scope ∨ name ∈ members :=
        ⟨mem_of_mem_foldl_appendNew, mem_foldl_appendNew⟩
      refine ⟨hknown.trans (by simp [or_imp, forall_and, hmembers]), fun name => ?_⟩
      rw [hadded, hscope]
      simp [Registry.Imports, hmembers, or_and_right, exists_or]

/-- The layer types that are looked up are the registered ones in scope. -/
theorem get?_of_lookups
    (h : (scope.mapM fun name => do return (name, ← registry.lookup name)) = .ok layers)
    {layer : LayerType} : (Dictionary.ofList layers).get? name = some layer ↔
      name ∈ scope ∧ registry.get? name = some layer := by
  have hlayers := mapM_eq_ok_iff.mp h
  constructor
  · intro hget
    obtain ⟨other, hother, hlookup⟩ :=
      exists_of_mem_right hlayers (Dictionary.mem_of_get?_ofList hget)
    obtain ⟨found, -, hlookup⟩ := bind_eq_ok_iff.mp hlookup
    obtain ⟨rfl, -⟩ := Prod.mk.inj (pure_eq_ok_iff.mp hlookup)
    exact ⟨hother, registered_of_lookups h hget⟩
  · rintro ⟨hname, hlayer⟩
    obtain ⟨entry, hentry, hlookup⟩ := exists_of_mem_left hlayers hname
    obtain ⟨found, -, hlookup⟩ := bind_eq_ok_iff.mp hlookup
    obtain rfl := pure_eq_ok_iff.mp hlookup
    obtain ⟨other, hother⟩ := Dictionary.exists_get?_ofList hentry
    rw [hother, ← registered_of_lookups h hother, hlayer]

/-- Names that can all be looked up are registered. -/
theorem registered_of_lookups_eq_ok
    (h : (scope.mapM fun name => do return (name, ← registry.lookup name)) = .ok layers) :
    ∀ name ∈ scope, ∃ layer, registry.get? name = some layer := by
  intro name hname
  obtain ⟨_, _, hlookup⟩ := exists_of_mem_left (mapM_eq_ok_iff.mp h) hname
  obtain ⟨layer, hlayer, -⟩ := bind_eq_ok_iff.mp hlookup
  exact ⟨layer, get?_of_lookup hlayer⟩

/-- References have no problems exactly if the layers that are used are in scope. -/
theorem checkReferences_eq_nil_iff :
    checkReferences registry scope nodes = [] ↔
      ∀ n ∈ nodes, n.index ≠ 0 → ∀ name ∈ n.layerNames, name ∈ scope := by
  refine ⟨fun h n hn hindex => mem_of_checkReferences h hn hindex, fun h => ?_⟩
  refine List.flatMap_eq_nil_iff.mpr fun n hn => List.map_eq_nil_iff.mpr ?_
  obtain ⟨hn, hindex⟩ := List.mem_filter.mp hn
  refine List.filter_eq_nil_iff.mpr fun name hname => ?_
  have hscope := h n hn (by simpa using hindex) name hname
  simpa using hscope

/-- A further variable is collected unless there is one with its symbol. -/
theorem collectHyperparameters_concat (model : String) (declared : List Hyperparameter)
    (last : Hyperparameter) :
    collectHyperparameters model (declared ++ [last]) =
      if (collectHyperparameters model declared).1.contains last.symbol then
        ((collectHyperparameters model declared).1, (collectHyperparameters model declared).2 ++
          [.duplicateOverride model last.symbol "model variables" none])
      else ((collectHyperparameters model declared).1.insert last.symbol last,
        (collectHyperparameters model declared).2) := by
  rw [collectHyperparameters, List.foldl_append]
  rfl

/-- Variables have no problems exactly if their symbols are different, and then each stands under
its symbol. -/
theorem collectHyperparameters_eq (model : String) (declared : List Hyperparameter) :
    ((collectHyperparameters model declared).2 = [] ↔ (declared.map (·.symbol)).Nodup) ∧
      ((collectHyperparameters model declared).2 = [] →
        (collectHyperparameters model declared).1.entries =
          declared.map fun h => (h.symbol, h)) := by
  induction declared using List.reverseRecOn with
  | nil => exact ⟨iff_of_true rfl List.nodup_nil, fun _ => rfl⟩
  | append_singleton declared last ih =>
    have hdistinct : ((declared ++ [last]).map (·.symbol)).Nodup ↔
        last.symbol ∉ declared.map (·.symbol) ∧ (declared.map (·.symbol)).Nodup := by
      rw [List.map_append, List.map_singleton, ← List.concat_eq_append]
      exact List.nodup_concat _ _
    rw [collectHyperparameters_concat, hdistinct]
    generalize collectHyperparameters model declared = found at ih
    obtain ⟨known, errors⟩ := found
    obtain ⟨hnil, hentries⟩ := ih
    have hkeys (herrors : errors = []) : known.keys = declared.map (·.symbol) := by
      rw [Dictionary.keys, hentries herrors, List.map_map]
      rfl
    by_cases hmem : last.symbol ∈ known.keys
    · have hcontains : known.contains last.symbol = true := List.contains_iff_mem.mpr hmem
      rw [if_pos hcontains]
      have hne (more : Diagnostic) : errors ++ [more] ≠ [] := by simp
      refine ⟨iff_of_false (hne _) fun h => ?_, fun h => absurd h (hne _)⟩
      exact h.1 (hkeys (hnil.mpr h.2) ▸ hmem)
    · have hcontains : ¬ known.contains last.symbol = true :=
        fun h => hmem (List.contains_iff_mem.mp h)
      rw [if_neg hcontains]
      refine ⟨hnil.trans ⟨fun h => ⟨hkeys (hnil.mpr h) ▸ hmem, h⟩, fun h => h.2⟩, fun herrors => ?_⟩
      have hadded : (known.insert last.symbol last).entries =
          known.entries ++ [(last.symbol, last)] := Dictionary.replaceOrAppend_of_notMem hmem
      rw [hadded, hentries herrors, List.map_append]
      rfl

/-- The parameters of layer types before the override blocks are applied. -/
def OverrideState.start (layerTypes : Dictionary LayerType) : OverrideState :=
  { parameters := layerTypes.map fun _ layer => layer.defaults }

/-- A definition is resolved if no stage of resolution finds a problem. -/
theorem resolve_eq_ok_iff :
    resolve registry warn definition = .ok (model, warnings) ↔ ∃ layers overrides,
      ((resolveImports registry definition.imports).1.mapM fun name => do
        return (name, ← registry.lookup name)) = .ok layers ∧
      definition.typeOverrides.foldlM (OverrideState.applyBlock registry (.ofList layers))
        (.start (.ofList layers)) = .ok overrides ∧
      (resolveImports registry definition.imports).2 = [] ∧ overrides.errors = [] ∧
      checkReferences registry (resolveImports registry definition.imports).1
        definition.nodes = [] ∧
      (collectHyperparameters definition.name definition.hyperparameters).2 = [] ∧
      model = ⟨definition, (resolveImports registry definition.imports).1, .ofList layers,
        overrides.parameters,
        (collectHyperparameters definition.name definition.hyperparameters).1⟩ ∧
      warnings = (if warn then unusedImports registry definition.referencedLayers definition.imports
        else []) ++ unusedOverrides definition.referencedLayers definition.typeOverrides := by
  unfold resolve OverrideState.start
  simp only [bind_eq_ok_iff]
  refine exists_congr fun layers => ?_
  rw [← exists_and_left]
  refine exists_congr fun overrides => and_congr_right fun _ => and_congr_right fun _ => ?_
  split
  · rename_i hnil
    simp only [List.append_eq_nil_iff] at hnil
    obtain ⟨⟨⟨himports, hoverrides⟩, hreferences⟩, hvariables⟩ := hnil
    simp only [himports, hoverrides, hreferences, hvariables, pure_eq_ok_iff, Prod.mk.injEq,
      true_and]
  · rename_i hne
    refine iff_of_false nofun ?_
    rintro ⟨himports, hoverrides, hreferences, hvariables, -⟩
    exact hne (by simp [himports, hoverrides, hreferences, hvariables])

/-- A definition that is resolved has no problems. -/
theorem resolvable_of_resolve (h : resolve registry warn definition = .ok (model, warnings)) :
    definition.Resolvable registry := by
  obtain ⟨layers, overrides, hlayers, hoverrides, himports, hnil, hreferences, hvariables, -, -⟩ :=
    resolve_eq_ok_iff.mp h
  obtain ⟨hknown, hscope⟩ := resolveImports_eq registry definition.imports
  obtain ⟨-, hblocks, haccepts⟩ := accepts_of_applyBlocks hoverrides hnil
  have hregistered := registered_of_lookups_eq_ok hlayers
  refine ⟨hknown.mp himports, fun name hname => hregistered name ((hscope name).mpr hname),
    fun block hblock => ?_, fun name layer hname hlayer => ?_, fun n hn hindex name hname => ?_,
    (collectHyperparameters_eq _ _).1.mp hvariables⟩
  · obtain ⟨layer, hlayer⟩ := hblocks block hblock
    exact (hscope _).mp ((get?_of_lookups hlayers).mp hlayer).1
  · obtain ⟨entries, hentries, -⟩ :=
      haccepts name layer ((get?_of_lookups hlayers).mpr ⟨(hscope name).mpr hname, hlayer⟩)
    exact ⟨entries, hentries⟩
  · exact (hscope name).mp (checkReferences_eq_nil_iff.mp hreferences n hn hindex name hname)

/-- A definition without problems is resolved. -/
theorem exists_resolve (warn : Bool) (h : definition.Resolvable registry) :
    ∃ result, resolve registry warn definition = .ok result := by
  obtain ⟨hknown, hscope⟩ := resolveImports_eq registry definition.imports
  obtain ⟨layers, hlayers, -⟩ := returns_lookups fun name hname =>
    h.registered name ((hscope name).mp hname)
  have hlayer {name : String} {layer : LayerType} :
      (Dictionary.ofList layers).get? name = some layer ↔
        registry.Imports definition.imports name ∧ registry.get? name = some layer := by
    rw [get?_of_lookups hlayers, hscope]
  obtain ⟨overrides, hoverrides, hnil⟩ : ∃ overrides,
      definition.typeOverrides.foldlM (OverrideState.applyBlock registry (.ofList layers))
        (.start (.ofList layers)) = .ok overrides ∧ overrides.errors = [] := by
    refine exists_applyBlocks rfl (fun block hblock => ?_) fun name layer hget => ?_
    · have himported := h.blocks block hblock
      obtain ⟨layer, hregistered⟩ := h.registered block.layer himported
      exact ⟨layer, hlayer.mpr ⟨himported, hregistered⟩⟩
    · obtain ⟨himported, hregistered⟩ := hlayer.mp hget
      exact h.accepted name layer himported hregistered
  have hreferences : checkReferences registry (resolveImports registry definition.imports).1
      definition.nodes = [] :=
    checkReferences_eq_nil_iff.mpr fun n hn hindex name hname =>
      (hscope name).mpr (h.references n hn hindex name hname)
  exact ⟨(_, _), resolve_eq_ok_iff.mpr ⟨layers, overrides, hlayers, hoverrides, hknown.mpr h.known,
    hnil, hreferences, (collectHyperparameters_eq _ _).1.mpr h.symbols, rfl, rfl⟩⟩

/-- A resolved model holds what its definition says. -/
theorem binds_of_resolve (h : resolve registry warn definition = .ok (model, warnings)) :
    model.Binds registry := by
  obtain ⟨layers, overrides, hlayers, hoverrides, -, hnil, -, hvariables, rfl, -⟩ :=
    resolve_eq_ok_iff.mp h
  obtain ⟨-, hscope⟩ := resolveImports_eq registry definition.imports
  obtain ⟨-, -, haccepts⟩ := accepts_of_applyBlocks hoverrides hnil
  refine ⟨fun name layer => ?_, fun name layer hlayer => ?_,
    (collectHyperparameters_eq _ _).2 hvariables⟩
  · exact (get?_of_lookups hlayers).trans (and_congr_left' (hscope name))
  · obtain ⟨entries, hentries, hparameters⟩ := haccepts name layer hlayer
    refine ⟨entries, hentries, hparameters layer.defaults ?_⟩
    have hlayer : (Dictionary.ofList layers).get? name = some layer := hlayer
    rw [OverrideState.start, Dictionary.get?_map, hlayer]
    rfl

end Shapeline
