import Shapeline.Compilation
import Shapeline.Proofs.Importing
import Shapeline.Proofs.Merging

/-!
# All problems of a definition

Resolution goes through a definition in four stages, for the imports, the override blocks, the uses
of layers and the variables. Each of them only depends on the definition and on what the imports
bring into scope, and the problems of one stage do not hide those of another. So the problems that
are reported can be read off the definition: they are listed here without going through the stages,
and resolution reports this list, or succeeds if it is empty.
-/

namespace Shapeline

/-- To tell whether a name is brought into scope all imports are looked through. -/
instance (registry : Registry) (imports : List String) (name : String) :
    Decidable (registry.Imports imports name) :=
  decidable_of_iff (∃ imported ∈ imports, name ∈ (registry.members? imported).getD []) <|
    exists_congr fun imported => and_congr_right fun _ => by
      cases registry.members? imported <;> simp

/-- The diagnostic for the use of a name that no import brings into scope. A registered name could
be imported, and any other one is unknown. -/
def Registry.outOfScope (registry : Registry) (name : String) (node : Option Int) : Diagnostic :=
  if registry.contains name then .notImported name node
  else { Diagnostic.unknownLayer name with node }

namespace Definition

variable (registry : Registry) (definition : Definition)

/-- The layer type that a name stands for in a definition, if an import brings it into scope. -/
def layer? (name : String) : Option LayerType :=
  if registry.Imports definition.imports name then registry.get? name else none

/-- One problem for every import of a name that is neither that of a group nor of a layer type. -/
def importProblems : List Diagnostic :=
  (definition.imports.filter (!registry.contains ·)).map fun name =>
    .unresolvedImport name "not in the layer registry"

/-- The problems of an override block: its layer type is not in scope, or some of its assignments
are rejected. Parameters that earlier blocks for the layer type have named cannot be set again. -/
def blockProblems (earlier : List TypeOverride) (block : TypeOverride) : List Diagnostic :=
  match definition.layer? registry block.layer with
  | none => [registry.outOfScope block.layer none]
  | some layer =>
    layer.rejections "model-level type block" none
      (layer.named (assignmentsFor earlier block.layer)) block.assignments

/-- The problems of the override blocks. -/
def overrideProblems : List Diagnostic :=
  (mapWithEarlier (definition.blockProblems registry) definition.typeOverrides).flatten

/-- One problem for every use of a layer that is not in scope, at a node that is not the input. -/
def referenceProblems : List Diagnostic :=
  (definition.nodes.filter (·.index ≠ 0)).flatMap fun n =>
    (n.layerNames.filter fun name => ¬ registry.Imports definition.imports name).map fun name =>
      registry.outOfScope name (some n.index)

/-- One problem for every variable with the symbol of an earlier one. -/
def variableProblems : List Diagnostic :=
  (mapWithEarlier (fun earlier h => if h.symbol ∈ earlier.map (·.symbol)
      then [.duplicateOverride definition.name h.symbol "model variables" none] else [])
    definition.hyperparameters).flatten

/-- All problems of a definition, in the order in which they are reported. -/
def problems : List Diagnostic :=
  definition.importProblems registry ++ definition.overrideProblems registry ++
    definition.referenceProblems registry ++ definition.variableProblems

end Definition

variable {registry : Registry} {definition : Definition} {layerTypes : Dictionary LayerType}
  {state : OverrideState} {block : TypeOverride} {blocks done : List TypeOverride}
  {name : String} {node : Option Int}

/-- The diagnostic for a name out of scope says whether the name is registered. -/
theorem notInScope_eq : notInScope registry name node = registry.outOfScope name node := by
  unfold Registry.outOfScope
  split
  · exact notInScope_of_contains ‹_›
  · exact if_neg ‹_›

/-- Imports have the problems of the names that are not registered. -/
theorem snd_resolveImports (registry : Registry) (imports : List String) :
    (resolveImports registry imports).2 =
      (imports.filter (!registry.contains ·)).map fun name =>
        .unresolvedImport name "not in the layer registry" := by
  induction imports using List.reverseRecOn with
  | nil => rfl
  | append_singleton imports last ih =>
    rw [resolveImports_concat, List.filter_append, List.map_append, ← ih]
    cases hmembers : registry.members? last with
    | none =>
      have hunknown : registry.contains last = false := by
        rw [← Bool.not_eq_true, Registry.contains_iff_exists_members?, hmembers]
        nofun
      simp [hunknown]
    | some members =>
      have hknown : registry.contains last = true :=
        Registry.contains_iff_exists_members?.mpr ⟨members, hmembers⟩
      simp [hknown]

/-- The assignments of blocks for a layer type come in the order of the blocks. -/
theorem assignmentsFor_append (blocks more : List TypeOverride) (name : String) :
    assignmentsFor (blocks ++ more) name =
      assignmentsFor blocks name ++ assignmentsFor more name := by
  unfold assignmentsFor
  rw [List.filter_append, List.flatMap_append]

/-- The parameters that are remembered as set are those that earlier blocks for the layer type have
named. -/
def OverrideState.Tracks (layerTypes : Dictionary LayerType) (done : List TypeOverride)
    (state : OverrideState) : Prop :=
  ∀ name layer, layerTypes.get? name = some layer → ∀ parameter,
    parameter ∈ (state.seen.get? name).getD [] ↔ parameter ∈ layer.named (assignmentsFor done name)

/-- A block adds its problems and is remembered. -/
theorem OverrideState.Tracks.applyBlock (hstate : state.Tracks layerTypes done)
    (hlayers : ∀ name, layerTypes.get? name = definition.layer? registry name)
    (hvalues : ∀ a ∈ block.assignments, a.value.isAtomic = true) :
    Returns (fun next => next.Tracks layerTypes (done ++ [block]) ∧
        next.errors = state.errors ++ definition.blockProblems registry done block)
      (state.applyBlock registry layerTypes block) := by
  unfold OverrideState.applyBlock Definition.blockProblems
  rw [← hlayers]
  cases hown : layerTypes.get? block.layer with
  | none =>
    refine .of_pure ⟨fun name layer hlayer parameter => ?_, by rw [notInScope_eq]⟩
    have hne : name ≠ block.layer := fun hname => by
      rw [hname, hown] at hlayer
      cases hlayer
    rw [assignmentsFor_append, assignmentsFor_cons_of_ne hne, LayerType.named_append]
    simpa [assignmentsFor, LayerType.named] using hstate name layer hlayer parameter
  | some own =>
    have hseen := hstate block.layer own hown
    refine (returns_verdicts hvalues).of_bind fun merge hmerge => .of_pure ⟨?_, ?_⟩
    · intro name layer hlayer parameter
      rw [Dictionary.get?_insert, assignmentsFor_append, LayerType.named_append, List.mem_append]
      by_cases hname : name = block.layer
      · subst hname
        obtain rfl := Option.some.inj (hown.symm.trans hlayer)
        rw [if_pos rfl, Option.getD_some, hmerge.seen, hseen, assignmentsFor_cons_self]
        simp [assignmentsFor]
      · rw [if_neg hname, assignmentsFor_cons_of_ne hname, hstate name layer hlayer parameter]
        simp [assignmentsFor, LayerType.named]
    · rw [hmerge.errors, List.nil_append, LayerType.verdicts_congr hseen]
      rfl

/-- Blocks that come after others add their problems in order. -/
theorem OverrideState.Tracks.applyBlocks
    (hlayers : ∀ name, layerTypes.get? name = definition.layer? registry name)
    (hvalues : ∀ block ∈ blocks, ∀ a ∈ block.assignments, a.value.isAtomic = true)
    (hstate : state.Tracks layerTypes done) :
    Returns (fun last => last.errors = state.errors ++ (mapWithEarlier
        (fun earlier => definition.blockProblems registry (done ++ earlier)) blocks).flatten)
      (blocks.foldlM (OverrideState.applyBlock registry layerTypes) state) := by
  induction blocks generalizing state done with
  | nil => exact .of_pure (List.append_nil _).symm
  | cons block rest ih =>
    obtain ⟨hfirst, hrest⟩ := List.forall_mem_cons.mp hvalues
    refine (hstate.applyBlock hlayers hfirst).of_bind fun next ⟨hnext, herrors⟩ => ?_
    obtain ⟨last, hlast, hadded⟩ := ih hrest hnext
    refine ⟨last, hlast, hadded.trans ?_⟩
    rw [herrors, mapWithEarlier_cons, List.flatten_cons, List.append_nil, List.append_assoc]
    simp only [List.append_assoc, List.singleton_append]

/-- References have the problems of the names out of scope. -/
theorem checkReferences_eq {scope : List String}
    (hscope : ∀ name, name ∈ scope ↔ registry.Imports definition.imports name) :
    checkReferences registry scope definition.nodes = definition.referenceProblems registry := by
  have hout (name : String) :
      (!scope.contains name) = decide (¬ registry.Imports definition.imports name) := by
    simp [← hscope]
  unfold checkReferences Definition.referenceProblems
  simp only [hout, notInScope_eq]

/-- Variables have the problems of those whose symbols came before, which are kept in mind. -/
theorem collectHyperparameters_problems (model : String) (declared : List Hyperparameter) :
    (collectHyperparameters model declared).2 = (mapWithEarlier (fun earlier h =>
      if h.symbol ∈ earlier.map (·.symbol)
        then [.duplicateOverride model h.symbol "model variables" none] else [])
      declared).flatten ∧
    ∀ symbol, (collectHyperparameters model declared).1.contains symbol = true ↔
      symbol ∈ declared.map (·.symbol) := by
  induction declared using List.reverseRecOn with
  | nil => exact ⟨rfl, fun symbol => by simp [collectHyperparameters, Dictionary.contains_iff]⟩
  | append_singleton declared last ih =>
    obtain ⟨herrors, hknown⟩ := ih
    rw [collectHyperparameters_concat, mapWithEarlier_append, mapWithEarlier_cons,
      List.flatten_append, List.flatten_cons, List.append_nil, ← herrors]
    by_cases hmem : last.symbol ∈ declared.map (·.symbol)
    · rw [if_pos ((hknown _).mpr hmem), if_pos hmem]
      refine ⟨rfl, fun symbol => ?_⟩
      rw [hknown, List.map_append, List.mem_append, or_iff_left_of_imp]
      exact fun hsymbol => List.mem_singleton.mp hsymbol ▸ hmem
    · rw [if_neg (fun h => hmem ((hknown _).mp h)), if_neg hmem]
      refine ⟨(List.append_nil _).symm, fun symbol => ?_⟩
      have hadded : ((collectHyperparameters model declared).1.insert last.symbol last).contains
          symbol = true ↔ symbol = last.symbol ∨
            (collectHyperparameters model declared).1.contains symbol = true := by
        simp only [Dictionary.contains_iff, Dictionary.get?_insert]
        split <;> simp [*]
      rw [hadded, hknown, List.map_append, List.mem_append, or_comm, List.map_singleton,
        List.mem_singleton]

/-- With a registry whose groups have registered members the problems of a definition are reported,
and without problems it is resolved. -/
theorem Registry.Closed.resolve_problems (hclosed : registry.Closed)
    (hvalues : ∀ block ∈ definition.typeOverrides, ∀ a ∈ block.assignments,
      a.value.isAtomic = true) (warn : Bool) :
    definition.problems registry = [] ∧
        (∃ result, resolve registry warn definition = .ok result) ∨
      definition.problems registry ≠ [] ∧
        resolve registry warn definition = .error (.problems (definition.problems registry)) := by
  obtain ⟨-, hscope⟩ := resolveImports_eq registry definition.imports
  obtain ⟨layers, hlayers, -⟩ := returns_lookups (hclosed.resolveImports definition.imports).1
  have hlayer (name : String) :
      (Dictionary.ofList layers).get? name = definition.layer? registry name := by
    ext layer
    rw [get?_of_lookups hlayers, hscope, Definition.layer?]
    split <;> simp [*]
  have hstart : OverrideState.Tracks (.ofList layers) [] (.start (.ofList layers)) :=
    fun _ _ _ parameter => by simp [OverrideState.start, assignmentsFor, LayerType.named]
  have hblocks : Returns _ (definition.typeOverrides.foldlM
      (OverrideState.applyBlock registry (.ofList layers)) (.start (.ofList layers))) :=
    hstart.applyBlocks hlayer hvalues
  obtain ⟨overrides, hoverrides, herrors⟩ := hblocks
  refine resolve_of_overrides hlayers hoverrides ?_ warn
  rw [snd_resolveImports, checkReferences_eq hscope, herrors,
    (collectHyperparameters_problems definition.name definition.hyperparameters).1]
  rfl

/-- A compilation that ends with problems of resolution has no warnings. -/
theorem compileDefinition_of_problems {options : Options} {errors : List Diagnostic}
    (h : resolve registry options.warnUnusedImports definition = .error (.problems errors)) :
    ∃ log, compileDefinition options registry definition =
      .ok ⟨{ errors, success := false }, log⟩ := by
  unfold compileDefinition buildGraph
  rw [h]
  exact ⟨_, rfl⟩

/-- **Every problem of a definition is reported once.** Let a registry be built by any run of
operations, and let the override blocks assign values that a parameter may have. If the definition
has problems, resolution fails with exactly these, in their order; otherwise it succeeds. There are
warnings only if it succeeds: a compilation that fails to resolve the definition has its problems
and no warnings. -/
theorem resolution_problems (operations : List Registry.Operation) (definition : Definition)
    (hvalues : ∀ block ∈ definition.typeOverrides, ∀ a ∈ block.assignments,
      a.value.isAtomic = true) :
    (∀ warn,
      ((∃ errors, resolve (Registry.empty.run operations) warn definition =
          .error (.problems errors)) ↔
        definition.problems (Registry.empty.run operations) ≠ []) ∧
      (definition.problems (Registry.empty.run operations) ≠ [] →
        resolve (Registry.empty.run operations) warn definition =
          .error (.problems (definition.problems (Registry.empty.run operations)))) ∧
      (definition.problems (Registry.empty.run operations) = [] →
        ∃ result, resolve (Registry.empty.run operations) warn definition = .ok result)) ∧
    ∀ options, definition.problems (Registry.empty.run operations) ≠ [] →
      ∃ log, compileDefinition options (Registry.empty.run operations) definition =
        .ok ⟨{ errors := definition.problems (Registry.empty.run operations), success := false },
          log⟩ := by
  have hcases := (Registry.closed_empty.run operations).resolve_problems hvalues
  generalize Registry.empty.run operations = registry at *
  have hfails (warn : Bool) (hne : definition.problems registry ≠ []) :
      resolve registry warn definition = .error (.problems (definition.problems registry)) :=
    ((hcases warn).resolve_left fun h => hne h.1).2
  have hreturns (warn : Bool) (hnil : definition.problems registry = []) :
      ∃ result, resolve registry warn definition = .ok result :=
    ((hcases warn).resolve_right fun h => h.1 hnil).2
  refine ⟨fun warn => ⟨⟨?_, fun hne => ⟨_, hfails warn hne⟩⟩, hfails warn, hreturns warn⟩,
    fun options hne => compileDefinition_of_problems (hfails _ hne)⟩
  rintro ⟨errors, herrors⟩ hnil
  obtain ⟨result, hresult⟩ := hreturns warn hnil
  exact absurd (herrors.symm.trans hresult) nofun

/-- Two layer types and a group that one of them is a member of. -/
def photoRun : List Registry.Operation :=
  [.registerLayer blurLayer, .registerLayer { name := "Sharpen" },
    .registerGroup "Filters" ["Blur"]]

/-- A definition with problems of every kind. -/
def faultyDefinition : Definition where
  name := "Photo"
  imports := ["Filters", "Effects"]
  typeOverrides := [⟨"Blur", [⟨"r", .int 2⟩]⟩, ⟨"Sharpen", [⟨"depth", .int 1⟩]⟩,
    ⟨"Blur", [⟨"edges", .int 1⟩, ⟨"radius", .int 3⟩]⟩]
  hyperparameters := [{ symbol := "k" }, { symbol := "k" }]
  nodes := [{ index := 0, calls := [{ name := "Emboss" }] },
    { index := 1, calls := [{ name := "Blur" }, { name := "Sharpen" }] },
    { index := 2, inline := some ⟨"Inner", [{ index := 0, calls := [{ name := "Emboss" }] }]⟩ }]

/-- An import is unknown, a layer is used that is not imported and one that is unknown, a flag is
given a number, and a parameter and a variable are set twice. The layer of the input node is no
problem. -/
theorem resolution_problems_faultyDefinition :
    resolve (Registry.empty.run photoRun) true faultyDefinition = .error (.problems
      [.unresolvedImport "Effects" "not in the layer registry", .notImported "Sharpen" none,
        .valueType (some "Blur") "edges" "bool" "1" none,
        .duplicateOverride "Blur" "radius" "model-level type block" none,
        .notImported "Sharpen" (some 1),
        { Diagnostic.unknownLayer "Emboss" with node := some 2 },
        .duplicateOverride "Photo" "k" "model variables" none]) ∧
    ∃ log, compileDefinition {} (Registry.empty.run photoRun) faultyDefinition = .ok
      ⟨{ errors := faultyDefinition.problems (Registry.empty.run photoRun), success := false },
        log⟩ := by
  have hvalues : ∀ block ∈ faultyDefinition.typeOverrides, ∀ a ∈ block.assignments,
      a.value.isAtomic = true := by simp [faultyDefinition, Value.isAtomic]
  obtain ⟨hresolve, hcompile⟩ := resolution_problems photoRun faultyDefinition hvalues
  have hne : faultyDefinition.problems (Registry.empty.run photoRun) ≠ [] :=
    List.cons_ne_nil _ _
  exact ⟨(hresolve true).2.1 hne, hcompile {} hne⟩

end Shapeline
