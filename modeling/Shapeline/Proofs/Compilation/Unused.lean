import Shapeline.Proofs.Compilation.Redeclaration
import Shapeline.Proofs.Inference.Trust
import Shapeline.Proofs.Replanning
import Shapeline.Proofs.Reported.Lowering
import Shapeline.Proofs.Resolvable

/-!
# Leaving out what is not used

Resolution warns of imports of which no node uses a layer type and of override blocks for layer
types that no node uses. Both can be left out together: what the nodes use stays imported, the
blocks that stay are for layer types that stay, and nothing that is left is unused. So the program
without them compiles to the same graph, and neither warning is given again.
-/

namespace Shapeline

/-- Whether one of several warnings has a code and names an import or a layer type. -/
def warns (warnings : List Warning) (code : WarningCode) (name : String) : Bool :=
  warnings.any fun w => w.code = code && w.layer = some name

/-- A program without the imports and the override blocks that warnings report as unused. -/
def Program.withoutUnused (program : Program) (warnings : List Warning) : Program where
  imports := program.imports.filter (!warns warnings .unusedImport ·)
  model := program.model.map fun block =>
    { block with typeBlocks := block.typeBlocks.filter (!warns warnings .unusedOverrides ·.name) }

/-- An import brings a layer type into scope that a node uses. -/
def Definition.usesImport (registry : Registry) (d : Definition) (name : String) : Bool :=
  ((registry.members? name).getD []).any d.referencedLayers.contains

/-- A definition without the imports and the override blocks that no node uses. -/
def Definition.withoutUnused (registry : Registry) (d : Definition) : Definition :=
  { d with
    imports := d.imports.filter (d.usesImport registry)
    typeOverrides := d.typeOverrides.filter (d.referencedLayers.contains ·.layer) }

variable {options : Options} {registry : Registry} {program : Program} {definition : Definition}
  {model model' : ResolvedModel} {plan : List PlannedNode} {bindings : Dictionary Term}
  {nodes : List GraphNode} {warnings trusted : List Warning} {name : String} {warn : Bool}

/-- Inference warns of trusted shapes only. -/
theorem code_of_infer {trust : Bool} {w : Warning}
    (hw : w ∈ (infer ⟨trust, bindings⟩ plan).report.warnings) : w.code = .trustedShape := by
  have hrelaxed : (infer ⟨false, bindings⟩ plan).RelaxedTo (infer ⟨true, bindings⟩ plan) :=
    relaxedTo_infer
  have hreport := hrelaxed.report
  cases trust with
  | false =>
    rw [hreport.silent] at hw
    cases hw
  | true =>
    obtain ⟨d, -, htrusted⟩ := exists_of_mem_right hreport.warnings hw
    cases htrusted
    rfl

/-- A name has a use in the nodes if a node other than the input uses it. -/
theorem Definition.mem_referencedLayers : name ∈ definition.referencedLayers ↔
    ∃ n ∈ definition.nodes, n.index ≠ 0 ∧ name ∈ n.layerNames := by
  unfold referencedLayers
  constructor
  · intro h
    rcases mem_of_mem_foldl_appendNew h with h | h
    · cases h
    · obtain ⟨n, hn, hname⟩ := List.mem_flatMap.mp h
      obtain ⟨hn, hindex⟩ := List.mem_filter.mp hn
      exact ⟨n, hn, by simpa using hindex, hname⟩
  · rintro ⟨n, hn, hindex, hname⟩
    refine mem_foldl_appendNew (Or.inr (List.mem_flatMap.mpr ⟨n, ?_, hname⟩))
    exact List.mem_filter.mpr ⟨hn, by simpa using hindex⟩

/-- Warnings of one code about some items of a list name those items. -/
theorem warns_map_filter_iff {α : Type} {items : List α} {p : α → Bool} {warning : α → Warning}
    {subject : α → String} {code given : WarningCode}
    (hcode : ∀ item, (warning item).code = given)
    (hlayer : ∀ item, (warning item).layer = some (subject item)) :
    warns ((items.filter p).map warning) code name = true ↔
      given = code ∧ ∃ item ∈ items, p item = true ∧ subject item = name := by
  simp only [warns, List.any_eq_true, List.mem_map, List.mem_filter, Bool.and_eq_true,
    decide_eq_true_eq]
  constructor
  · rintro ⟨_, ⟨item, ⟨hitem, hp⟩, rfl⟩, hgiven, hname⟩
    exact ⟨(hcode item).symm.trans hgiven, item, hitem, hp,
      Option.some.inj ((hlayer item).symm.trans hname)⟩
  · rintro ⟨rfl, item, hitem, hp, rfl⟩
    exact ⟨_, ⟨item, ⟨hitem, hp⟩, rfl⟩, hcode item, hlayer item⟩

/-- Of the imports and the override blocks of a definition exactly those are warned of that no node
uses. -/
theorem warns_of_resolve (h : resolve registry true definition = .ok (model, warnings))
    (htrusted : ∀ w ∈ trusted, w.code = .trustedShape) :
    (∀ name ∈ definition.imports,
      (!warns (warnings ++ trusted) .unusedImport name) = definition.usesImport registry name) ∧
    ∀ block ∈ definition.typeOverrides,
      (!warns (warnings ++ trusted) .unusedOverrides block.layer) =
        definition.referencedLayers.contains block.layer := by
  obtain ⟨_, _, -, -, -, -, -, -, -, rfl⟩ := resolve_eq_ok_iff.mp h
  have hsplit (code : WarningCode) (hcode : code ≠ .trustedShape) (name : String) :
      warns (unusedImports registry definition.referencedLayers definition.imports ++
          unusedOverrides definition.referencedLayers definition.typeOverrides ++ trusted)
          code name = true ↔
      (.unusedImport = code ∧
        ∃ other ∈ definition.imports, (!definition.usesImport registry other) = true ∧
          other = name) ∨
      (.unusedOverrides = code ∧
        ∃ block ∈ definition.typeOverrides,
          (!definition.referencedLayers.contains block.layer) = true ∧ block.layer = name) := by
    have hother : warns trusted code name = false := by
      refine List.any_eq_false.mpr fun w hw => ?_
      rw [htrusted w hw]
      simp [hcode.symm]
    have happend (ws ws' : List Warning) :
        warns (ws ++ ws') code name = (warns ws code name || warns ws' code name) := List.any_append
    rw [happend, happend, hother, Bool.or_false, Bool.or_eq_true]
    exact or_congr (warns_map_filter_iff (fun _ => rfl) fun _ => rfl)
      (warns_map_filter_iff (fun _ => rfl) fun _ => rfl)
  refine ⟨fun name hname => ?_, fun block hblock => ?_⟩
  · rw [Bool.not_eq_eq_eq_not, Bool.eq_iff_iff, if_pos rfl, hsplit .unusedImport (by decide)]
    constructor
    · rintro (⟨-, _, -, hunused, rfl⟩ | ⟨hcode, -⟩)
      · exact hunused
      · cases hcode
    · exact fun hunused => Or.inl ⟨rfl, name, hname, hunused, rfl⟩
  · rw [Bool.not_eq_eq_eq_not, Bool.eq_iff_iff, if_pos rfl,
      hsplit .unusedOverrides (by decide)]
    constructor
    · rintro (⟨hcode, -⟩ | ⟨-, other, -, hunused, heq⟩)
      · cases hcode
      · rwa [heq] at hunused
    · exact fun hunused => Or.inr ⟨rfl, block, hblock, hunused, rfl⟩

/-- Nothing is warned of in a definition without what is unused. -/
theorem warnings_eq_nil_of_resolve
    (h : resolve registry warn (definition.withoutUnused registry) = .ok (model, warnings)) :
    warnings = [] := by
  obtain ⟨_, _, -, -, -, -, -, -, -, rfl⟩ := resolve_eq_ok_iff.mp h
  have hreferenced : (definition.withoutUnused registry).referencedLayers =
      definition.referencedLayers := rfl
  have himports : unusedImports registry definition.referencedLayers
      (definition.withoutUnused registry).imports = [] := by
    refine List.map_eq_nil_iff.mpr (List.filter_eq_nil_iff.mpr fun name hname => ?_)
    have hused : definition.usesImport registry name = true := (List.mem_filter.mp hname).2
    rw [Definition.usesImport] at hused
    rw [hused]
    exact nofun
  have hblocks : unusedOverrides definition.referencedLayers
      (definition.withoutUnused registry).typeOverrides = [] := by
    refine List.map_eq_nil_iff.mpr (List.filter_eq_nil_iff.mpr fun block hblock => ?_)
    rw [(List.mem_filter.mp hblock).2]
    exact nofun
  rw [hreferenced, himports, hblocks, ite_self, List.append_nil]

/-- A program is lowered without its unused imports and override blocks. -/
theorem lowerProgram_withoutUnused (h : lowerProgram program = .ok definition)
    (himports : ∀ name ∈ definition.imports,
      (!warns warnings .unusedImport name) = definition.usesImport registry name)
    (hblocks : ∀ block ∈ definition.typeOverrides,
      (!warns warnings .unusedOverrides block.layer) =
        definition.referencedLayers.contains block.layer) :
    lowerProgram (program.withoutUnused warnings) = .ok (definition.withoutUnused registry) := by
  obtain ⟨block, hyperparameters, typeOverrides, specs, hblock, hvariables, hlower, hspecs, rfl⟩ :=
    lowerProgram_eq_ok_iff.mp h
  have hmodel : (program.withoutUnused warnings).model = some { block with
      typeBlocks := block.typeBlocks.filter (!warns warnings .unusedOverrides ·.name) } := by
    rw [Program.withoutUnused, hblock]
    rfl
  have hkept := List.rel_filter (p := fun block => !warns warnings .unusedOverrides block.name)
    (q := fun block => !warns warnings .unusedOverrides block.layer) (fun a b hab => by
      obtain ⟨_, _, hab⟩ := bind_eq_ok_iff.mp hab
      obtain ⟨rfl, -⟩ := Prod.mk.inj (pure_eq_ok_iff.mp hab)
      rfl) (collectAll_eq_nil_iff.mp hlower)
  refine lowerProgram_eq_ok_iff.mpr ⟨_, hyperparameters, _, specs, hmodel, hvariables,
    collectAll_eq_nil_iff.mpr hkept, hspecs, ?_⟩
  unfold Definition.withoutUnused
  rw [← List.filter_congr himports, ← List.filter_congr hblocks]
  rfl

/-- What the nodes use is imported as before. -/
theorem imports_withoutUnused_iff (hname : name ∈ definition.referencedLayers) :
    registry.Imports (definition.withoutUnused registry).imports name ↔
      registry.Imports definition.imports name := by
  refine ⟨fun h => h.congr fun other hother => (List.mem_filter.mp hother).1, ?_⟩
  rintro ⟨imported, himported, members, hmembers, hmem⟩
  refine ⟨imported, List.mem_filter.mpr ⟨himported, ?_⟩, members, hmembers, hmem⟩
  unfold Definition.usesImport
  rw [hmembers]
  exact List.any_eq_true.mpr ⟨name, hmem, List.contains_iff_mem.mpr hname⟩

/-- The override blocks for layer types that the nodes use stay. -/
theorem assignmentsFor_withoutUnused (hname : name ∈ definition.referencedLayers) :
    assignmentsFor (definition.withoutUnused registry).typeOverrides name =
      assignmentsFor definition.typeOverrides name := by
  unfold assignmentsFor Definition.withoutUnused
  rw [List.filter_filter]
  congr 1
  refine List.filter_congr fun block _ => ?_
  by_cases hlayer : block.layer = name
  · simp [hlayer, hname]
  · simp [hlayer]

/-- A definition without problems has none when what is unused is left out. -/
theorem Definition.Resolvable.withoutUnused (h : definition.Resolvable registry) :
    (definition.withoutUnused registry).Resolvable registry where
  known name hname := h.known name (List.mem_filter.mp hname).1
  registered name himports :=
    h.registered name (himports.congr fun other hother => (List.mem_filter.mp hother).1)
  blocks block hblock := by
    obtain ⟨hblock, hused⟩ := List.mem_filter.mp hblock
    exact (imports_withoutUnused_iff (List.contains_iff_mem.mp hused)).mpr (h.blocks block hblock)
  accepted name layer himports hlayer := by
    by_cases hname : name ∈ definition.referencedLayers
    · rw [assignmentsFor_withoutUnused hname]
      exact h.accepted name layer ((imports_withoutUnused_iff hname).mp himports) hlayer
    · have hnone : assignmentsFor (definition.withoutUnused registry).typeOverrides name = [] := by
        unfold assignmentsFor Definition.withoutUnused
        rw [List.filter_filter, List.flatMap_eq_nil_iff]
        intro block hblock
        obtain ⟨-, hboth⟩ := List.mem_filter.mp hblock
        obtain ⟨hlayer, hused⟩ := Bool.and_eq_true_iff.mp hboth
        exact absurd (of_decide_eq_true hlayer ▸ List.contains_iff_mem.mp hused) hname
      exact ⟨[], by rw [hnone]; exact LayerType.Accepts.nil_iff.mpr rfl⟩
  references n hn hindex name hname := by
    have hused : name ∈ definition.referencedLayers :=
      mem_referencedLayers.mpr ⟨n, hn, hindex, hname⟩
    exact (imports_withoutUnused_iff hused).mpr (h.references n hn hindex name hname)
  symbols := h.symbols

/-- The layer types that the nodes use are resolved as before, with the same parameters. -/
theorem matchesAt_withoutUnused (hmodel : model.Binds registry) (hmodel' : model'.Binds registry)
    (hdefinition : model'.definition = model.definition.withoutUnused registry)
    (hname : name ∈ model.definition.referencedLayers) : model.MatchesAt Eq model' name := by
  have himports : registry.Imports model'.definition.imports name ↔
      registry.Imports model.definition.imports name := by
    rw [hdefinition]
    exact imports_withoutUnused_iff hname
  refine hmodel.matchesAt hmodel' himports fun layer entries entries' _ haccepts haccepts' => ?_
  rw [hdefinition, assignmentsFor_withoutUnused hname] at haccepts'
  rw [haccepts.unique haccepts']

/-- The nodes use the layer types that they refer to. -/
theorem mem_referencedLayers_of_uses (hlower : lowerProgram program = .ok definition)
    {n : NodeSpec} {call : CallSpec} (hn : n ∈ definition.nodes) (hcall : call ∈ n.uses) :
    call.name ∈ definition.referencedLayers := by
  have hname := NodeSpec.mem_layerNames hcall
  refine Definition.mem_referencedLayers.mpr ⟨n, hn, fun hindex => ?_, hname⟩
  obtain ⟨hcalls, hinline⟩ := layerless_lowerProgram hlower n hn hindex
  rw [NodeSpec.uses, NodeSpec.inner, hcalls, hinline] at hcall
  cases hcall

/-- A program that is lowered without what is unused goes through all stages, with the same
graph. -/
theorem Compiles.withoutUnused {program' : Program}
    (h : Compiles options registry program definition model plan bindings nodes)
    (hlower : lowerProgram program' = .ok (definition.withoutUnused registry)) :
    ∃ model', Compiles options registry program' (definition.withoutUnused registry) model' plan
        bindings nodes ∧ assembleGraph model' nodes = assembleGraph model nodes := by
  obtain ⟨warnings, hresolved⟩ := h.resolved
  obtain ⟨⟨model', warnings'⟩, hresolved'⟩ :=
    exists_resolve options.warnUnusedImports (resolvable_of_resolve hresolved).withoutUnused
  obtain ⟨hdefinition, hvariables⟩ := resolve_eq_ok hresolved
  obtain ⟨hdefinition', hvariables'⟩ := resolve_eq_ok hresolved'
  have hpruned : model'.definition = model.definition.withoutUnused registry := by
    rw [hdefinition', hdefinition]
  have hmatch : ∀ n ∈ model.definition.nodes, ∀ call ∈ n.uses,
      model.MatchesAt Eq model' call.name := by
    intro n hn call hcall
    have hused : call.name ∈ model.definition.referencedLayers := by
      rw [hdefinition] at hn ⊢
      exact mem_referencedLayers_of_uses h.lowered hn hcall
    exact matchesAt_withoutUnused (binds_of_resolve hresolved) (binds_of_resolve hresolved')
      hpruned hused
  have hnodes : model'.definition.nodes = model.definition.nodes := by rw [hpruned]; rfl
  obtain ⟨plan', hplanned, hlike⟩ :=
    planModel_like (fun _ _ name value hE => hE ▸ rfl) hnodes hmatch h.planned
  obtain rfl := eq_of_forall₂_like hlike
  have hhyperparameters : model'.hyperparameters = model.hyperparameters := by
    rw [hvariables', hvariables]
    rfl
  have hsymbols : inputSymbols model' = inputSymbols model :=
    inputSymbols_eq_of_same hnodes (hhyperparameters ▸ Dictionary.Same.refl _)
  have hgraph : assembleGraph model' nodes = assembleGraph model nodes := by
    unfold assembleGraph
    rw [hsymbols, hhyperparameters, ResolvedModel.name, ResolvedModel.name, hpruned]
    rfl
  have hbound : resolveBindings model'.hyperparameterValues = .ok bindings := by
    rw [ResolvedModel.hyperparameterValues, hhyperparameters]
    exact h.bound
  exact ⟨model', ⟨hlower, ⟨warnings', hresolved'⟩, hplanned, hbound, h.inferred,
    hgraph ▸ h.checked⟩, hgraph⟩

/-- **Acting on the warnings is safe.** If a program compiles while unused imports are warned of,
then it also compiles when every import and every override block that is reported as unused is left
out. The graph stays equal, and no import and no block is reported as unused again. -/
theorem withoutUnused_compile_same {compilation : Compilation}
    (hwarn : options.warnUnusedImports = true)
    (h : compileProgram options registry program = .ok compilation)
    (hsuccess : compilation.result.success = true) :
    ∃ compilation' graph,
      compileProgram options registry (program.withoutUnused compilation.result.warnings) =
        .ok compilation' ∧
      compilation'.result.success = true ∧
      compilation.result.graph = some graph ∧ compilation'.result.graph = some graph ∧
      ∀ w ∈ compilation'.result.warnings, w.code ≠ .unusedImport ∧ w.code ≠ .unusedOverrides := by
  obtain ⟨graph, houtcome, htell, hgraph, hwarnings⟩ := outcome_of_compileProgram h hsuccess
  have hcompiled : compileGraph options registry program = .ok graph :=
    mapError_eq_ok_iff.mpr houtcome
  obtain ⟨definition, model, plan, bindings, nodes, hcompiles, rfl⟩ :=
    compiles_of_compileGraph hcompiled
  obtain ⟨warnings, hresolved⟩ := hcompiles.resolved
  rw [(hcompiles.build hresolved).2] at hwarnings
  rw [hwarn] at hresolved
  obtain ⟨himports, hblocks⟩ := warns_of_resolve hresolved fun w => code_of_infer
  have hlower : lowerProgram (program.withoutUnused compilation.result.warnings) =
      .ok (definition.withoutUnused registry) := by
    rw [hwarnings]
    exact lowerProgram_withoutUnused hcompiles.lowered himports hblocks
  obtain ⟨model', hcompiles', hsame⟩ := hcompiles.withoutUnused hlower
  obtain ⟨warnings', hresolved'⟩ := hcompiles'.resolved
  obtain ⟨houtcome', hwarnings'⟩ := hcompiles'.build hresolved'
  obtain ⟨compilation', hcompile', hsuccess', hgraph', hreported⟩ :=
    compileProgram_of_outcome houtcome' (hsame ▸ htell)
  refine ⟨compilation', _, hcompile', hsuccess', hgraph, hsame ▸ hgraph', fun w hw => ?_⟩
  rw [hreported, hwarnings', warnings_eq_nil_of_resolve hresolved', List.nil_append] at hw
  rw [code_of_infer hw]
  decide

/-- A model that imports a group and a layer type without need, and overrides parameters of two
layer types that no node uses. The layer types of its inline model are imported with groups, one of
them also by itself. -/
def paddedProgram : Program where
  imports := ["Convolutions", "Pooling", "Activations", "Linear", "ReLU"]
  model := some {
    name := "Padded"
    typeBlocks := [
      settingBlock "MaxPool2d" "K" (.literal (.int 3)),
      settingBlock "Conv2d" "Co" (.literal (.int 8)),
      settingBlock "Conv1d" "Co" (.literal (.int 4)),
      settingBlock "Conv2d" "K" (.literal (.int 5))]
    lines := [
      { index := 0, shape := some [.literal (.int 3), .identifier "H", .identifier "W"] },
      { index := 1, model := some {
          name := "Body"
          lines := [{ index := 1, calls := [{ name := "Conv2d" }, { name := "ReLU" }] }] } }] }

/-- The model compiles without its padding, to the same graph. -/
theorem paddedProgram_same :
    ({} : Options).warnUnusedImports = true ∧
    ∃ compilation compilation' graph,
      compileProgram {} Standard.registry paddedProgram = .ok compilation ∧
      compilation.result.success = true ∧
      (paddedProgram.withoutUnused compilation.result.warnings).imports =
        ["Convolutions", "Activations", "ReLU"] ∧
      compileProgram {} Standard.registry
        (paddedProgram.withoutUnused compilation.result.warnings) = .ok compilation' ∧
      compilation'.result.success = true ∧
      compilation.result.graph = some graph ∧ compilation'.result.graph = some graph ∧
      ∀ w ∈ compilation'.result.warnings, w.code ≠ .unusedImport ∧ w.code ≠ .unusedOverrides := by
  have hrun : (compileProgram {} Standard.registry paddedProgram).toOption.any (fun compilation =>
      compilation.result.success &&
        decide ((paddedProgram.withoutUnused compilation.result.warnings).imports =
          ["Convolutions", "Activations", "ReLU"])) = true := by
    decide +kernel
  simp only [Option.any_eq_true, Bool.and_eq_true, decide_eq_true_eq, toOption_eq_some_iff] at hrun
  obtain ⟨compilation, hcompile, hsuccess, himports⟩ := hrun
  have hwarn : ({} : Options).warnUnusedImports = true := rfl
  obtain ⟨compilation', graph, hcompile', hsuccess', hgraph, hgraph', hsilent⟩ :=
    withoutUnused_compile_same hwarn hcompile hsuccess
  exact ⟨hwarn, compilation, compilation', graph, hcompile, hsuccess, himports, hcompile',
    hsuccess', hgraph, hgraph', hsilent⟩

end Shapeline
