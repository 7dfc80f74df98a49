import Shapeline.Proofs.Compilation.Redeclaration
import Shapeline.Proofs.Inference.Mapping
import Shapeline.Proofs.Inference.Symbols
import Shapeline.Proofs.Resolvable
import Shapeline.Proofs.Term.Expansion

/-!
# The order of declarations

Imports, override blocks and variables are processed one after another. As long as the variables do
not refer to each other in a cycle, their order does not matter: a program with the same imports,
and with the same blocks and variables in another order, compiles whenever the first one does, to
the same graph up to the order of its variables and of the parameters of its steps.
-/

namespace Shapeline

/-- Two models differ in the order of their variables and of their override blocks only. -/
structure ModelBlock.Reorders (block block' : ModelBlock) : Prop where
  /-- The names are equal. -/
  name : block'.name = block.name
  /-- The variables are the same, in another order. -/
  declarations : block.declarations.Perm block'.declarations
  /-- The override blocks are the same, in another order. -/
  typeBlocks : block.typeBlocks.Perm block'.typeBlocks
  /-- The node lines are equal. -/
  lines : block'.lines = block.lines

/-- Two programs import the same names, in whatever order and however often, and their models differ
in the order of declarations only. -/
structure Program.Reorders (program program' : Program) : Prop where
  /-- The same names are imported. -/
  imports : ∀ name, name ∈ program'.imports ↔ name ∈ program.imports
  /-- The models differ in the order of declarations. -/
  model : Option.Rel ModelBlock.Reorders program.model program'.model

/-- A variable of a model has a dimension as its value that mentions a name. -/
def ModelBlock.Refers (block : ModelBlock) (key name : String) : Prop :=
  ∃ decl ∈ block.declarations, decl.key = key ∧
    ∃ value t, lowerValue none decl = .ok value ∧ value.toTerm? = some t ∧ name ∈ t.symbols

/-- The variables of a program do not refer to each other in a cycle. -/
def Program.Acyclic (program : Program) : Prop :=
  ∀ block, program.model = some block → ∀ name, ¬ Relation.TransGen block.Refers name name

/-- Two graphs are the same up to the order of their variables and of the parameters of their
steps. -/
structure Graph.Same (g g' : Graph) : Prop where
  /-- The names are equal. -/
  name : g'.name = g.name
  /-- The nodes are the same, with the same parameters as mappings. -/
  nodes : List.Forall₂ GraphNode.Same g.nodes g'.nodes
  /-- The variables are the same, in another order. -/
  hyperparameters : g.hyperparameters.Perm g'.hyperparameters
  /-- The symbols of the input are equal. -/
  inputSymbols : g'.inputSymbols = g.inputSymbols

/-- Two definitions import the same names and differ in the order of variables and override blocks
only. -/
structure Definition.Reorders (d d' : Definition) : Prop where
  /-- The names are equal. -/
  name : d'.name = d.name
  /-- The same names are imported. -/
  imports : ∀ name, name ∈ d'.imports ↔ name ∈ d.imports
  /-- The override blocks are the same, in another order. -/
  typeOverrides : d.typeOverrides.Perm d'.typeOverrides
  /-- The variables are the same, in another order. -/
  hyperparameters : d.hyperparameters.Perm d'.hyperparameters
  /-- The nodes are equal. -/
  nodes : d'.nodes = d.nodes

variable {options : Options} {registry : Registry} {program program' : Program}
  {block block' : ModelBlock} {definition definition' : Definition} {model model' : ResolvedModel}
  {plan : List PlannedNode} {bindings : Dictionary Term} {nodes nodes' : List GraphNode}
  {n n' : GraphNode} {s s' : LayerStep} {name : String}

/-- Which of two models comes first does not matter. -/
theorem ModelBlock.Reorders.symm (h : block.Reorders block') : block'.Reorders block :=
  ⟨h.name.symm, h.declarations.symm, h.typeBlocks.symm, h.lines.symm⟩

/-- Which of two programs comes first does not matter. -/
theorem Program.Reorders.symm (h : program.Reorders program') : program'.Reorders program := by
  refine ⟨fun name => (h.imports name).symm, ?_⟩
  have hmodel := h.model
  generalize program.model = first at hmodel ⊢
  generalize program'.model = second at hmodel ⊢
  cases hmodel with
  | none => exact .none
  | some hblock => exact .some hblock.symm

/-- The model of a program has its counterpart in a program in another order. -/
theorem Program.Reorders.exists_model (h : program.Reorders program')
    (hblock : program.model = some block) :
    ∃ block', program'.model = some block' ∧ block.Reorders block' := by
  have hmodel := h.model
  rw [hblock] at hmodel
  generalize program'.model = found at hmodel ⊢
  cases hmodel with
  | some hreorders => exact ⟨_, rfl, hreorders⟩

/-- Variables in another order refer to each other as before. -/
theorem Program.Acyclic.of_reorders (hacyclic : program.Acyclic) (h : program.Reorders program') :
    program'.Acyclic := by
  intro block' hblock' name hcycle
  obtain ⟨block, hblock, hreorders⟩ := h.symm.exists_model hblock'
  refine hacyclic block hblock name (Relation.TransGen.mono (fun a b hab => ?_) _ _ hcycle)
  obtain ⟨decl, hdecl, hrefers⟩ := hab
  exact ⟨decl, hreorders.declarations.mem_iff.mp hdecl, hrefers⟩

/-- Variables whose references all lead down do not refer to each other in a cycle. -/
theorem Program.Acyclic.of_rank {rank : String → ℕ}
    (h : ∀ block ∈ program.model, ∀ decl ∈ block.declarations,
      ∀ value ∈ (lowerValue none decl).toOption, ∀ t ∈ value.toTerm?, ∀ name ∈ t.symbols,
        rank name < rank decl.key) : program.Acyclic := by
  intro block hblock
  have hdown (a b : String) (hab : block.Refers a b) : rank b < rank a := by
    obtain ⟨decl, hdecl, rfl, value, t, hvalue, ht, hmem⟩ := hab
    exact h block hblock decl hdecl value (toOption_eq_some_iff.mpr hvalue) t ht b hmem
  exact not_transGen_of_rank hdown

/-- A program in another order is lowered to a definition in another order. -/
theorem Program.Reorders.lowerProgram (h : program.Reorders program')
    (hlower : Shapeline.lowerProgram program = .ok definition) :
    ∃ definition', Shapeline.lowerProgram program' = .ok definition' ∧
      definition.Reorders definition' := by
  obtain ⟨block, hyperparameters, typeOverrides, specs, hblock, hvariables, hblocks, hspecs, rfl⟩ :=
    lowerProgram_eq_ok_iff.mp hlower
  obtain ⟨block', hblock', hreorders⟩ := h.exists_model hblock
  obtain ⟨hyperparameters', hvariables', hvariablesPerm⟩ :=
    List.perm_comp_forall₂ hreorders.declarations.symm (collectEach_eq_nil_iff.mp hvariables)
  obtain ⟨typeOverrides', hblocks', hblocksPerm⟩ :=
    List.perm_comp_forall₂ hreorders.typeBlocks.symm (collectAll_eq_nil_iff.mp hblocks)
  refine ⟨⟨block'.name, program'.imports, typeOverrides', hyperparameters', specs⟩,
    lowerProgram_eq_ok_iff.mpr ⟨block', hyperparameters', typeOverrides', specs, hblock',
      collectEach_eq_nil_iff.mpr hvariables', collectAll_eq_nil_iff.mpr hblocks', ?_, rfl⟩,
    ⟨hreorders.name, h.imports, hblocksPerm.symm, hvariablesPerm.symm, rfl⟩⟩
  rw [hreorders.lines]
  exact hspecs

namespace Definition.Reorders

/-- The same layer types are imported. -/
theorem imports_iff (h : definition.Reorders definition') :
    registry.Imports definition'.imports name ↔ registry.Imports definition.imports name :=
  ⟨fun himports => himports.congr fun other => (h.imports other).mp,
    fun himports => himports.congr fun other => (h.imports other).mpr⟩

/-- The assignments for a layer type are the same, in another order. -/
theorem assignmentsFor (h : definition.Reorders definition') (name : String) :
    (Shapeline.assignmentsFor definition.typeOverrides name).Perm
      (Shapeline.assignmentsFor definition'.typeOverrides name) :=
  (h.typeOverrides.filter _).flatMap_right _

/-- A definition in another order has no problems if the first one has none. -/
theorem resolvable (h : definition.Reorders definition') (hd : definition.Resolvable registry) :
    definition'.Resolvable registry where
  known name hname := hd.known name ((h.imports name).mp hname)
  registered name himports := hd.registered name (h.imports_iff.mp himports)
  blocks block hblock := h.imports_iff.mpr (hd.blocks block (h.typeOverrides.mem_iff.mpr hblock))
  accepted name layer himports hlayer := by
    obtain ⟨entries, haccepts⟩ := hd.accepted name layer (h.imports_iff.mp himports) hlayer
    obtain ⟨entries', -, haccepts'⟩ := haccepts.perm (h.assignmentsFor name)
    exact ⟨entries', haccepts'⟩
  references n hn hindex name hname :=
    h.imports_iff.mpr (hd.references n (h.nodes ▸ hn) hindex name hname)
  symbols := (h.hyperparameters.map _).nodup_iff.mp hd.symbols

/-- The resolved models have the same layer types, with the same parameters as mappings. -/
theorem matchesAt (h : model.definition.Reorders model'.definition) (hmodel : model.Binds registry)
    (hmodel' : model'.Binds registry) (name : String) :
    model.MatchesAt Dictionary.Same model' name := by
  refine hmodel.matchesAt hmodel' h.imports_iff
    fun layer entries entries' _ haccepts haccepts' => ?_
  obtain ⟨reordered, hperm, hreordered⟩ := haccepts.perm (h.assignmentsFor name)
  obtain rfl := hreordered.unique haccepts'
  exact (Dictionary.Same.refl _).insertAll_perm hperm haccepts.distinct

/-- The resolved models have the same variables, in another order. -/
theorem hyperparameters_perm (h : model.definition.Reorders model'.definition)
    (hmodel : model.Binds registry) (hmodel' : model'.Binds registry) :
    model.hyperparameters.entries.Perm model'.hyperparameters.entries := by
  rw [hmodel.hyperparameters, hmodel'.hyperparameters]
  exact h.hyperparameters.map _

end Definition.Reorders

/-- The terms that the variables of a resolved model stand for do not refer to each other in a cycle
if the variables of the program do not. -/
theorem Compiles.acyclic
    (h : Compiles options registry program definition model plan bindings nodes)
    (hacyclic : program.Acyclic) :
    (model.hyperparameterValues.filterMap fun _ value => value.toTerm?).Acyclic := by
  obtain ⟨block, hyperparameters, _, _, hblock, hvariables, -, -, rfl⟩ :=
    lowerProgram_eq_ok_iff.mp h.lowered
  obtain ⟨_, hresolved⟩ := h.resolved
  have hentries := (binds_of_resolve hresolved).hyperparameters
  rw [(resolve_eq_ok hresolved).1] at hentries
  intro name hcycle
  refine hacyclic block hblock name (Relation.TransGen.mono (fun a b hab => ?_) _ _ hcycle)
  obtain ⟨t, ht, hmem, -⟩ := hab
  rw [Dictionary.get?_filterMap] at ht
  obtain ⟨value, hvalue, ht⟩ := Option.bind_eq_some_iff.mp ht
  obtain ⟨variable', hvariable, rfl⟩ := ResolvedModel.get?_hyperparameterValues hvalue
  have hentry := Dictionary.mem_entries_iff.mpr hvariable
  rw [hentries] at hentry
  obtain ⟨found, hfound, heq⟩ := List.mem_map.mp hentry
  obtain ⟨rfl, rfl⟩ := Prod.mk.inj heq
  obtain ⟨decl, hdecl, hlower⟩ := exists_of_mem_right (collectEach_eq_nil_iff.mp hvariables) hfound
  obtain ⟨value, hlowers, hlower⟩ := bind_eq_ok_iff.mp hlower
  obtain rfl := pure_eq_ok_iff.mp hlower
  exact ⟨decl, hdecl, rfl, value, t, mapError_eq_ok_iff.mp hlowers, ht, hmem⟩

/-- Steps that are the same resemble each other. -/
theorem LayerStep.Same.resembles (h : s.Same s') : s.Resembles s' := by
  refine ⟨?_, ?_, ?_, fun layer _ name _ => h.params name⟩ <;> rw [h.rest]

/-- Nodes that are the same resemble each other. -/
theorem GraphNode.Same.resembles (h : n.Same n') : n.Resembles n' := by
  refine ⟨?_, h.steps.imp fun _ _ hs => hs.resembles, ?_, ?_⟩ <;> rw [h.rest]

/-- Nodes that are the same mention the same symbols. -/
theorem GraphNode.Same.mem_symbols (h : n.Same n') (hname : name ∈ n'.symbols) :
    name ∈ n.symbols := by
  have hinferred : n'.inferred = n.inferred := by rw [h.rest]
  have houtput : n'.output = n.output := by rw [h.rest]
  rw [GraphNode.mem_symbols, hinferred, houtput] at hname
  rw [GraphNode.mem_symbols]
  refine hname.imp_right (Or.imp_right ?_)
  rintro ⟨s', hs', parameter, t, ht, hmem⟩
  obtain ⟨s, hs, hsame⟩ := exists_of_mem_right h.steps hs'
  rw [Parameters.term?_congr (hsame.params parameter)] at ht
  exact ⟨s, hs, parameter, t, ht, hmem⟩

/-- The same nodes make the same graph, and one without diagnostics if the first has none. -/
theorem Definition.Reorders.assembleGraph (h : model.definition.Reorders model'.definition)
    (hvariables : model.hyperparameters.entries.Perm model'.hyperparameters.entries)
    (hnodes : List.Forall₂ GraphNode.Same nodes nodes')
    (hchecked : (Shapeline.assembleGraph model nodes).diagnose = .ok []) :
    (Shapeline.assembleGraph model nodes).Same (Shapeline.assembleGraph model' nodes') ∧
      (Shapeline.assembleGraph model' nodes').diagnose = .ok [] := by
  have hsame : (Shapeline.assembleGraph model nodes).Same (Shapeline.assembleGraph model' nodes') :=
    ⟨h.name, hnodes, hvariables.map _, inputSymbols_eq_of_same h.nodes (.of_perm hvariables)⟩
  have hdeclared : ∀ name ∈ (Shapeline.assembleGraph model nodes).declaredSymbols,
      name ∈ (Shapeline.assembleGraph model' nodes').declaredSymbols := by
    intro name hname
    unfold Graph.declaredSymbols at hname ⊢
    rw [Names.mem_union, (hsame.hyperparameters.map _).mem_iff] at hname
    rw [Names.mem_union, hsame.inputSymbols]
    exact hname
  refine ⟨hsame, checkNodes_mono (checkNodes_of_resembles hchecked
    (hnodes.imp fun _ _ hn => hn.resembles) .none fun n' hn' name hname => ?_) hdeclared⟩
  obtain ⟨n, hn, hsame⟩ := exists_of_mem_right hnodes hn'
  exact declared_of_checkNodes hchecked hn (hsame.mem_symbols hname)

/-- A program in another order goes through all stages, to the same graph. -/
theorem Compiles.reorder
    (h : Compiles options registry program definition model plan bindings nodes)
    (hacyclic : program.Acyclic) (hreorders : program.Reorders program') :
    ∃ definition' model' plan' bindings' nodes',
      Compiles options registry program' definition' model' plan' bindings' nodes' ∧
        (assembleGraph model nodes).Same (assembleGraph model' nodes') := by
  obtain ⟨definition', hlowered, hdefinition⟩ := hreorders.lowerProgram h.lowered
  obtain ⟨warnings, hresolved⟩ := h.resolved
  obtain ⟨⟨model', warnings'⟩, hresolved'⟩ :=
    exists_resolve options.warnUnusedImports
      (hdefinition.resolvable (resolvable_of_resolve hresolved))
  have hbinds := binds_of_resolve hresolved
  have hbinds' := binds_of_resolve hresolved'
  have hmodels : model.definition.Reorders model'.definition := by
    rw [(resolve_eq_ok hresolved).1, (resolve_eq_ok hresolved').1]
    exact hdefinition
  obtain ⟨plan', hplanned, hlike⟩ := planModel_like (fun _ _ name value hE => hE.insert name value)
    hmodels.nodes (fun _ _ call _ => hmodels.matchesAt hbinds hbinds' call.name) h.planned
  have hvariables := hmodels.hyperparameters_perm hbinds hbinds'
  have hvalues : model.hyperparameterValues.Same model'.hyperparameterValues :=
    (Dictionary.Same.of_perm hvariables).filterMap _
  obtain ⟨bindings', hbound, hbindings⟩ :=
    (h.acyclic hacyclic).resolveReferences_same (hvalues.filterMap _) h.bound
  have hsettings : InferenceSettings.Same ⟨options.trustDeclaredShapes, bindings⟩
      ⟨options.trustDeclaredShapes, bindings'⟩ := ⟨rfl, hbindings⟩
  obtain ⟨⟨nodes', _⟩, hinferred, hnodes, rfl⟩ := followedBy_infer hsettings hlike _ h.inferred
  obtain ⟨hgraph, hchecked⟩ := hmodels.assembleGraph hvariables hnodes h.checked
  exact ⟨definition', model', plan', bindings', nodes',
    ⟨hlowered, ⟨warnings', hresolved'⟩, hplanned, hbound, hinferred, hchecked⟩, hgraph⟩

/-- **The order of declarations does not matter.** Take a program whose variables do not refer to
each other in a cycle and another one that imports the same names, in any order and any number of
times, and has the same override blocks and the same variables in any order. With one registry and
the same options the second compiles exactly if the first does, and then to the same graph: equal in
all but the order of the parameters of its steps and that of its variables. -/
theorem reordered_compile_same (options : Options) (registry : Registry)
    (hacyclic : program.Acyclic) (h : program.Reorders program') :
    ((∃ graph, compileGraph options registry program = .ok graph) ↔
      ∃ graph', compileGraph options registry program' = .ok graph') ∧
    ∀ graph graph', compileGraph options registry program = .ok graph →
      compileGraph options registry program' = .ok graph' → graph.Same graph' := by
  have hforward {first second : Program} {graph : Graph} (hacyclic : first.Acyclic)
      (h : first.Reorders second) (hgraph : compileGraph options registry first = .ok graph) :
      ∃ graph', compileGraph options registry second = .ok graph' ∧ graph.Same graph' := by
    obtain ⟨_, _, _, _, _, hcompiles, rfl⟩ := compiles_of_compileGraph hgraph
    obtain ⟨_, _, _, _, _, hcompiles', hsame⟩ := hcompiles.reorder hacyclic h
    exact ⟨_, hcompiles'.compileGraph, hsame⟩
  refine ⟨⟨?_, ?_⟩, fun graph graph' hgraph hgraph' => ?_⟩
  · rintro ⟨graph, hgraph⟩
    obtain ⟨graph', hgraph', -⟩ := hforward hacyclic h hgraph
    exact ⟨graph', hgraph'⟩
  · rintro ⟨graph', hgraph'⟩
    obtain ⟨graph, hgraph, -⟩ := hforward (hacyclic.of_reorders h) h.symm hgraph'
    exact ⟨graph, hgraph⟩
  · obtain ⟨found, hfound, hsame⟩ := hforward hacyclic h hgraph
    obtain rfl := Except.ok.inj (hgraph'.symm.trans hfound)
    exact hsame

/-- An encoder whose imports, variables and override blocks can be listed in any order. -/
def encoderProgram (imports : List String) (declarations : List VariableDecl)
    (typeBlocks : List TypeBlock) : Program where
  imports := imports
  model := some {
    name := "Encoder"
    declarations := declarations
    typeBlocks := typeBlocks
    lines := [
      { index := 0, shape := some [.literal (.int 3), .identifier "H", .identifier "W"] },
      { index := 1
        calls := [{ name := "Conv2d" }, { name := "ReLU" }]
        shape := some [.literal (.int 16), .identifier "H", .identifier "W"] },
      { index := 2, calls := [{ name := "MaxPool2d" }] }] }

/-- The number of channels that comes in. -/
def narrowChannels : VariableDecl where
  description := "narrow"
  shortName := some "C"
  value := some (.literal (.int 8))

/-- The number of channels that goes out, given by the one that comes in. -/
def wideChannels : VariableDecl where
  description := "wide"
  shortName := some "D"
  value := some (.binary "*" (.literal (.int 2)) (.identifier "C"))

/-- The encoder compiles with its declarations in one order and in another, to the same graph. -/
theorem encoderProgram_same :
    let first := encoderProgram ["Conv2d", "ReLU", "Pooling"] [narrowChannels, wideChannels]
      [settingBlock "Conv2d" "Co" (.identifier "D"),
        settingBlock "MaxPool2d" "K" (.literal (.int 3)),
        settingBlock "Conv2d" "K" (.literal (.int 5))]
    let second := encoderProgram ["Pooling", "ReLU", "Conv2d", "ReLU"]
      [wideChannels, narrowChannels]
      [settingBlock "Conv2d" "K" (.literal (.int 5)),
        settingBlock "Conv2d" "Co" (.identifier "D"),
        settingBlock "MaxPool2d" "K" (.literal (.int 3))]
    first.Acyclic ∧ first.Reorders second ∧
      ∃ graph graph', compileGraph {} Standard.registry first = .ok graph ∧
        compileGraph {} Standard.registry second = .ok graph' ∧ graph.Same graph' := by
  intro first second
  have hacyclic : first.Acyclic :=
    .of_rank (show _ by decide +kernel : ∀ block ∈ first.model, ∀ decl ∈ block.declarations,
      ∀ value ∈ (lowerValue none decl).toOption, ∀ t ∈ value.toTerm?, ∀ name ∈ t.symbols,
        (if name = "C" then 0 else 1) < if decl.key = "C" then 0 else 1)
  have hreorders : first.Reorders second := by
    have himports (name : String) : name ∈ second.imports ↔ name ∈ first.imports := by
      simp only [first, second, encoderProgram, List.mem_cons, List.not_mem_nil, or_false]
      tauto
    have hblocks {a b c : TypeBlock} : [a, b, c].Perm [c, a, b] := by
      have hrotate : ([a, b] ++ [c]).Perm ([c] ++ [a, b]) := List.perm_append_comm
      exact hrotate
    exact ⟨himports, .some ⟨rfl, .swap .., hblocks, rfl⟩⟩
  have hcompiles : (compileGraph {} Standard.registry first).toOption.isSome = true := by
    decide +kernel
  obtain ⟨graph, hgraph⟩ := exists_eq_ok_iff.mpr hcompiles
  obtain ⟨hiff, hsame⟩ := reordered_compile_same {} Standard.registry hacyclic hreorders
  obtain ⟨graph', hgraph'⟩ := hiff.mp ⟨graph, hgraph⟩
  exact ⟨hacyclic, hreorders, graph, graph', hgraph, hgraph', hsame graph graph' hgraph hgraph'⟩

end Shapeline
