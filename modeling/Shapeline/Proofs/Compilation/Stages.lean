import Shapeline.Proofs.Compilation.Logging
import Shapeline.Proofs.Inference.Invariants
import Shapeline.Proofs.Planning
import Shapeline.Proofs.Validation

/-!
# The stages of a compilation

A compilation that succeeds has lowered, resolved and planned the program, has inferred every node
of the plan without diagnostics and has found none in the graph. Everything that the author of the
program contributes can be written by an author, and the validated shapes mention no placeholder.
-/

namespace Shapeline

variable {options : Options} {registry : Registry} {program : Program} {definition : Definition}
  {model : ResolvedModel} {plan : List PlannedNode} {bindings : Dictionary Term}
  {nodes : List GraphNode} {graph : Graph} {errors : List Diagnostic}

/-- What the stages of a compilation up to a complete run of inference leave behind. -/
structure Assembles (options : Options) (registry : Registry) (program : Program)
    (definition : Definition) (model : ResolvedModel) (plan : List PlannedNode)
    (bindings : Dictionary Term) (errors : List Diagnostic) (nodes : List GraphNode) : Prop where
  /-- The program is lowered. -/
  lowered : lowerProgram program = .ok definition
  /-- The definition is resolved. -/
  resolved : ∃ warnings,
    resolve registry options.warnUnusedImports definition = .ok (model, warnings)
  /-- The model is planned. -/
  planned : planModel model = .ok plan
  /-- The values of the variables are expanded. -/
  bound : resolveBindings model.hyperparameterValues = .ok bindings
  /-- The nodes are inferred, and diagnostics are found on the way. -/
  inferred : (infer ⟨options.trustDeclaredShapes, bindings⟩ plan).Yields errors (nodes, true)

/-- What the stages of a compilation that succeeds leave behind. -/
structure Compiles (options : Options) (registry : Registry) (program : Program)
    (definition : Definition) (model : ResolvedModel) (plan : List PlannedNode)
    (bindings : Dictionary Term) (nodes : List GraphNode) : Prop where
  /-- The program is lowered. -/
  lowered : lowerProgram program = .ok definition
  /-- The definition is resolved. -/
  resolved : ∃ warnings,
    resolve registry options.warnUnusedImports definition = .ok (model, warnings)
  /-- The model is planned. -/
  planned : planModel model = .ok plan
  /-- The values of the variables are expanded. -/
  bound : resolveBindings model.hyperparameterValues = .ok bindings
  /-- The nodes are inferred. -/
  inferred : (infer ⟨options.trustDeclaredShapes, bindings⟩ plan).Yields [] (nodes, true)
  /-- The graph is found valid. -/
  checked : (assembleGraph model nodes).diagnose = .ok []

/-- A graph that is found valid has no diagnostics, and inference has found none. -/
theorem checkGraph_eq_ok {found : Graph} {errors : List Diagnostic}
    (h : checkGraph graph errors = .ok found) :
    found = graph ∧ errors = [] ∧ graph.diagnose = .ok [] := by
  obtain ⟨diagnostics, hdiagnose, hrest⟩ := bind_eq_ok_iff.mp h
  split at hrest
  · rename_i hnil
    obtain ⟨rfl, rfl⟩ := List.append_eq_nil_iff.mp hnil
    exact ⟨pure_eq_ok_iff.mp hrest, rfl, hdiagnose⟩
  · cases hrest

/-- A compilation that succeeds has gone through all stages. -/
theorem compiles_of_compileGraph (h : compileGraph options registry program = .ok graph) :
    ∃ definition model plan bindings nodes,
      Compiles options registry program definition model plan bindings nodes ∧
        graph = assembleGraph model nodes := by
  have h := mapError_eq_ok_iff.mp h
  unfold buildProgram at h
  dsimp only at h
  split at h
  · cases h
  rename_i definition hlowered
  unfold buildGraph at h
  dsimp only at h
  split at h
  · cases h
  rename_i model warnings hresolved
  unfold planGraph at h
  dsimp only at h
  split at h
  · cases h
  rename_i plan hplanned
  unfold inferGraph at h
  dsimp only at h
  split at h
  · cases h
  rename_i bindings hbound
  split at h
  · cases h
  · cases h
  · rename_i nodes hinferred
    obtain ⟨rfl, herrors, hchecked⟩ := checkGraph_eq_ok h
    exact ⟨definition, model, plan, bindings, nodes,
      ⟨hlowered, ⟨warnings, hresolved⟩, hplanned, hbound, ⟨hinferred, herrors⟩, hchecked⟩, rfl⟩

/-- A result of success holds the graph that was built, which can be told, and its warnings. -/
theorem outcome_of_compileProgram {compilation : Compilation}
    (h : compileProgram options registry program = .ok compilation)
    (hsuccess : compilation.result.success = true) :
    ∃ graph, (buildProgram options registry program).outcome = .ok graph ∧ graph.IsTellable ∧
      compilation.result.graph = some graph ∧
      compilation.result.warnings = (buildProgram options registry program).warnings := by
  obtain ⟨events, hconclude, htell⟩ := conclude_of_compileProgram h
  generalize compilation.result = result at hsuccess hconclude htell
  cases Attempt.concludes_of_conclude hconclude with
  | succeeded houtcome => exact ⟨_, houtcome, htell _ rfl, rfl, rfl⟩
  | failed => cases hsuccess

/-- A graph that is built and can be told becomes a result of success, with its warnings. -/
theorem compileProgram_of_outcome
    (h : (buildProgram options registry program).outcome = .ok graph) (htell : graph.IsTellable) :
    ∃ compilation, compileProgram options registry program = .ok compilation ∧
      compilation.result.success = true ∧ compilation.result.graph = some graph ∧
      compilation.result.warnings = (buildProgram options registry program).warnings := by
  obtain ⟨log, hlog⟩ := exists_compileProgram (Attempt.conclude_of_outcome h)
    fun found hfound => Option.some.inj hfound ▸ htell
  exact ⟨_, hlog, rfl, rfl, rfl⟩

/-- Inference that completes makes the input node and then one node after another. -/
theorem infers_of_infer {settings : InferenceSettings} {errors : List Diagnostic} {complete : Bool}
    (hplan : ∃ first rest shape, plan = first :: rest ∧ first.declared = some shape)
    (h : (infer settings plan).Yields errors (nodes, complete)) :
    ∃ first rest shape others, plan = first :: rest ∧ first.declared = some shape ∧
      nodes = inputNode first shape :: others ∧ Infers settings rest shape errors others := by
  obtain ⟨first, rest, shape, others, rfl, hdeclared, rfl, hothers⟩ := inferNodes_of_infer hplan h
  exact ⟨first, rest, shape, others, rfl, hdeclared, rfl, infers_of_inferNodes hothers⟩

/-- The symbols that the graph of a model declares are an author's. -/
theorem not_marked_declaredSymbols (hmodel : model.Written) :
    ∀ name ∈ (assembleGraph model nodes).declaredSymbols, ¬ Marked name := by
  intro name hname
  rcases Names.mem_union.mp hname with hname | hname
  · obtain ⟨h, hh, rfl⟩ := List.mem_map.mp hname
    obtain ⟨⟨key, _⟩, hentry, rfl⟩ := List.mem_map.mp hh
    obtain ⟨hsymbol, hkey⟩ := hmodel.names key _ (Dictionary.mem_entries_iff.mp hentry)
    exact hsymbol ▸ hkey
  · have hname := Names.mem_ofList.mp hname
    change name ∈ inputSymbols model at hname
    unfold inputSymbols at hname
    split at hname
    · cases hname
    · rename_i shape hshape
      obtain ⟨spec, hspec, hdeclared⟩ := Option.bind_eq_some_iff.mp hshape
      have hwritten :=
        (hmodel.terms.definition.nodes spec (List.mem_of_find?_eq_some hspec)).1.declared
          shape hdeclared
      rcases mem_of_mem_foldl_appendNew hname with hnil | hname
      · cases hnil
      · obtain ⟨t, ht, hname⟩ := List.mem_flatMap.mp hname
        exact (hwritten t ht).authored.not_marked (List.mem_filter.mp hname).1

/-- The values that are known of a model's variables are those that the variables have. -/
theorem ResolvedModel.get?_hyperparameterValues {name : String} {value : Value}
    (hget : model.hyperparameterValues.get? name = some value) :
    ∃ variable', model.hyperparameters.get? name = some variable' ∧ variable'.value = value := by
  rw [hyperparameterValues, Dictionary.get?_filterMap] at hget
  obtain ⟨variable', hvariable, hvalue⟩ := Option.bind_eq_some_iff.mp hget
  split at hvalue
  · exact ⟨variable', hvariable, Option.some.inj hvalue⟩
  · cases hvalue

namespace Assembles

variable (h : Assembles options registry program definition model plan bindings errors nodes)

include h

/-- The resolved model can be written by an author. -/
theorem model_written (hregistry : registry.Written) (hprogram : program.Authored) :
    model.Written := by
  obtain ⟨warnings, hresolved⟩ := h.resolved
  exact written_resolve hregistry (written_lowerProgram hprogram h.lowered) hresolved

/-- The values of the variables are a substitution of the author's symbols. -/
theorem bindings_written (hmodel : model.Written) :
    (Substitution.ofTerms bindings).Written := by
  refine written_resolveBindings (fun name value t hget ht => ?_) h.bound
  obtain ⟨variable', hvariable, rfl⟩ := ResolvedModel.get?_hyperparameterValues hget
  exact ⟨(hmodel.names name variable' hvariable).2,
    hmodel.terms.hyperparameters name variable' hvariable t ht⟩

/-- The nodes are the input node and what inference makes of the others. -/
theorem infers : ∃ first rest shape others, plan = first :: rest ∧ first.declared = some shape ∧
    nodes = inputNode first shape :: others ∧
    Infers ⟨options.trustDeclaredShapes, bindings⟩ rest shape errors others :=
  infers_of_infer (planModel_eq_ok h.planned).2 h.inferred

/-- All nodes are valid. -/
theorem valid (hmodel : model.Written) : ∀ n ∈ nodes, n.Valid (.ofTerms bindings) := by
  obtain ⟨first, rest, shape, others, hplan, hdeclared, rfl, hinfers⟩ := h.infers
  have hwritten := written_planModel hmodel h.planned
  rw [hplan] at hwritten
  obtain ⟨hfirst, hrest⟩ := List.forall_mem_cons.mp hwritten
  have hshape := hfirst.declared shape hdeclared
  intro n hn
  rcases List.mem_cons.mp hn with rfl | hn
  · exact ⟨by simp [inputNode], hshape.flowing, hshape.flowing⟩
  · exact hinfers.valid (h.bindings_written hmodel) hrest hshape.flowing n hn

/-- What is left is to validate the graph. -/
theorem outcome : (buildProgram options registry program).outcome =
    checkGraph (assembleGraph model nodes) errors := by
  obtain ⟨warnings, hresolved⟩ := h.resolved
  obtain ⟨hinfer, rfl⟩ := h.inferred
  have hlowered := h.lowered
  simp only [buildProgram, buildGraph, planGraph, inferGraph, hlowered, hresolved, h.planned,
    h.bound, hinfer]

end Assembles

namespace Compiles

variable (h : Compiles options registry program definition model plan bindings nodes)

include h

/-- A compilation that succeeds has a complete run of inference, without diagnostics. -/
theorem assembles :
    Assembles options registry program definition model plan bindings [] nodes :=
  ⟨h.lowered, h.resolved, h.planned, h.bound, h.inferred⟩

/-- The resolved model can be written by an author. -/
theorem model_written (hregistry : registry.Written) (hprogram : program.Authored) :
    model.Written := h.assembles.model_written hregistry hprogram

/-- The values of the variables are a substitution of the author's symbols. -/
theorem bindings_written (hmodel : model.Written) :
    (Substitution.ofTerms bindings).Written := h.assembles.bindings_written hmodel

/-- The terms of the resolved model have no placeholders if the literals of the program are plain
values. -/
theorem model_solid (hregistry : registry.TermsSatisfy Term.Solid)
    (hprogram : ∀ expr ∈ program.exprs, expr.isPlain = true) :
    model.TermsSatisfy Term.Solid := by
  obtain ⟨warnings, hresolved⟩ := h.resolved
  exact termsSatisfy_resolve hregistry (termsSatisfy_lowerProgram Term.arithmetic_solid
    (fun expr hexpr => Expr.leavesSatisfy_of_isPlain (hprogram expr hexpr)) h.lowered).1 hresolved

/-- The values of the variables lower. -/
theorem bindings_lowers (hmodel : model.TermsSatisfy Term.Solid) :
    (Substitution.ofTerms bindings).Lowers := by
  refine lowers_resolveBindings (fun name value t hget ht => ?_) h.bound
  obtain ⟨variable', hvariable, rfl⟩ := ResolvedModel.get?_hyperparameterValues hget
  exact (hmodel.hyperparameters name variable' hvariable t ht).lowers

/-- The nodes are the input node and what inference makes of the others. -/
theorem infers : ∃ first rest shape others, plan = first :: rest ∧ first.declared = some shape ∧
    nodes = inputNode first shape :: others ∧
    Infers ⟨options.trustDeclaredShapes, bindings⟩ rest shape [] others := h.assembles.infers

/-- All nodes are valid. -/
theorem valid (hmodel : model.Written) : ∀ n ∈ nodes, n.Valid (.ofTerms bindings) :=
  h.assembles.valid hmodel

/-- No symbol of a node is a placeholder. -/
theorem not_marked (hmodel : model.Written) {n : GraphNode} (hn : n ∈ nodes) :
    ∀ name ∈ n.symbols, ¬ Marked name := fun name hname =>
  not_marked_declaredSymbols hmodel name (declared_of_checkNodes h.checked hn hname)

end Compiles

/-- The graph of a model has the values of the model's variables. -/
theorem hyperparameterValues_assembleGraph (hmodel : model.Written) :
    (assembleGraph model nodes).hyperparameterValues = model.hyperparameterValues := by
  have hsymbol : ∀ entry ∈ model.hyperparameters.entries, entry.2.symbol = entry.1 :=
    fun entry hentry => (hmodel.names entry.1 entry.2 (Dictionary.mem_entries_iff.mp hentry)).1
  change Dictionary.ofList _ = Dictionary.ofList _
  congr 1
  change ((model.hyperparameters.entries.map Prod.snd).filter _).map _ = _
  generalize model.hyperparameters.entries = entries at hsymbol ⊢
  induction entries with
  | nil => rfl
  | cons entry rest ih =>
    obtain ⟨hentry, hrest⟩ := List.forall_mem_cons.mp hsymbol
    have ih := ih hrest
    cases hbound : entry.2.isBound <;> simp [hbound, hentry, ih]

/-- A block that sets one parameter of a layer type. -/
def settingBlock (layer parameter : String) (value : Expr) : TypeBlock where
  name := layer
  overrides := [{ description := parameter, value := some value }]

/-- A model of a convolution whose output channels the declared shape tells, followed by an inline
model. -/
def sampleProgram : Program where
  imports := ["Convolutions", "Pooling", "Flatten"]
  model := some {
    name := "Sample"
    declarations := [
      { description := "channels", shortName := some "C", value := some (.literal (.int 8)) }]
    lines := [
      { index := 0, shape := some [.literal (.int 3), .identifier "H", .identifier "W"] },
      { index := 1, calls := [{ name := "Conv2d" }],
        shape := some [.identifier "C", .identifier "H", .identifier "W"] },
      { index := 2, model := some {
          name := "Head"
          lines := [
            { index := 1, calls := [{ name := "MaxPool2d" }, { name := "Transform" }] }] } }] }

/-- The sample program has an author's names. -/
theorem authored_sampleProgram : sampleProgram.Authored := by
  decide +kernel

end Shapeline
