import Mathlib.Algebra.Group.End
import Mathlib.Data.Fintype.Sum
import Shapeline.Proofs.Compilation.Redeclaration
import Shapeline.Proofs.Compilation.Symbols
import Shapeline.Proofs.Renaming.Lowering
import Shapeline.Proofs.Renaming.Planning

/-!
# Symbol names carry no meaning

A permutation of names that leaves placeholders and the defaults of layer types alone takes every
stage of a compilation to the same stage of the renamed program. A renaming that is injective on the
symbols of a program agrees with such a permutation on them, and a graph that compiles mentions no
other symbols. So the renamed program compiles exactly if the program does, to the renamed graph.
-/

namespace Shapeline

/-- A graph differs from another one in the names of its symbols. The symbols of the input may come
in another order. -/
structure Graph.Renames (f : String → String) (g g' : Graph) : Prop where
  /-- The names of the models are equal. -/
  name : g'.name = g.name
  /-- The nodes are renamed. -/
  nodes : g'.nodes = g.nodes.map (GraphNode.rename f)
  /-- The variables are renamed. -/
  hyperparameters : List.Forall₂ (Hyperparameter.Renames f) g.hyperparameters g'.hyperparameters
  /-- The input introduces the new names of the symbols. -/
  inputSymbols : ∀ name, name ∈ g'.inputSymbols ↔ ∃ old ∈ g.inputSymbols, f old = name

/-- A renaming that a program can undergo: no two of its symbols get one name, neither the symbols
nor their new names look like placeholders, no new name is empty, and a symbol that the defaults of
an imported layer type mention is neither renamed nor the new name of another symbol. -/
structure Program.Renamable (registry : Registry) (program : Program) (f : String → String) :
    Prop where
  /-- Different symbols get different names. -/
  injective : Set.InjOn f {name | name ∈ program.symbols}
  /-- The symbols carry no mark. -/
  unmarked : ∀ name ∈ program.symbols, ¬ Marked name
  /-- The new names carry no mark. -/
  images : ∀ name ∈ program.symbols, ¬ Marked (f name)
  /-- The new names are not empty. -/
  nonempty : ∀ name ∈ program.symbols, f name ≠ ""
  /-- What the defaults mention stays. -/
  mentioned : ∀ name ∈ program.symbols, registry.Mentions program.imports name ∨
    registry.Mentions program.imports (f name) → f name = name

variable {options : Options} {registry : Registry} {program : Program} {definition : Definition}
  {model model' : ResolvedModel} {plan : List PlannedNode} {bindings : Dictionary Term}
  {nodes : List GraphNode} {n p : GraphNode} {s : LayerStep} {f g : String → String}
  {node : Int} {name : String} (π : Equiv.Perm String)

/-- A renamed step records the new names of the symbols. -/
theorem LayerStep.records_rename_iff :
    (s.rename f).Records name ↔ ∃ old, s.Records old ∧ f old = name := by
  simp only [Records, rename, Parameters.term?_rename, Option.map_eq_some_iff,
    exists_exists_and_eq_and, Term.mem_symbols_rename]
  constructor
  · rintro ⟨parameter, t, ht, old, hold, rfl⟩
    exact ⟨old, ⟨parameter, t, ht, hold⟩, rfl⟩
  · rintro ⟨old, ⟨parameter, t, ht, hold⟩, rfl⟩
    exact ⟨parameter, t, ht, old, hold, rfl⟩

/-- The symbols of a renamed node are the new names. -/
theorem GraphNode.mem_symbols_rename :
    name ∈ (n.rename f).symbols ↔ ∃ old ∈ n.symbols, f old = name := by
  simp only [mem_symbols, or_and_right, exists_or, rename, Shape.mem_symbols_rename, List.mem_map,
    exists_exists_and_eq_and, LayerStep.records_rename_iff]
  refine or_congr Iff.rfl (or_congr Iff.rfl ⟨?_, ?_⟩)
  · rintro ⟨s, hs, old, hold, rfl⟩
    exact ⟨old, ⟨s, hs, hold⟩, rfl⟩
  · rintro ⟨old, ⟨s, hs, hold⟩, rfl⟩
    exact ⟨s, hs, old, hold, rfl⟩

/-- A renamed step has no diagnostics if the step has none. -/
theorem checkStep_rename (h : checkStep node s = .ok []) :
    checkStep node (s.rename π) = .ok [] := by
  obtain ⟨layer, hlayer, hrank, haxes⟩ := checkStep_eq_nil_iff.mp h
  refine checkStep_eq_nil_iff.mpr ⟨layer, hlayer, ?_, fun name hname v hv => ?_⟩
  · rwa [LayerStep.rename, Shape.rank_rename]
  · rw [LayerStep.rename, Parameters.given?_rename] at hv
    obtain ⟨old, hold, rfl⟩ := Option.map_eq_some_iff.mp hv
    obtain ⟨position, hposition⟩ := haxes name hname old hold
    rw [LayerStep.rename, Shape.rank_rename]
    exact ⟨position, (mirrors_resolveAxis π).ok hposition⟩

/-- A renamed node passes validation if the node does, with the new names declared. -/
theorem GraphNode.Passes.rename {declared declared' : List String} {previous : Option GraphNode}
    (h : n.Passes declared previous) (hdeclared : ∀ name ∈ declared, π name ∈ declared') :
    (n.rename π).Passes declared' (previous.map (GraphNode.rename π)) where
  symbols name hname := by
    obtain ⟨old, hold, rfl⟩ := mem_symbols_rename.mp hname
    exact hdeclared old (h.symbols old hold)
  steps := by
    refine checkSteps_eq_nil_iff.mpr fun s' hs' => ?_
    obtain ⟨s, hs, rfl⟩ := List.mem_map.mp hs'
    exact checkStep_rename π (checkSteps_eq_nil_iff.mp h.steps s hs)
  chain p' hp' := by
    obtain ⟨p, hp, rfl⟩ := Option.map_eq_some_iff.mp hp'
    obtain ⟨hinput, hfirst⟩ := checkChain_eq_nil_iff.mp (h.chain p hp)
    refine checkChain_eq_nil_iff.mpr ⟨?_, fun s' hs' => ?_⟩
    · simpa [GraphNode.rename] using hinput
    · rw [GraphNode.rename, List.head?_map] at hs'
      obtain ⟨s, hs, rfl⟩ := Option.map_eq_some_iff.mp hs'
      simpa [GraphNode.rename, LayerStep.rename] using hfirst s hs

/-- The new names of declared symbols are declared in the renamed graph. -/
theorem Graph.Renames.mem_declaredSymbols {graph graph' : Graph} (h : graph.Renames f graph') :
    ∀ name ∈ graph.declaredSymbols, f name ∈ graph'.declaredSymbols := by
  intro name hname
  rcases Names.mem_union.mp hname with hname | hname
  · obtain ⟨x, hx, rfl⟩ := List.mem_map.mp hname
    obtain ⟨x', hx', hrenames⟩ := exists_of_mem_left h.hyperparameters hx
    exact Names.mem_union.mpr (Or.inl (List.mem_map.mpr ⟨x', hx', hrenames.symbol⟩))
  · refine Names.mem_union.mpr (Or.inr (Names.mem_ofList.mpr ?_))
    exact (h.inputSymbols _).mpr ⟨name, Names.mem_ofList.mp hname, rfl⟩

/-- Renamed nodes pass validation if the nodes do, with the new names declared. -/
theorem checkNodes_rename {declared declared' : List String} {previous : Option GraphNode}
    (h : checkNodes declared previous nodes = .ok [])
    (hdeclared : ∀ name ∈ declared, π name ∈ declared') :
    checkNodes declared' (previous.map (GraphNode.rename π)) (nodes.map (GraphNode.rename π)) =
      .ok [] := by
  induction nodes generalizing previous with
  | nil => rfl
  | cons first rest ih =>
    obtain ⟨hpasses, hothers⟩ := checkNodes_cons_eq_nil_iff.mp h
    exact checkNodes_cons_eq_nil_iff.mpr ⟨hpasses.rename π hdeclared, ih hothers⟩

/-- A program with its names permuted goes through all stages, to the renamed graph. -/
theorem Compiles.rename
    (h : Compiles options registry program definition model plan bindings nodes)
    (hmarked : FixesMarked π) (hprogram : program.KeepsShort π)
    (hmentions : ∀ symbol, registry.Mentions program.imports symbol → π symbol = symbol) :
    ∃ definition' model' plan' bindings' nodes',
      Compiles options registry (program.rename π) definition' model' plan' bindings' nodes' ∧
        (assembleGraph model nodes).Renames π (assembleGraph model' nodes') := by
  obtain ⟨definition', hlowered, hdefinition⟩ := lowerProgram_rename π hprogram h.lowered
  obtain ⟨warnings, hresolved⟩ := h.resolved
  obtain ⟨⟨model', warnings'⟩, hresolved'⟩ := exists_resolve options.warnUnusedImports
    (hdefinition.resolvable π.injective (resolvable_of_resolve hresolved))
  have hbinds := binds_of_resolve hresolved
  have hbinds' := binds_of_resolve hresolved'
  have hmodel := (resolve_eq_ok hresolved).1
  have hmodels : model.definition.Renames π model'.definition := by
    rw [hmodel, (resolve_eq_ok hresolved').1]
    exact hdefinition
  have himports : model.definition.imports = program.imports := by
    obtain ⟨_, _, _, _, -, -, -, -, rfl⟩ := lowerProgram_eq_ok_iff.mp h.lowered
    rw [hmodel]
  have hlayers : model.RenamesLayers π model' :=
    hmodels.matchesAt hbinds hbinds' (himports ▸ hmentions)
  have hvariables : model.RenamesVariables π model' := hmodels.hyperparameter_entries hbinds hbinds'
  have hplanned := hlayers.planModel hmodels h.planned
  have hbound : resolveBindings model'.hyperparameterValues =
      .ok (bindings.rename π (Term.rename π)) := by
    rw [hvariables.hyperparameterValues]
    exact (mirrors_resolveBindings π _).ok h.bound
  have hinferred := infer_rename hmarked h.inferred
  have hgraph : (assembleGraph model nodes).Renames π
      (assembleGraph model' (nodes.map (GraphNode.rename π))) := by
    refine ⟨?_, rfl, hvariables.values, fun name => hvariables.mem_inputSymbols_iff hmodels⟩
    change model'.definition.name = model.definition.name
    rw [hmodels.rest]
  have hchecked := checkNodes_rename π h.checked hgraph.mem_declaredSymbols
  exact ⟨definition', model', _, _, _,
    ⟨hlowered, ⟨warnings', hresolved'⟩, hplanned, hbound, hinferred, hchecked⟩, hgraph⟩

/-- Only the new names of the symbols of a step matter. -/
theorem LayerStep.rename_congr (hparams : ∀ name, s.Records name → f name = g name)
    (hshapes : ∀ shape ∈ [s.input, s.output], ∀ name ∈ shape.symbols, f name = g name) :
    s.rename f = s.rename g := by
  rw [rename, rename, Shape.rename_congr (hshapes _ (by simp)),
    Shape.rename_congr (hshapes s.output (by simp)),
    Parameters.rename_congr fun parameter t ht name hname => hparams name ⟨parameter, t, ht, hname⟩]

/-- Only the new names of the symbols of a node matter. -/
theorem GraphNode.rename_congr {known : String → Prop}
    (hn : n.SymbolsDeclared known fun shape => shape.SymbolsSatisfy known)
    (hknown : ∀ name, known name → f name = g name) : n.rename f = n.rename g := by
  have hshape {shape : Shape} (h : shape.SymbolsSatisfy known) :
      shape.rename f = shape.rename g :=
    Shape.rename_congr fun name hname => hknown name (h name hname)
  have hdeclared : n.declared.map (Shape.rename f) = n.declared.map (Shape.rename g) := by
    cases hdeclares : n.declared with
    | none => rfl
    | some shape => exact congrArg some (hshape (hn.shape shape hdeclares ▸ hn.output))
  have hsteps : n.steps.map (LayerStep.rename f) = n.steps.map (LayerStep.rename g) := by
    refine List.map_congr_left fun s hs => LayerStep.rename_congr
      (fun name hname => hknown name (hn.params s hs name hname)) fun shape hmem name hname => ?_
    refine hknown name ((hn.steps s hs shape hmem name hname).elim id ?_)
    rintro ⟨other, hother, hname⟩
    exact hother name hname
  rw [rename, rename, hshape hn.input, hshape hn.inferred, hshape hn.output, hdeclared, hsteps]

/-- A variable is renamed in the same way if its symbols are. -/
theorem Hyperparameter.Renames.congr {h h' : Hyperparameter} (hrenames : h.Renames f h')
    (hsymbol : f h.symbol = g h.symbol)
    (hvalue : h.value.TermsSatisfy (Term.SymbolsSatisfy fun name => f name = g name)) :
    h.Renames g h' :=
  ⟨hrenames.symbol.trans hsymbol, hrenames.description,
    hrenames.value.trans (Value.rename_congr hvalue)⟩

namespace Compiles

variable (h : Compiles options registry program definition model plan bindings nodes)

include h

/-- The variables of a model are those of the definition. -/
theorem hyperparameters_values : model.hyperparameters.values = definition.hyperparameters := by
  obtain ⟨warnings, hresolved⟩ := h.resolved
  have hentries := (binds_of_resolve hresolved).hyperparameters
  rw [(resolve_eq_ok hresolved).1] at hentries
  rw [Dictionary.values, hentries, List.map_map]
  exact List.map_id _

/-- The symbols that the input introduces are symbols of the program. -/
theorem mem_symbols_of_inputSymbols (hname : name ∈ inputSymbols model) :
    name ∈ program.symbols := by
  obtain ⟨warnings, hresolved⟩ := h.resolved
  obtain ⟨⟨shape, hshape, hname⟩, -⟩ := mem_inputSymbols.mp hname
  rw [(resolve_eq_ok hresolved).1] at hshape
  obtain ⟨spec, hspec, hdeclared⟩ := Option.bind_eq_some_iff.mp hshape
  have hterms := ((symbols_lowerProgram h.lowered).1.nodes spec
    (List.mem_of_find?_eq_some hspec)).1.declared shape hdeclared
  obtain ⟨t, ht, hname⟩ := Shape.mem_symbols.mp hname
  exact hterms t ht name hname

/-- All symbols of a graph are symbols of the program. -/
theorem symbols : ∀ n ∈ nodes, n.SymbolsDeclared (· ∈ program.symbols)
    fun shape => shape.SymbolsSatisfy (· ∈ program.symbols) := by
  obtain ⟨hterms, hkeys⟩ := symbols_lowerProgram h.lowered
  have hnodes : ∀ n ∈ nodes, ∀ name ∈ n.symbols, name ∈ program.symbols := by
    intro n hn name hname
    rcases Names.mem_union.mp (declared_of_checkNodes h.checked hn hname) with hname | hname
    · obtain ⟨x, hx, rfl⟩ := List.mem_map.mp hname
      exact hkeys x (h.hyperparameters_values ▸ hx)
    · exact h.mem_symbols_of_inputSymbols (Names.mem_ofList.mp hname)
  let inside : Int → Shape → Prop := fun _ shape => shape.SymbolsSatisfy (· ∈ program.symbols)
  have hinside : ∀ planned ∈ plan, ∀ checkpoint ∈ planned.checkpoints,
      inside planned.index checkpoint.shape := by
    intro planned hplanned checkpoint hcheckpoint name hname
    obtain ⟨spec, hspec, -, line, hline, hdeclared⟩ :=
      declaresInside_of_planModel h.planned planned hplanned checkpoint hcheckpoint
    obtain ⟨warnings, hresolved⟩ := h.resolved
    rw [(resolve_eq_ok hresolved).1] at hspec
    obtain ⟨t, ht, hname⟩ := Shape.mem_symbols.mp hname
    exact ((hterms.nodes spec hspec).2 line hline).declared _ hdeclared t ht name hname
  obtain ⟨first, rest, shape, others, rfl, hdeclared, rfl, hinfers⟩ := h.infers
  obtain ⟨hinput, hothers⟩ := List.forall_mem_cons.mp hnodes
  have hshape : shape.SymbolsSatisfy (· ∈ program.symbols) := fun name hname =>
    hinput name (GraphNode.mem_symbols.mpr (Or.inl hname))
  intro n hn
  rcases List.mem_cons.mp hn with rfl | hn
  · exact ⟨hshape, hshape, hshape, fun _ h => Option.some.inj h, by simp [inputNode],
      by simp [inputNode]⟩
  · exact hinfers.symbolsDeclared rfl (List.forall_mem_cons.mp hinside).2 hshape hothers n hn

/-- A graph is renamed in the same way if the symbols of the program are. -/
theorem renames_congr {graph' : Graph} (hsymbols : ∀ name ∈ program.symbols, f name = g name)
    (hrenames : (assembleGraph model nodes).Renames f graph') :
    (assembleGraph model nodes).Renames g graph' := by
  obtain ⟨hterms, hkeys⟩ := symbols_lowerProgram h.lowered
  refine ⟨hrenames.name, hrenames.nodes.trans ?_, ?_, fun name => ?_⟩
  · exact List.map_congr_left fun n hn => GraphNode.rename_congr (h.symbols n hn) hsymbols
  · refine forall₂_imp_of_mem hrenames.hyperparameters (P := (· ∈ definition.hyperparameters))
      (Q := fun _ => True) (fun x hx => ?_) (fun _ _ => trivial) fun x x' hx hmem _ => ?_
    · exact h.hyperparameters_values ▸ hx
    · exact hx.congr (hsymbols _ (hkeys x hmem)) fun t ht name hname =>
        hsymbols name (hterms.hyperparameters x hmem t ht name hname)
  · rw [hrenames.inputSymbols]
    refine exists_congr fun old => and_congr_right fun hold => ?_
    rw [hsymbols old (h.mem_symbols_of_inputSymbols hold)]

end Compiles

/-- A function that is injective on some names agrees on them with a permutation, which moves no
names but these and their images, of which there are finitely many. -/
theorem exists_perm_eq_on {names : Finset String} (hf : Set.InjOn f (names : Set String)) :
    ∃ π : Equiv.Perm String, (∀ name ∈ names, π name = f name) ∧
      ∀ name, name ∉ names → name ∉ names.image f → π name = name := by
  let moved := names ∪ names.image f
  have himages : (Finset.univ.filter fun name : moved => name.1 ∈ names).image
      (fun name => f name.1) ⊆ moved := by
    intro image himage
    obtain ⟨name, hname, rfl⟩ := Finset.mem_image.mp himage
    exact Finset.mem_union_right _ (Finset.mem_image_of_mem f (Finset.mem_filter.mp hname).2)
  have hinjective : Set.InjOn (fun name : moved => f name.1)
      (Finset.univ.filter fun name : moved => name.1 ∈ names) := by
    intro a ha b hb hab
    exact Subtype.ext (hf (by simpa using ha) (by simpa using hb) hab)
  obtain ⟨e, he⟩ :=
    Finset.exists_equiv_extend_of_card_eq (Fintype.card_coe moved) himages hinjective
  refine ⟨Equiv.Perm.ofSubtype e, fun name hname => ?_, fun name hname himage => ?_⟩
  · rw [Equiv.Perm.ofSubtype_apply_of_mem e (Finset.mem_union_left _ hname)]
    exact he _ (Finset.mem_filter.mpr ⟨Finset.mem_univ _, hname⟩)
  · refine Equiv.Perm.ofSubtype_apply_of_not_mem e fun hmoved => ?_
    exact (Finset.mem_union.mp hmoved).elim hname himage

/-- A renaming of a program agrees on its symbols with a permutation that leaves placeholders and
what defaults mention alone. -/
theorem Program.Renamable.exists_perm (h : program.Renamable registry f) :
    ∃ π : Equiv.Perm String, (∀ name ∈ program.symbols, π name = f name) ∧ FixesMarked π ∧
      ∀ symbol, registry.Mentions program.imports symbol → π symbol = symbol := by
  obtain ⟨π, hπ, hfixes⟩ := exists_perm_eq_on (List.coe_toFinset program.symbols ▸ h.injective)
  simp only [List.mem_toFinset, Finset.mem_image, not_exists, not_and] at hπ hfixes
  refine ⟨π, hπ, fun name hname => ?_, fun symbol hsymbol => ?_⟩
  · refine hfixes name (fun hmem => h.unmarked name hmem hname) fun old hold heq => ?_
    exact h.images old hold (heq ▸ hname)
  · by_cases hmem : symbol ∈ program.symbols
    · exact (hπ symbol hmem).trans (h.mentioned symbol hmem (Or.inl hsymbol))
    · refine hfixes symbol hmem fun old hold heq => ?_
      obtain rfl : symbol = old := heq.symm.trans (h.mentioned old hold (Or.inr (heq ▸ hsymbol)))
      exact hmem hold

/-- **Symbol names carry no meaning.** Give the symbols of a program other names, which are
different for different symbols, not empty and like the symbols themselves without the mark of
placeholders. Symbols that the defaults of the imported layer types mention are neither renamed nor
used as new names. With one registry and the same options the renamed program compiles exactly if
the program does, and its graph is the graph of the program with all shapes, parameters and
variables renamed. -/
theorem renamed_compile_same (options : Options) (h : program.Renamable registry f) :
    ((∃ graph, compileGraph options registry program = .ok graph) ↔
      ∃ graph', compileGraph options registry (program.rename f) = .ok graph') ∧
    ∀ graph graph', compileGraph options registry program = .ok graph →
      compileGraph options registry (program.rename f) = .ok graph' → graph.Renames f graph' := by
  obtain ⟨π, hπ, hmarked, hmentions⟩ := h.exists_perm
  have hshort : program.KeepsShort π :=
    .of_symbols fun name hname => hπ name hname ▸ h.nonempty name hname
  rw [← Program.rename_congr hπ]
  refine succeed_together (fun graph hgraph => ?_) fun graph' hgraph' => ?_
  · obtain ⟨_, _, _, _, _, hcompiles, rfl⟩ := compiles_of_compileGraph hgraph
    obtain ⟨_, _, _, _, _, hcompiles', hrenames⟩ := hcompiles.rename π hmarked hshort hmentions
    exact ⟨_, hcompiles'.compileGraph, hcompiles.renames_congr hπ hrenames⟩
  · have hback {name : String} (hname : π name = name) : π.symm name = name :=
      π.symm_apply_eq.mpr hname.symm
    obtain ⟨_, _, _, _, _, hcompiles, -⟩ := compiles_of_compileGraph hgraph'
    obtain ⟨_, _, _, _, _, hcompiles', -⟩ := hcompiles.rename π.symm
      (fun name hname => hback (hmarked name hname)) (Program.keepsShort_symm π)
      fun symbol hsymbol => hback (hmentions symbol hsymbol)
    rw [Program.rename_symm π hshort] at hcompiles'
    exact ⟨_, hcompiles'.compileGraph⟩

/-- The defaults of the standard library mention no symbols. -/
theorem Standard.not_mentions {imports : List String} :
    ¬ Standard.registry.Mentions imports name := by
  rintro ⟨other, layer, -, hlayer, parameter, t, ht, hname⟩
  exact Standard.termsSatisfy_registry (Term.arithmetic_symbols fun _ => False) other layer hlayer
    parameter t ht name hname

/-- Another name for the channels of the sample program, whose name goes to the height. -/
def shiftedName (name : String) : String :=
  if name = "C" then "N" else if name = "H" then "C" else name

/-- The sample program compiles with its symbols renamed, to the renamed graph. -/
theorem sampleProgram_renamed :
    sampleProgram.Renamable Standard.registry shiftedName ∧
      ∃ graph graph', compileGraph {} Standard.registry sampleProgram = .ok graph ∧
        compileGraph {} Standard.registry (sampleProgram.rename shiftedName) = .ok graph' ∧
        graph.Renames shiftedName graph' := by
  have hrenamable : sampleProgram.Renamable Standard.registry shiftedName := by
    refine ⟨?_, by decide +kernel, by decide +kernel, by decide +kernel,
      fun name _ h => (h.elim Standard.not_mentions Standard.not_mentions).elim⟩
    exact (show _ by decide +kernel : ∀ a ∈ sampleProgram.symbols, ∀ b ∈ sampleProgram.symbols,
      shiftedName a = shiftedName b → a = b)
  obtain ⟨hcompiles, hrenames⟩ := renamed_compile_same {} hrenamable
  obtain ⟨graph, hgraph⟩ := exists_eq_ok_iff.mpr (show (compileGraph {} Standard.registry
    sampleProgram).toOption.isSome = true by decide +kernel)
  obtain ⟨graph', hgraph'⟩ := hcompiles.mp ⟨graph, hgraph⟩
  exact ⟨hrenamable, graph, graph', hgraph, hgraph', hrenames graph graph' hgraph hgraph'⟩

/-- A registry of one pooling whose stride is by default what a variable tells. -/
def scaledRegistry : Registry where
  layers := .ofList [("Pool", {
    name := "Pool"
    parameters := [{ name := stride, default := .dim (.sym "N"), kind := .dim }]
    rule := ⟨.pooling, 1⟩ })]
  groups := .ofList []
  frozen := true

/-- A model of one pooling, with a variable. -/
def scaledProgram (name : String) : Program where
  imports := ["Pool"]
  model := some {
    name := "Scaled"
    declarations := [{ description := name, value := some (.literal (.int 2)) }]
    lines := [
      { index := 0, shape := some [.identifier "c", .literal (.int 8)] },
      { index := 1, calls := [{ name := "Pool" }] }] }

/-- Whether a program compiles depends on the name of a variable that a default mentions: it does
not if the variable gets another name, and it does if another variable gets the name. -/
theorem mentioned_names_matter :
    let away := fun name : String => if name = "N" then "M" else name
    let back := fun name : String => if name = "M" then "N" else name
    let first := scaledProgram "N"
    let second := scaledProgram "M"
    (Set.InjOn away {name | name ∈ first.symbols} ∧
      (∀ name ∈ first.symbols, ¬ Marked name ∧ ¬ Marked (away name) ∧ away name ≠ "") ∧
      (∃ graph, compileGraph {} scaledRegistry first = .ok graph) ∧
      ¬ ∃ graph, compileGraph {} scaledRegistry (first.rename away) = .ok graph) ∧
    Set.InjOn back {name | name ∈ second.symbols} ∧
      (∀ name ∈ second.symbols, ¬ Marked name ∧ ¬ Marked (back name) ∧ back name ≠ "") ∧
      (¬ ∃ graph, compileGraph {} scaledRegistry second = .ok graph) ∧
      ∃ graph, compileGraph {} scaledRegistry (second.rename back) = .ok graph := by
  intro away back first second
  refine ⟨⟨?_, by decide +kernel, exists_eq_ok_iff.mpr (by decide +kernel),
      mt exists_eq_ok_iff.mp (by decide +kernel)⟩,
    ?_, by decide +kernel, mt exists_eq_ok_iff.mp (by decide +kernel),
    exists_eq_ok_iff.mpr (by decide +kernel)⟩
  · exact (show _ by decide +kernel : ∀ a ∈ first.symbols, ∀ b ∈ first.symbols,
      away a = away b → a = b)
  · exact (show _ by decide +kernel : ∀ a ∈ second.symbols, ∀ b ∈ second.symbols,
      back a = back b → a = b)

end Shapeline
