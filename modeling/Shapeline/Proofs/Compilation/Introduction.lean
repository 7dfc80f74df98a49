import Shapeline.Proofs.Compilation.Stages
import Shapeline.Proofs.Redeclaration.Lowering

/-!
# What a model introduces

The symbols that a model introduces are its variables and the symbols of its input shape, as they
are written. All of them are declared in the graph of the model. The values of the variables can be
told from the lines that declare them.
-/

namespace Shapeline

/-- The values of the variables of a model that are dimensions, with the references between them
replaced. -/
def ModelBlock.bindings (block : ModelBlock) : Outcome (Dictionary Term) := do
  let (declared, _) ← lowerHyperparameters block.declarations
  resolveBindings ((collectHyperparameters block.name declared).1.filterMap fun _ h =>
    if h.isBound then some h.value else none)

/-- A symbol is a variable of a model, or a symbol of the shape of its input. -/
def ModelBlock.Introduces (block : ModelBlock) (name : String) : Prop :=
  (∃ decl ∈ block.declarations, decl.key = name) ∨
    ∃ line exprs, block.lines.find? (·.index = 0) = some line ∧ line.shape = some exprs ∧
      ∃ expr ∈ exprs, ∃ axis, lowerAxis 0 expr = .ok axis ∧ name ∈ axis.symbols

variable {options : Options} {registry : Registry} {program : Program} {definition : Definition}
  {model : ResolvedModel} {plan : List PlannedNode} {bindings : Dictionary Term}
  {nodes : List GraphNode} {block block' : ModelBlock} {name : String}

/-- The values of the variables are those of the lines that declare them. -/
theorem Compiles.bindings_eq
    (h : Compiles options registry program definition model plan bindings nodes)
    (hblock : program.model = some block) : block.bindings = .ok bindings := by
  obtain ⟨_, declared, typeOverrides, specs, hmodel, hdeclared, -, -, rfl⟩ :=
    lowerProgram_eq_ok_iff.mp h.lowered
  obtain rfl := Option.some.inj (hblock.symm.trans hmodel)
  obtain ⟨_, hresolved⟩ := h.resolved
  have hvalues := h.bound
  rw [ResolvedModel.hyperparameterValues, (resolve_eq_ok hresolved).2] at hvalues
  exact bind_eq_ok_iff.mpr ⟨_, hdeclared, hvalues⟩

/-- Every declared variable is collected under its symbol. -/
theorem contains_collectHyperparameters {model : String} {declared : List Hyperparameter}
    {h : Hyperparameter} (hmem : h ∈ declared) :
    (collectHyperparameters model declared).1.contains h.symbol = true := by
  unfold collectHyperparameters
  refine foldl_establishes
    (P := fun (known : Dictionary Hyperparameter × List Diagnostic) =>
      known.1.contains h.symbol = true) hmem (fun known item hknown => ?_) (fun known => ?_) _
  · dsimp only
    split
    · exact hknown
    · obtain ⟨value, hvalue⟩ := Dictionary.contains_iff.mp hknown
      rw [Dictionary.contains_iff]
      by_cases hname : h.symbol = item.symbol
      · exact ⟨_, by rw [Dictionary.get?_insert, if_pos hname]⟩
      · exact ⟨_, by rw [Dictionary.get?_insert, if_neg hname, hvalue]⟩
  · dsimp only
    split
    · assumption
    · exact Dictionary.contains_iff.mpr ⟨h, by rw [Dictionary.get?_insert, if_pos rfl]⟩

/-- The node with number zero is that of the line with number zero. -/
theorem find?_of_lowerNode {lines : List OuterLine} {specs : List NodeSpec} {line : OuterLine}
    (h : List.Forall₂ (fun line n => lowerNode line = .ok (n, [])) lines specs)
    (hline : lines.find? (·.index = 0) = some line) :
    ∃ n, specs.find? (·.index = 0) = some n ∧
      ∃ declared, LowersShape 0 line.shape declared ∧ n.declared = declared := by
  induction h with
  | nil => cases hline
  | @cons first n lines specs hfirst _ ih =>
    obtain ⟨⟨base, errors⟩, hbase, hrest⟩ := bind_eq_ok_iff.mp hfirst
    obtain ⟨_, _, hbase⟩ := bind_eq_ok_iff.mp hbase
    obtain ⟨⟨declared, shapeErrors⟩, hdeclared, hbase⟩ := bind_eq_ok_iff.mp hbase
    obtain ⟨rfl, rfl⟩ := Prod.mk.inj (pure_eq_ok_iff.mp hbase)
    dsimp only at hrest
    by_cases hzero : first.index = 0
    · rw [List.find?_cons_of_pos (by simp [hzero])] at hline
      obtain rfl := Option.some.inj hline
      rw [if_pos hzero] at hrest
      obtain ⟨rfl, hnil⟩ := Prod.mk.inj (pure_eq_ok_iff.mp hrest)
      obtain ⟨-, rfl⟩ := List.append_eq_nil_iff.mp hnil.symm
      exact ⟨_, List.find?_cons_of_pos (by simp [hzero]), declared,
        lowerShape_eq_nil_iff.mp (hzero ▸ hdeclared), rfl⟩
    · rw [List.find?_cons_of_neg (by simp [hzero])] at hline
      have hindex : n.index = first.index := by
        rw [if_neg hzero] at hrest
        split at hrest
        · obtain ⟨rfl, -⟩ := Prod.mk.inj (pure_eq_ok_iff.mp hrest)
          rfl
        · obtain ⟨_, _, hrest⟩ := bind_eq_ok_iff.mp hrest
          obtain ⟨rfl, -⟩ := Prod.mk.inj (pure_eq_ok_iff.mp hrest)
          rfl
      rw [List.find?_cons_of_neg (by simp [hindex, hzero])]
      exact ih hline

/-- The symbols that a model introduces are declared in its graph. -/
theorem Compiles.declared_of_introduces
    (h : Compiles options registry program definition model plan bindings nodes)
    (hblock : program.model = some block) (hname : block.Introduces name) :
    name ∈ (assembleGraph model nodes).declaredSymbols := by
  obtain ⟨_, declared, typeOverrides, specs, hmodel, hdeclared, -, hspecs, rfl⟩ :=
    lowerProgram_eq_ok_iff.mp h.lowered
  obtain rfl := Option.some.inj (hblock.symm.trans hmodel)
  obtain ⟨_, hresolved⟩ := h.resolved
  obtain ⟨hdefinition, hvariables⟩ := resolve_eq_ok hresolved
  have hvariable (hcontains : model.hyperparameters.contains name = true) :
      name ∈ (assembleGraph model nodes).declaredSymbols := by
    obtain ⟨found, hfound⟩ := Dictionary.contains_iff.mp hcontains
    refine Names.mem_union.mpr (Or.inl (List.mem_map.mpr ⟨found, ?_, ?_⟩))
    · exact List.mem_map.mpr ⟨(name, found), Dictionary.mem_entries_iff.mpr hfound, rfl⟩
    · exact (mem_of_collectHyperparameters (hvariables ▸ hfound)).2
  rcases hname with ⟨decl, hdecl, rfl⟩ | ⟨line, exprs, hline, hshape, expr, hexpr, axis, haxis, hmem⟩
  · obtain ⟨found, hfound, hlower⟩ := exists_of_mem_left (collectEach_eq_nil_iff.mp hdeclared) hdecl
    obtain ⟨value, _, hlower⟩ := bind_eq_ok_iff.mp hlower
    obtain rfl := pure_eq_ok_iff.mp hlower
    refine hvariable ?_
    rw [hvariables]
    exact contains_collectHyperparameters hfound
  · by_cases hcontains : model.hyperparameters.contains name = true
    · exact hvariable hcontains
    obtain ⟨n, hn, shape, hlowers, hdeclared'⟩ := find?_of_lowerNode hspecs hline
    rw [hshape] at hlowers
    cases hlowers with
    | @some _ shape haxes =>
      obtain ⟨axis', haxis', heq⟩ := exists_of_mem_left haxes hexpr
      obtain rfl := Except.ok.inj (haxis.symm.trans heq)
      have hinput : model.definition.inputShape = some shape := by
        rw [hdefinition]
        exact Option.bind_eq_some_iff.mpr ⟨n, hn, hdeclared'⟩
      refine Names.mem_union.mpr (Or.inr (Names.mem_ofList.mpr ?_))
      show name ∈ inputSymbols model
      unfold inputSymbols
      rw [hinput]
      refine mem_foldl_appendNew (Or.inr (List.mem_flatMap.mpr ⟨axis, haxis', ?_⟩))
      exact List.mem_filter.mpr ⟨hmem, by simp [hcontains]⟩

variable {Q : Int → Option (List Expr) → Option (List Expr) → Prop}

/-- A model with other declarations has the same values of variables. -/
theorem ModelBlock.Redeclares.bindings_eq (h : block.Redeclares Q block') :
    block'.bindings = block.bindings := by
  rw [h.same]
  rfl

/-- A model with other declarations introduces the same symbols. -/
theorem ModelBlock.Redeclares.introduces (h : block.Redeclares Q block')
    (hname : block.Introduces name) : block'.Introduces name := by
  rcases hname with ⟨decl, hdecl, hkey⟩ | ⟨line, exprs, hline, hshape, haxis⟩
  · refine Or.inl ⟨decl, ?_, hkey⟩
    rw [h.same]
    exact hdecl
  · have hlines := h.lines
    refine Or.inr ?_
    generalize block.lines = lines at hlines hline
    generalize block'.lines = lines' at hlines ⊢
    induction hlines with
    | nil => cases hline
    | @cons first first' lines lines' hfirst _ ih =>
      have hindex : first'.index = first.index := by rw [hfirst.base.same]
      by_cases hzero : first.index = 0
      · rw [List.find?_cons_of_pos (by simp [hzero])] at hline
        obtain rfl := Option.some.inj hline
        exact ⟨first', exprs, List.find?_cons_of_pos (by simp [hindex, hzero]),
          (hfirst.input (by omega)).trans hshape, haxis⟩
      · rw [List.find?_cons_of_neg (by simp [hzero])] at hline
        rw [List.find?_cons_of_neg (by simp [hindex, hzero])]
        exact ih hline

end Shapeline
