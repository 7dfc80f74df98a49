import Shapeline.Proofs.Compilation.Completion
import Shapeline.Proofs.Compilation.Introduction
import Shapeline.Proofs.Compilation.Redeclaration
import Shapeline.Proofs.Inference.Rewording

/-!
# Compiling under reworded declarations

How a declared shape is written does not matter, as long as extents in different words are constant
together. A program compiles if and only if it does so with its declared shapes in other words, and
the two graphs are alike.
-/

namespace Shapeline

variable {options : Options} {program program' : Program} {definition definition' : Definition}
  {model : ResolvedModel} {plan plan' : List PlannedNode} {bindings : Dictionary Term}
  {nodes nodes' : List GraphNode} {block block' : ModelBlock} {σ : Substitution}
  {known : String → Prop} {node : Int} {expr expr' : Expr} {a b : Option Shape}

/-- Two terms state one extent: they are found equivalent under the substitution, and they are
simplified to an integer together. -/
structure Term.Rephrases (σ : Substitution) (t t' : Term) : Prop where
  /-- The terms are found equivalent. -/
  compares : t.ComparesAs σ true t'
  /-- The terms are simplified to equal integers, or neither is to one. -/
  constant : ∀ n : Int, t.simplify = .ok (.const n) ↔ t'.simplify = .ok (.const n)

/-- Two expressions are equal, or they are lowered to related terms that mention known symbols
only. -/
inductive Expr.StatesAlike (P : Term → Term → Prop) (known : String → Prop) (node : Int) :
    Expr → Expr → Prop
  /-- The expressions are equal. -/
  | same {expr : Expr} : StatesAlike P known node expr expr
  /-- The expressions state the extent in different words. -/
  | reworded {expr expr' : Expr} {t t' : Term} : lowerAxis node expr = .ok t →
    lowerAxis node expr' = .ok t' → (∀ name ∈ t.symbols, known name) →
    (∀ name ∈ t'.symbols, known name) → P t t' → StatesAlike P known node expr expr'

/-- No shape is declared, or two shapes with as many axes whose expressions state the same
extents. -/
def DeclaresAlike (P : Term → Term → Prop) (known : String → Prop) (node : Int) :
    Option (List Expr) → Option (List Expr) → Prop :=
  Option.Rel (List.Forall₂ (Expr.StatesAlike P known node))

/-- Which of two terms is the first does not matter. -/
theorem Term.Rephrases.symm {t t' : Term} (h : t.Rephrases σ t') : t'.Rephrases σ t :=
  ⟨h.compares.symm, fun n => (h.constant n).symm⟩

/-- Equivalent terms that are not simplified to integers state one extent. -/
theorem Term.Rephrases.of_simplify {t t' u u' : Term} (h : t.ComparesAs σ true t')
    (hu : t.simplify = .ok u) (hu' : t'.simplify = .ok u')
    (hconstant : ∀ n, u ≠ .const n ∧ u' ≠ .const n) : t.Rephrases σ t' :=
  ⟨h, fun n => by simp [hu, hu', hconstant n]⟩

/-- Which of two expressions is the first does not matter. -/
theorem Expr.StatesAlike.symm (h : Expr.StatesAlike (Term.Rephrases σ) known node expr expr') :
    Expr.StatesAlike (Term.Rephrases σ) known node expr' expr := by
  cases h with
  | same => exact .same
  | reworded ht ht' hknown hknown' hstates =>
    exact .reworded ht' ht hknown' hknown hstates.symm

/-- Which of two declared shapes is the first does not matter. -/
theorem DeclaresAlike.symm {shape shape' : Option (List Expr)}
    (h : DeclaresAlike (Term.Rephrases σ) known node shape shape') :
    DeclaresAlike (Term.Rephrases σ) known node shape' shape := by
  cases h with
  | none => exact .none
  | some hexprs => exact .some (hexprs.flip.imp fun _ _ hexpr => hexpr.symm)

/-- Two terms of declared shapes are equal, or they state one extent in different words. -/
def Term.StatesAlike (σ : Substitution) (known : String → Prop) (t t' : Term) : Prop :=
  t' = t ∨ (∀ name ∈ t.symbols, known name) ∧ (∀ name ∈ t'.symbols, known name) ∧
    t.Rephrases σ t'

/-- Terms of an author that state one extent are reworded. -/
theorem Term.StatesAlike.rewords {t t' : Term} (h : t.StatesAlike σ known t') (hσ : σ.Lowers)
    (ht : t.Written) (ht' : t'.Written) : t.Rewords σ known t' := by
  rcases h with rfl | ⟨hknown, hknown', hstates⟩
  · exact .same ht
  · obtain ⟨hdefined, hsame⟩ :=
      (comparesAs_true_iff hσ ht.lowers ht'.lowers).mp hstates.compares
    exact .restated ⟨ht, ht', hknown, hknown', hdefined, hsame, hstates.constant⟩

/-- Declared shapes whose expressions state the same extents are lowered to such. -/
theorem lowersTo_declaresAlike (σ : Substitution) (known : String → Prop) (node : Int) :
    LowersTo (DeclaresAlike (Term.Rephrases σ) known node) (Option.Rel fun s s' =>
      List.Forall₂ (Term.StatesAlike σ known) s.axes s'.axes) node := by
  intro shape shape' declared halike hlowers
  cases halike with
  | none =>
    cases hlowers
    exact ⟨none, .none, .none⟩
  | some hexprs =>
    cases hlowers with
    | some haxes =>
      have haxis (e e' : Expr) (t : Term)
          (he : e.StatesAlike (Term.Rephrases σ) known node e') (ht : lowerAxis node e = .ok t) :
          ∃ t', lowerAxis node e' = .ok t' ∧ t.StatesAlike σ known t' := by
        cases he with
        | same => exact ⟨t, ht, Or.inl rfl⟩
        | reworded hu hu' hknown hknown' hstates =>
          obtain rfl := Except.ok.inj (ht.symm.trans hu)
          exact ⟨_, hu', Or.inr ⟨hknown, hknown', hstates⟩⟩
      obtain ⟨axes', haxes', hstates⟩ := exists_forall₂_image haxis hexprs haxes
      exact ⟨some ⟨axes'⟩, .some haxes', .some hstates⟩

/-- Shapes of an author whose extents are stated alike are reworded. -/
theorem declaresReworded_of_statesAlike (hσ : σ.Lowers)
    (h : Option.Rel (fun s s' => List.Forall₂ (Term.StatesAlike σ known) s.axes s'.axes) a b)
    (ha : ∀ s ∈ a, s.Written) (hb : ∀ s ∈ b, s.Written) : DeclaresReworded σ known a b := by
  cases h with
  | none => exact .none
  | @some s s' haxes =>
    exact .some (forall₂_imp_of_mem haxes (ha s rfl) (hb s' rfl) fun _ _ hstates hx hy =>
      hstates.rewords hσ hx hy)

/-- What can be written declares shapes that can be written. -/
theorem PlannedNode.Written.declares {planned : PlannedNode} (h : planned.Written) :
    planned.Declares Shape.Written := ⟨h.declared, h.checkpoints⟩

/-- Reworded shapes are equivalent. -/
theorem Shape.Rewords.equivalentUnder {s s' : Shape} (h : s.Rewords σ known s') (hσ : σ.Lowers) :
    s.EquivalentUnder σ s' :=
  h.imp fun _ _ hxy => hxy.sameUnder.equivalentUnder hσ hxy.lowers.1 hxy.lowers.2

/-- Reworded steps are alike. -/
theorem LayerStep.Rewords.alike {s s' : LayerStep} (h : s.Rewords σ known s') (hσ : σ.Lowers) :
    s.Alike σ s' where
  layerType := h.layerType
  params := h.params.related.imp fun _ _ hxy =>
    hxy.sameUnder.equivalentUnder hσ hxy.lowers.1 hxy.lowers.2
  input := h.input.equivalentUnder hσ
  output := h.output.equivalentUnder hσ

/-- A program whose declared shapes are reworded compiles to a graph that is alike. -/
theorem Compiles.reword
    (h : Compiles options Standard.registry program definition model plan bindings nodes)
    (hprogram : program.Authored) (hprogram' : program'.Authored)
    (htrust : options.trustDeclaredShapes = false) (hblock : program.model = some block)
    (hblock' : program'.model = some block') (himports : program'.imports = program.imports)
    (hknown : ∀ name, known name → block.Introduces name)
    (hredeclares :
      block.Redeclares (DeclaresAlike (Term.Rephrases (.ofTerms bindings)) known) block') :
    ∃ graph', Shapeline.compileGraph options Standard.registry program' = .ok graph' ∧
      (assembleGraph model nodes).Alike (.ofTerms bindings) graph' := by
  obtain ⟨warnings, hresolved⟩ := h.resolved
  have hmodel := h.model_written Standard.written_registry hprogram
  have hσ : (Substitution.ofTerms bindings).Lowers := fun name t ht =>
    ((h.bindings_written hmodel).written name t ht).lowers
  have hwritten := written_planModel hmodel h.planned
  obtain ⟨definition', plan', hlowered, hdefinition, hplanned, hrestated, hinput⟩ :=
    h.replan hredeclares (fun index => lowersTo_declaresAlike _ known index) nofun hblock hblock'
      himports
  have hwritten' := written_planModel (written_resolve Standard.written_registry
    (written_lowerProgram hprogram' hlowered) (hdefinition.resolve hresolved)) hplanned
  have hplan : List.Forall₂ (PlannedNode.Restated (DeclaresReworded (.ofTerms bindings) known))
      plan plan' :=
    forall₂_imp_of_mem hrestated hwritten hwritten' fun _ _ hp hw hw' =>
      hp.imp hw.declares hw'.declares fun _ _ => declaresReworded_of_statesAlike hσ
  have hsteps : ∀ planned ∈ plan, ∀ step ∈ planned.steps,
      step.params.Written ∧ step.layerType.FixesAxes := fun planned hmem step hstep =>
    ⟨(hwritten planned hmem).steps step hstep,
      Standard.fixesAxes (mem_layers_of_planModel hresolved h.planned planned hmem step hstep)⟩
  have hshape : ∀ shape, plan.head?.bind (·.declared) = some shape →
      shape.Rewords (.ofTerms bindings) known shape := by
    intro shape hshape
    obtain ⟨first, hfirst, hdeclared⟩ := Option.bind_eq_some_iff.mp hshape
    have haxes := (hwritten first (List.mem_of_mem_head? hfirst)).declared shape hdeclared
    exact List.forall₂_same.mpr fun x hx => .same (haxes x hx)
  obtain ⟨nodes', hinferred, hrelated⟩ :=
    h.reinfer htrust hplan hinput (simulates_rewords known hσ) hsteps hshape
  have hsymbols : ∀ n ∈ nodes', ∀ name ∈ n.symbols,
      name ∈ (assembleGraph model nodes).declaredSymbols := by
    intro n' hn' name hname
    obtain ⟨n, hn, hnn⟩ := exists_of_mem_right hrelated hn'
    rcases hnn.symbols_rewords hname with hname | hname
    · exact declared_of_checkNodes h.checked hn hname
    · exact h.declared_of_introduces hblock (hknown name hname)
  have hcompiles := h.recheck hlowered hdefinition hplanned hinferred
    (hrelated.imp fun _ _ hn => hn.resembles_rewords) hsymbols
  exact ⟨_, hcompiles.compileGraph, alike_of_related (resolve_eq_ok hresolved).1 hdefinition
    hrelated (fun _ _ hab => hab.equivalentUnder hσ) fun _ _ hs => hs.alike hσ⟩

/-- **How a declared shape is written does not matter, up to constants.** Let two programs differ in
the expressions of declared shapes only, up to the shape of the input, and let different expressions
be lowered to terms that mention introduced symbols only, that are found equivalent under the values
of the variables and that are simplified to an integer together. Then one program compiles if and
only if the other does, and the graphs have the same nodes and steps, with parameters and shapes
that are equivalent under these values. -/
theorem reworded_compile_alike {options : Options} {program program' : Program}
    {block block' : ModelBlock} {bindings : Dictionary Term} (hprogram : program.Authored)
    (hprogram' : program'.Authored) (htrust : options.trustDeclaredShapes = false)
    (hblock : program.model = some block) (hblock' : program'.model = some block')
    (himports : program'.imports = program.imports) (hbindings : block.bindings = .ok bindings)
    (hredeclares : block.Redeclares
      (DeclaresAlike (Term.Rephrases (.ofTerms bindings)) block.Introduces) block') :
    ((∃ graph, compileGraph options Standard.registry program = .ok graph) ↔
      ∃ graph', compileGraph options Standard.registry program' = .ok graph') ∧
    ∀ graph graph', compileGraph options Standard.registry program = .ok graph →
      compileGraph options Standard.registry program' = .ok graph' →
      graph.Alike (.ofTerms bindings) graph' := by
  have hforth {graph : Graph} (h : compileGraph options Standard.registry program = .ok graph) :
      ∃ graph', compileGraph options Standard.registry program' = .ok graph' ∧
        graph.Alike (.ofTerms bindings) graph' := by
    obtain ⟨definition, model, plan, found, nodes, hcompiles, rfl⟩ := compiles_of_compileGraph h
    obtain rfl := Except.ok.inj ((hcompiles.bindings_eq hblock).symm.trans hbindings)
    exact hcompiles.reword hprogram hprogram' htrust hblock hblock' himports (fun _ h => h)
      hredeclares
  refine ⟨⟨?_, ?_⟩, fun graph graph' h h' => ?_⟩
  · rintro ⟨graph, h⟩
    obtain ⟨graph', h', -⟩ := hforth h
    exact ⟨graph', h'⟩
  · rintro ⟨graph', h⟩
    obtain ⟨definition, model, plan, found, nodes, hcompiles, rfl⟩ := compiles_of_compileGraph h
    have hvalues := hcompiles.bindings_eq hblock'
    rw [hredeclares.bindings_eq, hbindings] at hvalues
    obtain rfl := Except.ok.inj hvalues
    obtain ⟨graph, hgraph, -⟩ := hcompiles.reword hprogram' hprogram htrust hblock' hblock
      himports.symm (fun name hname => hredeclares.introduces hname)
      (hredeclares.symm fun _ _ _ h => h.symm)
    exact ⟨graph, hgraph⟩
  · obtain ⟨found, hfound, halike⟩ := hforth h
    exact Except.ok.inj (hfound.symm.trans h') ▸ halike

/-- A model that flattens the output of a convolution whose channels nobody has set. The names of
its variable and the extents that are declared for the first layer can be chosen. -/
def flattenedModel (name : String) (channels extent : Expr) : ModelBlock where
  name := "Flattened"
  declarations := [{ description := name, value := some (.literal (.int 10)) }]
  lines := [
    { index := 0, shape := some [.identifier "c", .literal (.int 1)] },
    { index := 1, calls := [{ name := "ReLU" }], shape := some [channels, extent] },
    { index := 2
      calls := [
        { name := "Conv1d"
          overrides := [{ description := "K", value := some (.literal (.int 1)) }] },
        { name := "Transform" }]
      shape := some [.literal (.int 8)] }]

/-- The model with the layer types that it needs. -/
def flattenedProgram (name : String) (channels extent : Expr) : Program where
  imports := ["ReLU", "Conv1d", "Transform"]
  model := some (flattenedModel name channels extent)

/-- Extents of the model that are lowered to related terms of its symbols are stated alike. -/
theorem redeclares_flattenedModel {P : Term → Term → Prop} {name : String}
    {channels channels' extent extent' : Expr} {t t' u u' : Term}
    (ht : lowerAxis 1 channels = .ok t) (ht' : lowerAxis 1 channels' = .ok t')
    (hu : lowerAxis 1 extent = .ok u) (hu' : lowerAxis 1 extent' = .ok u')
    (hnames : ∀ x ∈ [t, t', u, u'], ∀ other ∈ x.symbols, other ∈ [name, "c"])
    (htt' : P t t') (huu' : P u u') :
    (flattenedModel name channels extent).Redeclares
      (DeclaresAlike P (flattenedModel name channels extent).Introduces)
      (flattenedModel name channels' extent') := by
  have hknown : ∀ x ∈ [t, t', u, u'], ∀ other ∈ x.symbols,
      (flattenedModel name channels extent).Introduces other := by
    intro x hx other hother
    rcases List.mem_pair.mp (hnames x hx other hother) with rfl | rfl
    · exact Or.inl ⟨_, List.mem_singleton_self _, rfl⟩
    · exact Or.inr ⟨_, _, rfl, rfl, .identifier "c", List.mem_cons_self, .sym "c", rfl, by decide⟩
  refine ⟨rfl, .cons ⟨⟨rfl, .some ?_⟩, fun _ => rfl, .none⟩ (.cons ⟨⟨rfl, .some ?_⟩, ?_, .none⟩
    (.cons ⟨⟨rfl, .some ?_⟩, fun _ => rfl, .none⟩ .nil))⟩
  · exact List.forall₂_same.mpr fun _ _ => .same
  · exact .cons (.reworded ht ht' (hknown t (by simp)) (hknown t' (by simp)) htt')
      (.cons (.reworded hu hu' (hknown u (by simp)) (hknown u' (by simp)) huu') .nil)
  · exact fun h => (Int.lt_irrefl 1 h).elim
  · exact List.forall₂_same.mpr fun _ _ => .same

/-- The channels, multiplied by the variable and divided by its value. -/
def rescaledChannels : Expr :=
  .binary "/" (.binary "*" (.identifier "c") (.identifier "N")) (.literal (.int 10))

/-- One as a difference. -/
def unitDifference : Expr := .binary "-" (.literal (.int 2)) (.literal (.int 1))

/-- The model compiles in both wordings, and the graphs are alike. -/
theorem flattenedProgram_alike :
    (flattenedProgram "N" (.identifier "c") (.literal (.int 1))).Authored ∧
    (flattenedProgram "N" rescaledChannels unitDifference).Authored ∧
    ∃ bindings,
      (flattenedModel "N" (.identifier "c") (.literal (.int 1))).bindings = .ok bindings ∧
      (flattenedModel "N" (.identifier "c") (.literal (.int 1))).Redeclares
        (DeclaresAlike (Term.Rephrases (.ofTerms bindings))
          (flattenedModel "N" (.identifier "c") (.literal (.int 1))).Introduces)
        (flattenedModel "N" rescaledChannels unitDifference) ∧
      ∃ graph graph',
        compileGraph {} Standard.registry
          (flattenedProgram "N" (.identifier "c") (.literal (.int 1))) = .ok graph ∧
        compileGraph {} Standard.registry
          (flattenedProgram "N" rescaledChannels unitDifference) = .ok graph' ∧
        graph.Alike (.ofTerms bindings) graph' := by
  have hprogram : (flattenedProgram "N" (.identifier "c") (.literal (.int 1))).Authored := by
    decide +kernel
  have hprogram' : (flattenedProgram "N" rescaledChannels unitDifference).Authored := by
    decide +kernel
  have hredeclares : (flattenedModel "N" (.identifier "c") (.literal (.int 1))).Redeclares
      (DeclaresAlike (Term.Rephrases (.ofTerms (.ofList [("N", .const 10)])))
        (flattenedModel "N" (.identifier "c") (.literal (.int 1))).Introduces)
      (flattenedModel "N" rescaledChannels unitDifference) :=
    redeclares_flattenedModel rfl rfl rfl rfl (by decide)
      (.of_simplify ⟨_, _, rfl, rfl, by decide +kernel⟩ rfl rfl (by simp))
      ⟨⟨_, _, rfl, rfl, by decide +kernel⟩, fun _ => Iff.rfl⟩
  obtain ⟨graph, hgraph⟩ := exists_eq_ok_iff.mpr (show (compileGraph {} Standard.registry
    (flattenedProgram "N" (.identifier "c") (.literal (.int 1)))).toOption.isSome = true by
    decide +kernel)
  obtain ⟨hcompiles, halike⟩ := reworded_compile_alike hprogram hprogram'
    (show ({} : Options).trustDeclaredShapes = false from rfl) rfl rfl rfl rfl hredeclares
  obtain ⟨graph', hgraph'⟩ := hcompiles.mp ⟨graph, hgraph⟩
  exact ⟨hprogram, hprogram', _, rfl, hredeclares, graph, graph', hgraph, hgraph',
    halike graph graph' hgraph hgraph'⟩

/-- The name of the placeholder for the output channels that nobody has set. -/
def unsetChannels : String := placeholderName "Conv1d" 2 0 "Co"

/-- The channels, multiplied and divided by the output channels less eight. -/
def scaledChannels : Expr :=
  .binary "/" (.binary "*" (.identifier "c")
      (.binary "-" (.identifier unsetChannels) (.literal (.int 8))))
    (.binary "-" (.identifier unsetChannels) (.literal (.int 8)))

/-- The variable less nine, which is one. -/
def lessNine : Expr := .binary "-" (.identifier "N") (.literal (.int 9))

/-- Extents that are equivalent under the values of the variables can still decide on whether a
program compiles: if one of them is simplified to an integer and the other is not, and also if a
variable is named like a placeholder. -/
theorem equivalent_declarations_matter :
    ((flattenedProgram "N" (.identifier "c") (.literal (.int 1))).Authored ∧
      (flattenedProgram "N" (.identifier "c") lessNine).Authored ∧
      (∃ bindings,
        (flattenedModel "N" (.identifier "c") (.literal (.int 1))).bindings = .ok bindings ∧
        (flattenedModel "N" (.identifier "c") (.literal (.int 1))).Redeclares
          (DeclaresAlike (Term.ComparesAs (.ofTerms bindings) true)
            (flattenedModel "N" (.identifier "c") (.literal (.int 1))).Introduces)
          (flattenedModel "N" (.identifier "c") lessNine)) ∧
      (∃ graph, compileGraph {} Standard.registry
        (flattenedProgram "N" (.identifier "c") (.literal (.int 1))) = .ok graph) ∧
      ¬ ∃ graph, compileGraph {} Standard.registry
        (flattenedProgram "N" (.identifier "c") lessNine) = .ok graph) ∧
    (∃ bindings,
      (flattenedModel unsetChannels (.identifier "c") (.literal (.int 1))).bindings =
        .ok bindings ∧
      (flattenedModel unsetChannels (.identifier "c") (.literal (.int 1))).Redeclares
        (DeclaresAlike (Term.Rephrases (.ofTerms bindings))
          (flattenedModel unsetChannels (.identifier "c") (.literal (.int 1))).Introduces)
        (flattenedModel unsetChannels scaledChannels (.literal (.int 1)))) ∧
    (∃ graph, compileGraph {} Standard.registry
      (flattenedProgram unsetChannels (.identifier "c") (.literal (.int 1))) = .ok graph) ∧
    ¬ ∃ graph, compileGraph {} Standard.registry
      (flattenedProgram unsetChannels scaledChannels (.literal (.int 1))) = .ok graph := by
  refine ⟨⟨by decide +kernel, by decide +kernel, ⟨_, rfl, ?_⟩, ?_, ?_⟩, ⟨_, rfl, ?_⟩, ?_, ?_⟩
  · exact redeclares_flattenedModel rfl rfl rfl rfl (by decide)
      ⟨_, _, rfl, rfl, by decide +kernel⟩ ⟨_, _, rfl, rfl, by decide +kernel⟩
  · exact exists_eq_ok_iff.mpr (by decide +kernel)
  · exact mt exists_eq_ok_iff.mp (by decide +kernel)
  · exact redeclares_flattenedModel rfl rfl rfl rfl (by decide +kernel)
      (.of_simplify ⟨_, _, rfl, rfl, by decide +kernel⟩ rfl rfl (by simp))
      ⟨⟨_, _, rfl, rfl, by decide +kernel⟩, fun _ => Iff.rfl⟩
  · exact exists_eq_ok_iff.mpr (by decide +kernel)
  · exact mt exists_eq_ok_iff.mp (by decide +kernel)

end Shapeline
