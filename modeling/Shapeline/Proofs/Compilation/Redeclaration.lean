import Shapeline.Proofs.Compilation.Stages
import Shapeline.Proofs.Redeclaration.Planning
import Shapeline.Proofs.Rule.Correspondence

/-!
# Compiling under other declarations

Two programs that differ in declared shapes only go through the same stages. If the shapes that
inference carries on stay related and the symbols stay declared, then the second program compiles
whenever the first does, to a graph with related steps and shapes.
-/

namespace Shapeline

variable {options : Options} {registry : Registry} {program program' : Program}
  {definition definition' : Definition} {model : ResolvedModel} {plan plan' : List PlannedNode}
  {bindings : Dictionary Term} {nodes nodes' : List GraphNode}
  {W : Option Shape → Option Shape → Prop} {P : PlannedStep → Prop} {R : Shape → Shape → Prop}
  {S : LayerStep → LayerStep → Prop}

/-- A program that goes through all stages is built. The warnings are those of resolution and of
inference. -/
theorem Compiles.build {warnings : List Warning}
    (h : Compiles options registry program definition model plan bindings nodes)
    (hresolved : resolve registry options.warnUnusedImports definition = .ok (model, warnings)) :
    (buildProgram options registry program).outcome = .ok (assembleGraph model nodes) ∧
      (buildProgram options registry program).warnings = warnings ++
        (infer ⟨options.trustDeclaredShapes, bindings⟩ plan).report.warnings := by
  have hinfer : (inferGraph options model plan).outcome = .ok (assembleGraph model nodes) ∧
      (inferGraph options model plan).warnings =
        (infer ⟨options.trustDeclaredShapes, bindings⟩ plan).report.warnings := by
    unfold inferGraph
    rw [h.bound]
    dsimp only
    rw [h.inferred.1]
    refine ⟨?_, rfl⟩
    show checkGraph (assembleGraph model nodes) _ = _
    unfold checkGraph
    rw [h.checked, h.inferred.2]
    rfl
  have hplan : (planGraph options model).outcome = .ok (assembleGraph model nodes) ∧
      (planGraph options model).warnings =
        (infer ⟨options.trustDeclaredShapes, bindings⟩ plan).report.warnings := by
    unfold planGraph
    rw [h.planned]
    exact hinfer
  unfold buildProgram
  rw [h.lowered]
  dsimp only
  unfold buildGraph
  rw [hresolved]
  exact ⟨hplan.1, congrArg (warnings ++ ·) hplan.2⟩

/-- A program that goes through all stages compiles. -/
theorem Compiles.compileGraph
    (h : Compiles options registry program definition model plan bindings nodes) :
    compileGraph options registry program = .ok (assembleGraph model nodes) := by
  obtain ⟨warnings, hresolved⟩ := h.resolved
  exact mapError_eq_ok_iff.mpr (h.build hresolved).1

/-- The stages up to the plan, for a program with other declarations. -/
theorem Compiles.replan {Q : Int → Option (List Expr) → Option (List Expr) → Prop}
    {block block' : ModelBlock}
    (h : Compiles options registry program definition model plan bindings nodes)
    (hredeclares : block.Redeclares Q block') (hQ : ∀ index, LowersTo (Q index) W index)
    (hW : ∀ declared, ¬ W none (some declared)) (hblock : program.model = some block)
    (hblock' : program'.model = some block') (himports : program'.imports = program.imports) :
    ∃ definition' plan', lowerProgram program' = .ok definition' ∧
      definition.Redeclares W definition' ∧
      planModel { model with definition := definition' } = .ok plan' ∧
      List.Forall₂ (PlannedNode.Restated W) plan plan' ∧
      plan'.head?.bind (·.declared) = plan.head?.bind (·.declared) := by
  obtain ⟨warnings, hresolved⟩ := h.resolved
  obtain ⟨definition', hlowered, hdefinition⟩ :=
    hredeclares.lowerProgram hQ hblock hblock' himports h.lowered
  obtain ⟨plan', hplan, hrestated, hinput⟩ :=
    hdefinition.planModel (resolve_eq_ok hresolved).1 hW h.planned
  exact ⟨definition', plan', hlowered, hdefinition, hplan, hrestated, hinput⟩

/-- Inference of a plan with other declarations makes related nodes. -/
theorem Compiles.reinfer
    (h : Compiles options registry program definition model plan bindings nodes)
    (htrust : options.trustDeclaredShapes = false)
    (hplan : List.Forall₂ (PlannedNode.Restated W) plan plan')
    (hhead : plan'.head?.bind (·.declared) = plan.head?.bind (·.declared))
    (hsim : Simulates ⟨options.trustDeclaredShapes, bindings⟩ W P R S)
    (hsteps : ∀ planned ∈ plan, ∀ step ∈ planned.steps, P step)
    (hinput : ∀ shape, plan.head?.bind (·.declared) = some shape → R shape shape) :
    ∃ nodes', (infer ⟨options.trustDeclaredShapes, bindings⟩ plan').Yields [] (nodes', true) ∧
      List.Forall₂ (GraphNode.Related R S) nodes nodes' := by
  have hordered : ∀ planned ∈ plan, planned.checkpoints.Pairwise (·.after ≤ ·.after) := by
    intro planned hplanned
    obtain ⟨_, _, _, hspec⟩ := exists_of_mem_right (planModel_eq_ok h.planned).1 hplanned
    exact (planNode_eq_ok hspec).2.1.pairwise
  obtain ⟨-, first, rest, shape, rfl, hdeclared⟩ := planModel_eq_ok h.planned
  cases hplan with
  | @cons _ first' _ rest' hfirst hrest =>
    have hdeclared' : first'.declared = some shape := hhead.trans hdeclared
    obtain ⟨others, hothers, rfl⟩ := (yields_infer_cons_iff hdeclared).mp h.inferred
    have hshape := hinput shape hdeclared
    obtain ⟨-, others', hothers', hrelated⟩ := hsim.inferNodes htrust hrest
      (List.forall_mem_cons.mp hsteps).2 (List.forall_mem_cons.mp hordered).2 hshape hothers
    refine ⟨inputNode first' shape :: others',
      (yields_infer_cons_iff hdeclared').mpr ⟨others', hothers', rfl⟩, .cons ?_ hrelated⟩
    exact ⟨rfl, hfirst.label, rfl, .nil, hshape, hshape, hshape⟩

/-- The symbols of the input stay. -/
theorem inputSymbols_eq_of_redeclares (hmodel : model.definition = definition)
    (hdefinition : definition.Redeclares W definition') :
    inputSymbols { model with definition := definition' } = inputSymbols model := by
  unfold inputSymbols
  rw [show ({ model with definition := definition' } : ResolvedModel).definition.inputShape =
    model.definition.inputShape by rw [hmodel]; exact hdefinition.inputShape_eq]

/-- The symbols that the graph declares stay. -/
theorem declaredSymbols_eq_of_redeclares (hmodel : model.definition = definition)
    (hdefinition : definition.Redeclares W definition') :
    (assembleGraph { model with definition := definition' } nodes').declaredSymbols =
      (assembleGraph model nodes).declaredSymbols := by
  show Names.union _ (Names.ofList (inputSymbols { model with definition := definition' })) = _
  rw [inputSymbols_eq_of_redeclares hmodel hdefinition]
  rfl

/-- A program with other declarations goes through all stages if its nodes resemble those of the
first program and mention declared symbols only. -/
theorem Compiles.recheck
    (h : Compiles options registry program definition model plan bindings nodes)
    (hlowered : lowerProgram program' = .ok definition')
    (hdefinition : definition.Redeclares W definition')
    (hplanned : planModel { model with definition := definition' } = .ok plan')
    (hinferred : (infer ⟨options.trustDeclaredShapes, bindings⟩ plan').Yields [] (nodes', true))
    (hresembles : List.Forall₂ GraphNode.Resembles nodes nodes')
    (hsymbols : ∀ n ∈ nodes', ∀ name ∈ n.symbols,
      name ∈ (assembleGraph model nodes).declaredSymbols) :
    Compiles options registry program' definition' { model with definition := definition' } plan'
      bindings nodes' := by
  obtain ⟨warnings, hresolved⟩ := h.resolved
  refine ⟨hlowered, ⟨warnings, hdefinition.resolve hresolved⟩, hplanned, h.bound, hinferred, ?_⟩
  refine checkNodes_of_resembles ?_ hresembles .none ?_
  · rw [declaredSymbols_eq_of_redeclares (resolve_eq_ok hresolved).1 hdefinition]
    exact h.checked
  · rw [declaredSymbols_eq_of_redeclares (resolve_eq_ok hresolved).1 hdefinition]
    exact hsymbols

/-- Two terms are found equivalent wherever the substitution can be made in both. -/
def Term.EquivalentUnder (σ : Substitution) (a b : Term) : Prop :=
  ∀ a' b', a.substitute σ = .ok a' → b.substitute σ = .ok b' → a'.equivalent b' = .ok true

/-- Two shapes have as many axes, and these are found equivalent wherever the substitution can be
made in both. -/
def Shape.EquivalentUnder (σ : Substitution) (a b : Shape) : Prop :=
  List.Forall₂ (Term.EquivalentUnder σ) a.axes b.axes

/-- Two steps apply one layer type, with equal parameters up to equivalent terms, from and to
equivalent shapes. -/
structure LayerStep.Alike (σ : Substitution) (s s' : LayerStep) : Prop where
  /-- The layer types are equal. -/
  layerType : s'.layerType = s.layerType
  /-- The parameters are equal up to equivalent terms. -/
  params : s.params.Related (Term.EquivalentUnder σ) s'.params
  /-- The inputs are equivalent. -/
  input : s.input.EquivalentUnder σ s'.input
  /-- The outputs are equivalent. -/
  output : s.output.EquivalentUnder σ s'.output

/-- Two graphs have the same nodes with the same steps, up to equivalent shapes and parameters. -/
structure Graph.Alike (σ : Substitution) (g g' : Graph) : Prop where
  /-- The names are equal. -/
  name : g'.name = g.name
  /-- The variables are equal. -/
  hyperparameters : g'.hyperparameters = g.hyperparameters
  /-- The symbols of the input are equal. -/
  inputSymbols : g'.inputSymbols = g.inputSymbols
  /-- The nodes have equal numbers and labels, alike steps and equivalent shapes. -/
  nodes : List.Forall₂ (GraphNode.Related (Shape.EquivalentUnder σ) (LayerStep.Alike σ)) g.nodes
    g'.nodes

variable {σ : Substitution} {a b : Term}

/-- Terms that lower and are the same under a substitution are equivalent under it. -/
theorem Term.SameUnder.equivalentUnder (h : SameUnder σ a b) (hσ : σ.Lowers) (ha : a.Lowers)
    (hb : b.Lowers) : a.EquivalentUnder σ b :=
  fun _ _ ha' hb' => h.equivalent hσ ha hb ha' hb'

/-- A relation between nodes may be replaced by a weaker one. -/
theorem GraphNode.Related.imp {R' : Shape → Shape → Prop} {S' : LayerStep → LayerStep → Prop}
    {n n' : GraphNode} (h : n.Related R S n') (hR : ∀ a b, R a b → R' a b)
    (hS : ∀ s s', S s s' → S' s s') : n.Related R' S' n' :=
  ⟨h.index, h.label, h.submodel, h.steps.imp hS, hR _ _ h.input, hR _ _ h.inferred,
    hR _ _ h.output⟩

/-- Related nodes make alike graphs if the relations imply equivalence. -/
theorem alike_of_related (hmodel : model.definition = definition)
    (hdefinition : definition.Redeclares W definition')
    (hnodes : List.Forall₂ (GraphNode.Related R S) nodes nodes')
    (hR : ∀ a b, R a b → a.EquivalentUnder σ b) (hS : ∀ s s', S s s' → s.Alike σ s') :
    (assembleGraph model nodes).Alike σ
      (assembleGraph { model with definition := definition' } nodes') where
  name := by
    show definition'.name = model.definition.name
    rw [hdefinition.same, hmodel]
  hyperparameters := rfl
  inputSymbols := inputSymbols_eq_of_redeclares hmodel hdefinition
  nodes := hnodes.imp fun _ _ hn => hn.imp hR hS

end Shapeline
