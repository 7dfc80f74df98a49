import Shapeline.Proofs.Rule.Step

/-!
# The course of inference

What inference does to the chain of steps of a node is a sequence of two kinds of events: a step is
applied, or a declared shape is compared and carried on. Every run of inference that succeeds
decomposes into such events, together with the diagnostics that they record.
-/

namespace Shapeline

variable {settings : InferenceSettings} {planned : PlannedNode} {node : Int}
  {c d e start : Chain} {declared input : Shape} {what : String} {σ : Substitution}
  {errors : List Diagnostic}

/-- A substitution in a chain is one in its steps and its shape. -/
theorem Chain.substitute_eq_ok_iff :
    c.substitute σ = .ok d ↔ c.shape.substitute σ = .ok d.shape ∧
      List.Forall₂ (fun s t => s.substitute σ = .ok t) c.steps d.steps := by
  simp only [substitute, bind_eq_ok_iff, pure_eq_ok_iff, mapM_eq_ok_iff]
  constructor
  · rintro ⟨shape, hshape, steps, hsteps, rfl⟩
    exact ⟨hshape, hsteps⟩
  · rintro ⟨hshape, hsteps⟩
    exact ⟨_, hshape, _, hsteps, rfl⟩

/-- A chain stays as it is if nothing is replaced. -/
theorem Chain.substitute_eq_self (h : ∀ name, σ name = none) : c.substitute σ = .ok c := by
  have hterm (t : Term) : t.substitute σ = .ok t := Term.substitute_eq_self fun name _ => h name
  have hshape (s : Shape) : s.substitute σ = .ok s :=
    Shape.substitute_eq_self fun x _ => hterm x
  refine substitute_eq_ok_iff.mpr ⟨hshape _, List.forall₂_same.mpr fun s _ => ?_⟩
  refine LayerStep.substitute_eq_ok_iff.mpr ⟨rfl, ?_, hshape _, hshape _⟩
  refine Dictionary.traverse_eq_self fun entry _ => ?_
  cases entry.2 with
  | dim t => exact bind_eq_ok_iff.mpr ⟨t, hterm t, rfl⟩
  | _ => rfl

/-- A substitution keeps the layer types of the steps. -/
theorem Chain.layerTypes_of_substitute (h : c.substitute σ = .ok d) :
    d.steps.map (·.layerType) = c.steps.map (·.layerType) := by
  obtain ⟨_, hsteps⟩ := Chain.substitute_eq_ok_iff.mp h
  exact map_eq_map_of_forall₂
    (hsteps.flip.imp fun s t hst => (LayerStep.substitute_eq_ok_iff.mp hst).1)

/-- Binding the placeholders of a chain substitutes what the declared shape says about them. -/
theorem bindPlaceholders_yields_iff :
    (bindPlaceholders node c declared).Yields errors d ↔
      errors = [] ∧ c.substitute (c.shape.binding declared) = .ok d := by
  unfold bindPlaceholders
  dsimp only
  split
  · rename_i hempty
    have hnone (name : String) : c.shape.binding declared name = none := by
      have hentries : (c.shape.unify declared).entries = [] := by simpa using hempty
      rw [Shape.binding_eq, Substitution.ofTerms_eq_none_iff, Dictionary.get?, hentries]
      rfl
    rw [Reporting.yields_pure_iff, Chain.substitute_eq_self hnone]
    simp [eq_comm]
  · rw [Shape.binding_eq]
    simp only [Reporting.yields_bind_iff, Reporting.yields_record_iff,
      Reporting.yields_ofOutcome_iff]
    constructor
    · rintro ⟨_, _, _, rfl, ⟨rfl, hd⟩, rfl⟩
      exact ⟨rfl, hd⟩
    · rintro ⟨rfl, hd⟩
      exact ⟨(), _, _, rfl, ⟨rfl, hd⟩, rfl⟩

/-- The diagnostics about how the shape of a chain differs from a declared shape. -/
def discrepancyErrors (settings : InferenceSettings) (node : Int) (c : Chain) (declared : Shape)
    (what : String) : Option Discrepancy → List Diagnostic
  | none => []
  | some found => (reportDiscrepancy settings node c declared what found).errors

/-- Comparing a chain with a declared shape binds its placeholders and records how the shape then
differs. -/
theorem reconcile_yields_iff :
    (reconcile settings node c declared what).Yields errors d ↔
      c.substitute (c.shape.binding declared) = .ok d ∧
        ∃ found, discrepancy (.ofTerms settings.bindings) d.shape declared = .ok found ∧
          errors = discrepancyErrors settings node d declared what found := by
  simp only [reconcile, Reporting.yields_bind_iff, bindPlaceholders_yields_iff,
    Reporting.yields_ofOutcome_iff]
  constructor
  · rintro ⟨e, _, _, ⟨rfl, he⟩, ⟨found, _, _, ⟨rfl, hfound⟩, hrest, rfl⟩, rfl⟩
    cases found with
    | none =>
      obtain ⟨rfl, rfl⟩ := Reporting.yields_pure_iff.mp hrest
      exact ⟨he, none, hfound, rfl⟩
    | some found =>
      obtain ⟨_, _, _, hrecord, hpure, rfl⟩ := Reporting.yields_bind_iff.mp hrest
      obtain rfl := Reporting.yields_record_iff.mp hrecord
      obtain ⟨rfl, rfl⟩ := Reporting.yields_pure_iff.mp hpure
      exact ⟨he, some found, hfound, by simp [discrepancyErrors]⟩
  · rintro ⟨hd, found, hfound, rfl⟩
    refine ⟨d, [], _, ⟨rfl, hd⟩, ⟨found, [], _, ⟨rfl, hfound⟩, ?_, rfl⟩, rfl⟩
    cases found with
    | none => exact Reporting.yields_pure_iff.mpr ⟨rfl, rfl⟩
    | some found =>
      exact Reporting.yields_bind_iff.mpr ⟨(), _, _, Reporting.yields_record_iff.mpr rfl,
        Reporting.yields_pure_iff.mpr ⟨rfl, rfl⟩, (List.append_nil _).symm⟩

/-- Without diagnostics the shapes are found to be the same, unless declared shapes are trusted. -/
theorem matches_of_discrepancyErrors {found : Option Discrepancy} {b : Shape}
    (hfound : discrepancy σ c.shape b = .ok found) (htrust : settings.trustDeclared = false)
    (h : discrepancyErrors settings node c declared what found = []) : c.shape.Matches σ b := by
  cases found with
  | none => exact describes_of_discrepancy hfound
  | some found => simp [discrepancyErrors, reportDiscrepancy, htrust] at h

/-- Comparing a chain with a declared shape records nothing if the shapes match, and only then unless
declared shapes are trusted. -/
theorem reconcile_yields_nil_iff (htrust : settings.trustDeclared = false) :
    (reconcile settings node c declared what).Yields [] d ↔
      c.substitute (c.shape.binding declared) = .ok d ∧
        d.shape.Matches (.ofTerms settings.bindings) declared := by
  rw [reconcile_yields_iff]
  refine and_congr_right fun _ => ⟨?_, fun hmatches => ?_⟩
  · rintro ⟨found, hfound, hnil⟩
    exact matches_of_discrepancyErrors hfound htrust hnil.symm
  · exact ⟨none, discrepancy_eq_none_iff.mpr hmatches, rfl⟩

/-- A step that is applied has the layer type of the planned step and starts from the given
shape. -/
theorem applyStep_eq_ok {position : Nat} {step : PlannedStep} {shape : Shape} {s : LayerStep}
    (h : applyStep settings node position step shape = .ok s) :
    s.layerType = some step.layerType ∧ s.input = shape := by
  obtain ⟨outcome, _, h⟩ := bind_eq_ok_iff.mp h
  obtain rfl := pure_eq_ok_iff.mp h
  exact ⟨rfl, rfl⟩

/-- What becomes of a chain as steps are applied and declared shapes are carried on, with the
diagnostics about the declared shapes. -/
inductive Chain.Evolves (settings : InferenceSettings) (planned : PlannedNode) (start : Chain) :
    List Diagnostic → Chain → Prop
  /-- Nothing has happened. -/
  | refl : Evolves settings planned start [] start
  /-- A step is applied. -/
  | apply {errors c step position applied} : Evolves settings planned start errors c →
    step ∈ planned.steps → applyStep settings planned.index position step c.shape = .ok applied →
    Evolves settings planned start errors ⟨c.steps ++ [applied], applied.output⟩
  /-- A declared shape is compared and carried on. -/
  | check {errors c checkpoint found d} : Evolves settings planned start errors c →
    checkpoint ∈ planned.checkpoints →
    (reconcile settings planned.index c checkpoint.shape
      (checkpointName planned checkpoint)).Yields found d →
    Evolves settings planned start (errors ++ found) ⟨d.steps, checkpoint.shape⟩

/-- Checking the declared shapes that are due is a sequence of events. -/
theorem evolves_of_checkDue {done : Nat} {pending rest : List Checkpoint} {known : List Diagnostic}
    (hstart : c.Evolves settings planned known d)
    (hpending : ∀ checkpoint ∈ pending, checkpoint ∈ planned.checkpoints)
    (h : (checkDue settings planned done pending d).Yields errors (rest, e)) :
    c.Evolves settings planned (known ++ errors) e ∧
      ∀ checkpoint ∈ rest, checkpoint ∈ planned.checkpoints := by
  induction pending generalizing d known errors with
  | nil =>
    obtain ⟨rfl, heq⟩ := Reporting.yields_pure_iff.mp h
    obtain ⟨rfl, rfl⟩ := Prod.mk.inj heq
    rw [List.append_nil]
    exact ⟨hstart, by simp⟩
  | cons checkpoint others ih =>
    unfold checkDue at h
    split at h
    · obtain ⟨reconciled, first, second, hfirst, hsecond, rfl⟩ := Reporting.yields_bind_iff.mp h
      obtain ⟨hcheckpoint, hothers⟩ := List.forall_mem_cons.mp hpending
      have hnext := hstart.check hcheckpoint hfirst
      rw [← List.append_assoc]
      exact ih hnext hothers hsecond
    · obtain ⟨rfl, heq⟩ := Reporting.yields_pure_iff.mp h
      obtain ⟨rfl, rfl⟩ := Prod.mk.inj heq
      rw [List.append_nil]
      exact ⟨hstart, hpending⟩

/-- Applying the steps of a node is a sequence of events, which a failing rule ends with a further
diagnostic. -/
theorem evolves_of_runSteps {position : Nat} {steps : List PlannedStep} {pending : List Checkpoint}
    {known : List Diagnostic} {complete : Bool} (hstart : c.Evolves settings planned known d)
    (hsteps : ∀ step ∈ steps, step ∈ planned.steps)
    (hpending : ∀ checkpoint ∈ pending, checkpoint ∈ planned.checkpoints)
    (h : (runSteps settings planned position steps pending d).Yields errors (e, complete)) :
    ∃ found failed, c.Evolves settings planned (known ++ found) e ∧ errors = found ++ failed ∧
      (complete = true ↔ failed = []) := by
  induction steps generalizing position pending known d errors with
  | nil =>
    obtain ⟨rfl, heq⟩ := Reporting.yields_pure_iff.mp h
    obtain ⟨rfl, rfl⟩ := Prod.mk.inj heq
    exact ⟨[], [], by rwa [List.append_nil], rfl, by simp⟩
  | cons step others ih =>
    unfold runSteps at h
    split at h
    · rename_i applied happlied
      obtain ⟨⟨rest, d'⟩, first, second, hfirst, hsecond, rfl⟩ := Reporting.yields_bind_iff.mp h
      obtain ⟨hstep, hothers⟩ := List.forall_mem_cons.mp hsteps
      have hnext := hstart.apply hstep happlied
      obtain ⟨hd', hrest⟩ := evolves_of_checkDue hnext hpending hfirst
      obtain ⟨found, failed, he, rfl, hcomplete⟩ := ih hd' hothers hrest hsecond
      exact ⟨first ++ found, failed, by rwa [← List.append_assoc], by rw [List.append_assoc],
        hcomplete⟩
    · obtain ⟨_, first, second, hrecord, hpure, rfl⟩ := Reporting.yields_bind_iff.mp h
      obtain rfl := Reporting.yields_record_iff.mp hrecord
      obtain ⟨rfl, heq⟩ := Reporting.yields_pure_iff.mp hpure
      obtain ⟨rfl, rfl⟩ := Prod.mk.inj heq
      refine ⟨[], _, by rwa [List.append_nil], rfl, by simp⟩
    · cases (Reporting.yields_ofOutcome_iff.mp h).2

/-- How the chain of a node becomes a node of the graph: all steps could be applied and there is no
declared shape, or the declared shape is compared at the end, or a rule has failed. -/
inductive PlannedNode.Ends (settings : InferenceSettings) (planned : PlannedNode) (input : Shape)
    (c : Chain) : List Diagnostic → GraphNode → Prop
  /-- The shape of the chain is the output. -/
  | undeclared : planned.declared = none →
    Ends settings planned input c [] (planned.finish input c c.shape)
  /-- The declared shape is the output. -/
  | declared {shape errors d} : planned.declared = some shape →
    (reconcile settings planned.index c shape "declared shape").Yields errors d →
    Ends settings planned input c errors (planned.finish input d shape)
  /-- A rule has failed. -/
  | failed {errors output} : errors ≠ [] → fallbackShape planned = some output →
    Ends settings planned input c errors (planned.finish input c output)

/-- A node of the graph is made by events and an end. -/
theorem ends_of_inferNode {graphNode : GraphNode}
    (h : (inferNode settings planned input).Yields errors (some graphNode)) :
    ∃ c first second, Chain.Evolves settings planned ⟨[], input⟩ first c ∧
      planned.Ends settings input c second graphNode ∧ errors = first ++ second := by
  unfold inferNode at h
  obtain ⟨⟨pending, c⟩, first, rest, hfirst, hrest, herrors⟩ := Reporting.yields_bind_iff.mp h
  obtain ⟨⟨d, complete⟩, second, third, hsecond, hthird, hsplit⟩ :=
    Reporting.yields_bind_iff.mp hrest
  obtain ⟨hc, hpending⟩ := evolves_of_checkDue .refl (fun _ hmem => hmem) hfirst
  obtain ⟨found, failed, hd, hfailed, hcomplete⟩ :=
    evolves_of_runSteps hc (fun _ hmem => hmem) hpending hsecond
  subst herrors hsplit hfailed
  dsimp only at hthird
  cases complete with
  | false =>
    obtain ⟨rfl, heq⟩ := Reporting.yields_pure_iff.mp hthird
    obtain ⟨output, houtput, rfl⟩ := Option.map_eq_some_iff.mp heq.symm
    exact ⟨d, _, failed, hd, .failed (by simpa using hcomplete) houtput, by simp⟩
  | true =>
    obtain rfl := hcomplete.mp rfl
    rw [if_pos rfl] at hthird
    split at hthird
    · rename_i hnone
      obtain ⟨rfl, heq⟩ := Reporting.yields_pure_iff.mp hthird
      obtain rfl := Option.some.inj heq
      exact ⟨d, _, [], hd, .undeclared hnone, by simp⟩
    · rename_i shape hshape
      obtain ⟨d', fourth, fifth, hfourth, hpure, rfl⟩ := Reporting.yields_bind_iff.mp hthird
      obtain ⟨rfl, heq⟩ := Reporting.yields_pure_iff.mp hpure
      obtain rfl := Option.some.inj heq
      exact ⟨d, _, fourth, hd, .declared hshape hfourth, by simp⟩

/-- The nodes that inference makes of planned nodes, each from the output of the one before, until
the output of one is not known. -/
inductive Infers (settings : InferenceSettings) :
    List PlannedNode → Shape → List Diagnostic → List GraphNode → Prop
  /-- No node is left. -/
  | nil (input : Shape) : Infers settings [] input [] []
  /-- A node is made, and the others follow from its output. -/
  | cons {planned : PlannedNode} {rest : List PlannedNode} {input : Shape}
    {first second : List Diagnostic} {graphNode : GraphNode} {nodes : List GraphNode} :
    (inferNode settings planned input).Yields first (some graphNode) →
    Infers settings rest graphNode.output second nodes →
    Infers settings (planned :: rest) input (first ++ second) (graphNode :: nodes)
  /-- The output of a node is not known. -/
  | stop {planned : PlannedNode} {rest : List PlannedNode} {input : Shape}
    {errors : List Diagnostic} :
    (inferNode settings planned input).Yields errors none →
    Infers settings (planned :: rest) input errors []

/-- Inference of no nodes makes none. -/
theorem yields_inferNodes_nil_iff {nodes : List GraphNode} {complete : Bool} :
    (inferNodes settings [] input).Yields errors (nodes, complete) ↔
      errors = [] ∧ nodes = [] ∧ complete = true := by
  rw [inferNodes, Reporting.yields_pure_iff, Prod.mk.injEq]

/-- Inference of several nodes ends at the first if its output is not known. Else it goes on from
this output. -/
theorem yields_inferNodes_cons_iff {rest : List PlannedNode} {nodes : List GraphNode}
    {complete : Bool} :
    (inferNodes settings (planned :: rest) input).Yields errors (nodes, complete) ↔
      ((inferNode settings planned input).Yields errors none ∧ nodes = [] ∧ complete = false) ∨
      ∃ first second n others, (inferNode settings planned input).Yields first (some n) ∧
        (inferNodes settings rest n.output).Yields second (others, complete) ∧
        errors = first ++ second ∧ nodes = n :: others := by
  rw [inferNodes, Reporting.yields_bind_iff]
  constructor
  · rintro ⟨made, first, second, hmade, h, rfl⟩
    cases made with
    | none =>
      obtain ⟨_, third, fourth, hrecord, hpure, rfl⟩ := Reporting.yields_bind_iff.mp h
      obtain rfl := Reporting.yields_record_iff.mp hrecord
      obtain ⟨rfl, heq⟩ := Reporting.yields_pure_iff.mp hpure
      obtain ⟨rfl, rfl⟩ := Prod.mk.inj heq
      exact Or.inl ⟨by simpa using hmade, rfl, rfl⟩
    | some n =>
      obtain ⟨⟨others, done⟩, third, fourth, hothers, hpure, rfl⟩ :=
        Reporting.yields_bind_iff.mp h
      obtain ⟨rfl, heq⟩ := Reporting.yields_pure_iff.mp hpure
      obtain ⟨rfl, rfl⟩ := Prod.mk.inj heq
      exact Or.inr ⟨first, third, n, others, hmade, hothers, by simp, rfl⟩
  · rintro (⟨hmade, rfl, rfl⟩ | ⟨first, second, n, others, hmade, hothers, rfl, rfl⟩)
    · exact ⟨none, errors, [], hmade, Reporting.yields_bind_iff.mpr ⟨(), [], [],
        Reporting.yields_record_iff.mpr rfl, Reporting.yields_pure_iff.mpr ⟨rfl, rfl⟩, rfl⟩,
        (List.append_nil errors).symm⟩
    · exact ⟨some n, first, second, hmade, Reporting.yields_bind_iff.mpr ⟨(others, complete),
        second, [], hothers, Reporting.yields_pure_iff.mpr ⟨rfl, rfl⟩,
        (List.append_nil second).symm⟩, rfl⟩

/-- Inference makes one node after another. -/
theorem infers_of_inferNodes {plan : List PlannedNode} {nodes : List GraphNode} {complete : Bool}
    (h : (inferNodes settings plan input).Yields errors (nodes, complete)) :
    Infers settings plan input errors nodes := by
  induction plan generalizing input errors nodes complete with
  | nil =>
    obtain ⟨rfl, rfl, -⟩ := yields_inferNodes_nil_iff.mp h
    exact .nil input
  | cons planned rest ih =>
    rcases yields_inferNodes_cons_iff.mp h with
      ⟨hmade, rfl, -⟩ | ⟨first, second, n, others, hmade, hothers, rfl, rfl⟩
    · exact .stop hmade
    · exact .cons hmade (ih hothers)

/-- Every node is made by inference of the planned node at its place, from its own input. -/
theorem Infers.exists_inferNode {plan : List PlannedNode} {nodes : List GraphNode} {n : GraphNode}
    (h : Infers settings plan input errors nodes) {i : Nat} (hplanned : plan[i]? = some planned)
    (hn : nodes[i]? = some n) :
    ∃ found, (inferNode settings planned n.input).Yields found (some n) := by
  induction h generalizing i with
  | nil input => cases hn
  | @cons first rest input found _ made _ hmade _ ih =>
    cases i with
    | zero =>
      obtain rfl := Option.some.inj hplanned
      obtain rfl := Option.some.inj hn
      have hinput : made.input = input := by
        obtain ⟨_, _, _, _, hends, _⟩ := ends_of_inferNode hmade
        cases hends <;> rfl
      exact ⟨found, hinput ▸ hmade⟩
    | succ i => exact ih hplanned hn
  | stop _ => cases hn

/-- The input node comes before the nodes that are inferred from the shape it declares. -/
theorem yields_infer_cons_iff {first : PlannedNode} {rest : List PlannedNode} {shape : Shape}
    {nodes : List GraphNode} {complete : Bool} (hdeclared : first.declared = some shape) :
    (infer settings (first :: rest)).Yields errors (nodes, complete) ↔
      ∃ others, (inferNodes settings rest shape).Yields errors (others, complete) ∧
        nodes = inputNode first shape :: others := by
  simp only [infer, hdeclared]
  rw [Reporting.yields_bind_iff]
  constructor
  · rintro ⟨⟨others, done⟩, found, final, hothers, hpure, rfl⟩
    obtain ⟨rfl, heq⟩ := Reporting.yields_pure_iff.mp hpure
    obtain ⟨rfl, rfl⟩ := Prod.mk.inj heq
    exact ⟨others, by simpa using hothers, rfl⟩
  · rintro ⟨others, hothers, rfl⟩
    exact ⟨(others, complete), errors, [], hothers, Reporting.yields_pure_iff.mpr ⟨rfl, rfl⟩,
      (List.append_nil errors).symm⟩

/-- Inference of a plan makes the input node and then one node after another from the shape that the
first node declares. -/
theorem inferNodes_of_infer {plan : List PlannedNode} {nodes : List GraphNode} {complete : Bool}
    (hplan : ∃ first rest shape, plan = first :: rest ∧ first.declared = some shape)
    (h : (infer settings plan).Yields errors (nodes, complete)) :
    ∃ first rest shape others, plan = first :: rest ∧ first.declared = some shape ∧
      nodes = inputNode first shape :: others ∧
      (inferNodes settings rest shape).Yields errors (others, complete) := by
  obtain ⟨first, rest, shape, rfl, hdeclared⟩ := hplan
  obtain ⟨others, hothers, rfl⟩ := (yields_infer_cons_iff hdeclared).mp h
  exact ⟨first, rest, shape, others, rfl, hdeclared, rfl, hothers⟩

/-- A property of steps that every applied step has and that stays when placeholders are
replaced. -/
structure Persistent (settings : InferenceSettings) (P : LayerStep → Prop) : Prop where
  /-- A step that is applied has the property. -/
  applied : ∀ {node : Int} {position : Nat} {step : PlannedStep} {shape : Shape} {s : LayerStep},
    applyStep settings node position step shape = .ok s → P s
  /-- The property stays when placeholders are replaced. -/
  substituted : ∀ {σ : Substitution} {s s' : LayerStep}, P s → s.substitute σ = .ok s' → P s'

namespace Persistent

variable {P : LayerStep → Prop} (hP : Persistent settings P)

include hP

/-- The property stays in a comparison with a declared shape. -/
theorem reconcile (hc : ∀ s ∈ c.steps, P s)
    (h : (reconcile settings node c declared what).Yields errors d) : ∀ s ∈ d.steps, P s := by
  obtain ⟨hsubstitute, -⟩ := reconcile_yields_iff.mp h
  intro s' hs'
  obtain ⟨s, hs, hss'⟩ := exists_of_mem_right (Chain.substitute_eq_ok_iff.mp hsubstitute).2 hs'
  exact hP.substituted (hc s hs) hss'

/-- The steps of a chain have the property along a run. -/
theorem evolves (h : start.Evolves settings planned errors c) (hstart : ∀ s ∈ start.steps, P s) :
    ∀ s ∈ c.steps, P s := by
  induction h with
  | refl => exact hstart
  | apply _ _ happly ih =>
    exact List.forall_mem_append.mpr ⟨ih, List.forall_mem_singleton.mpr (hP.applied happly)⟩
  | check _ _ hreconcile ih =>
    have hkept := hP.reconcile ih hreconcile
    exact hkept

/-- The steps of a node that is made have the property. -/
theorem inferNode {n : GraphNode}
    (h : (inferNode settings planned input).Yields errors (some n)) : ∀ s ∈ n.steps, P s := by
  obtain ⟨c, _, _, hevolves, hends, -⟩ := ends_of_inferNode h
  have hc := hP.evolves hevolves (List.forall_mem_nil _)
  cases hends with
  | undeclared _ => exact hc
  | declared _ hreconcile => exact hP.reconcile hc hreconcile
  | failed _ _ => exact hc

/-- The steps of all nodes that are made have the property. -/
theorem infers {plan : List PlannedNode} {nodes : List GraphNode}
    (h : Infers settings plan input errors nodes) : ∀ n ∈ nodes, ∀ s ∈ n.steps, P s := by
  induction h with
  | nil => exact nofun
  | cons hmade _ ih => exact List.forall_mem_cons.mpr ⟨hP.inferNode hmade, ih⟩
  | stop _ => exact nofun

end Persistent

end Shapeline
