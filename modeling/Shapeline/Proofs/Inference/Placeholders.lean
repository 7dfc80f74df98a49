import Shapeline.Proofs.Inference.Moves
import Shapeline.Proofs.Rule.Symbols

/-!
# Where placeholders come from

Inference moves terms around, from the output of a node to the next node, from declared shapes into
steps and from extents into parameters, but the only new placeholders are those that steps mint. So
every placeholder in a node that is made was minted by a step of the plan, unless the plan mentions
it itself, and so was every placeholder that is bound on the way.
-/

namespace Shapeline

/-- A term among parameters mentions a placeholder. -/
def Parameters.Mentions (params : Parameters) (p : Placeholder) : Prop :=
  ∃ name t, params.term? name .absent = some t ∧ p ∈ t.placeholders

/-- A planned node mentions a placeholder: in a parameter or in a declared shape. -/
inductive PlannedNode.Mentions (planned : PlannedNode) (p : Placeholder) : Prop
  /-- A parameter of a step mentions it. -/
  | parameter {step : PlannedStep} : step ∈ planned.steps → step.params.Mentions p →
    Mentions planned p
  /-- A shape that the inline model declares mentions it. -/
  | checkpoint {checkpoint : Checkpoint} : checkpoint ∈ planned.checkpoints →
    p ∈ checkpoint.shape.placeholders → Mentions planned p
  /-- The shape that the node declares mentions it. -/
  | declared {shape : Shape} : planned.declared = some shape → p ∈ shape.placeholders →
    Mentions planned p

/-- A recorded step mentions a placeholder: in a parameter or in a shape. -/
inductive LayerStep.Mentions (s : LayerStep) (p : Placeholder) : Prop
  /-- A parameter mentions it. -/
  | parameter : s.params.Mentions p → Mentions s p
  /-- The input mentions it. -/
  | input : p ∈ s.input.placeholders → Mentions s p
  /-- The output mentions it. -/
  | output : p ∈ s.output.placeholders → Mentions s p

/-- A node of a graph mentions a placeholder: in a step or in a shape. -/
inductive GraphNode.Mentions (n : GraphNode) (p : Placeholder) : Prop
  /-- A step mentions it. -/
  | step {s : LayerStep} : s ∈ n.steps → s.Mentions p → Mentions n p
  /-- The input mentions it. -/
  | input : p ∈ n.input.placeholders → Mentions n p
  /-- The inferred shape mentions it. -/
  | inferred : p ∈ n.inferred.placeholders → Mentions n p
  /-- The output mentions it. -/
  | output : p ∈ n.output.placeholders → Mentions n p
  /-- The declared shape mentions it. -/
  | declared {shape : Shape} : n.declared = some shape → p ∈ shape.placeholders → Mentions n p

/-- The step at a position of a node of a plan mints a placeholder for one of its parameters. -/
def Mints (plan : List PlannedNode) (i j : ℕ) (p : Placeholder) : Prop :=
  ∃ planned step parameter, plan[i]? = some planned ∧ planned.steps[j]? = some step ∧
    p = mintPlaceholder step.layerType planned.index j parameter

/-- A placeholder that a step of a plan mints, or that the plan mentions itself. -/
def ComesFrom (plan : List PlannedNode) (p : Placeholder) : Prop :=
  (∃ i j, Mints plan i j p) ∨ ∃ planned ∈ plan, planned.Mentions p

/-- A name is that of a placeholder that a report tells to be bound. -/
def Report.Binds (report : Report) (name : String) : Prop :=
  ∃ node bindings, .bound node bindings ∈ report.notes ∧ bindings.contains name = true

variable {Q : Placeholder → Prop} {settings : InferenceSettings} {planned : PlannedNode}
  {plan : List PlannedNode} {nodes : List GraphNode} {input declared shape : Shape}
  {c d : Chain} {s s' : LayerStep} {n : GraphNode} {σ : Substitution} {node : ℤ} {what : String}
  {report first second : Report} {moves : List Move} {made : Option GraphNode} {done : ℕ}
  {name : String} {t u : Term}

/-- Every placeholder of a term has a property. -/
abbrev Term.Traced (Q : Placeholder → Prop) (t : Term) : Prop := t.LeavesSatisfy (fun _ => True) Q

/-- The placeholders of a term are those at its leaves. -/
theorem Term.traced_iff : t.Traced Q ↔ ∀ p ∈ t.placeholders, Q p := by
  induction t with
  | const n => simp [LeavesSatisfy, placeholders]
  | sym name => simp [LeavesSatisfy, placeholders]
  | hole p => simp [LeavesSatisfy, placeholders]
  | op o left right ihl ihr =>
    rw [placeholders, List.forall_mem_append]
    exact and_congr ihl ihr

/-- The placeholders of a shape are those of its extents. -/
theorem Shape.traced_iff :
    shape.TermsSatisfy (Term.Traced Q) ↔ ∀ p ∈ shape.placeholders, Q p := by
  simp only [Shape.TermsSatisfy, Term.traced_iff, Shape.placeholders, List.mem_flatMap]
  exact ⟨fun h p ⟨x, hx, hp⟩ => h x hx p hp, fun h x hx p hp => h p ⟨x, hx, hp⟩⟩

/-- The placeholders of parameters are those of the terms among them. -/
theorem Parameters.traced_iff {params : Parameters} :
    params.TermsSatisfy (Term.Traced Q) ↔ ∀ p, params.Mentions p → Q p := by
  simp only [Parameters.TermsSatisfy, Term.traced_iff]
  exact ⟨fun h p ⟨name, t, ht, hp⟩ => h name t ht p hp,
    fun h name t ht p hp => h p ⟨name, t, ht, hp⟩⟩

/-- Every placeholder of a step has a property. -/
structure LayerStep.Traced (Q : Placeholder → Prop) (s : LayerStep) : Prop where
  /-- The placeholders of the parameters have it. -/
  params : s.params.TermsSatisfy (Term.Traced Q)
  /-- The placeholders of the input have it. -/
  input : s.input.TermsSatisfy (Term.Traced Q)
  /-- The placeholders of the output have it. -/
  output : s.output.TermsSatisfy (Term.Traced Q)

/-- Every placeholder of a chain has a property. -/
structure Chain.Traced (Q : Placeholder → Prop) (c : Chain) : Prop where
  /-- The placeholders of the steps have it. -/
  steps : ∀ s ∈ c.steps, s.Traced Q
  /-- The placeholders of the shape have it. -/
  shape : c.shape.TermsSatisfy (Term.Traced Q)

/-- Every placeholder that a planned node mentions has a property, and so has every one that its
steps mint. -/
structure PlannedNode.Traced (Q : Placeholder → Prop) (planned : PlannedNode) : Prop where
  /-- The placeholders that the node mentions have it. -/
  mentioned : ∀ p, planned.Mentions p → Q p
  /-- The placeholders that the steps mint have it. -/
  minted : ∀ (j : ℕ) (step : PlannedStep) (parameter : String), planned.steps[j]? = some step →
    Q (mintPlaceholder step.layerType planned.index j parameter)

/-- Every name that is bound is that of a placeholder with a property. -/
def Report.Traced (Q : Placeholder → Prop) (report : Report) : Prop :=
  ∀ name, report.Binds name → ∃ p, Q p ∧ p.name = name

/-- The placeholders of a node of a graph are those of its steps and shapes. -/
theorem GraphNode.forall_mentions (hsteps : ∀ s ∈ n.steps, s.Traced Q)
    (hinput : n.input.TermsSatisfy (Term.Traced Q))
    (hinferred : n.inferred.TermsSatisfy (Term.Traced Q))
    (houtput : n.output.TermsSatisfy (Term.Traced Q))
    (hdeclared : ∀ shape, n.declared = some shape → shape.TermsSatisfy (Term.Traced Q)) :
    ∀ p, n.Mentions p → Q p := by
  intro p hp
  cases hp with
  | @step s hs hp =>
    have htraced := hsteps s hs
    cases hp with
    | parameter hp => exact Parameters.traced_iff.mp htraced.params p hp
    | input hp => exact Shape.traced_iff.mp htraced.input p hp
    | output hp => exact Shape.traced_iff.mp htraced.output p hp
  | input hp => exact Shape.traced_iff.mp hinput p hp
  | inferred hp => exact Shape.traced_iff.mp hinferred p hp
  | output hp => exact Shape.traced_iff.mp houtput p hp
  | declared hshape hp => exact Shape.traced_iff.mp (hdeclared _ hshape) p hp

/-- What is bound according to two reports in a row is bound according to one of them. -/
theorem Report.Traced.append (hfirst : first.Traced Q) (hsecond : second.Traced Q) :
    (first ++ second).Traced Q := by
  rintro name ⟨node, bindings, hnote, hname⟩
  rcases List.mem_append.mp hnote with hnote | hnote
  · exact hfirst name ⟨node, bindings, hnote, hname⟩
  · exact hsecond name ⟨node, bindings, hnote, hname⟩

/-- A report without notes tells nothing to be bound. -/
theorem Report.Traced.of_notes (h : report.notes = []) : report.Traced Q := by
  rintro name ⟨node, bindings, hnote, -⟩
  rw [h] at hnote
  cases hnote

section Substitution

variable (hσ : ∀ name r, σ name = some (.ok r) → Term.Traced Q r)

include hσ

/-- The placeholders of a shape keep a property that those of all replacements have. -/
theorem Shape.TermsSatisfy.traced_substitute {a b : Shape}
    (ha : a.TermsSatisfy (Term.Traced Q)) (h : a.substitute σ = .ok b) :
    b.TermsSatisfy (Term.Traced Q) := by
  intro y hy
  obtain ⟨x, hx, hxy⟩ := exists_of_mem_right (Shape.substitute_eq_ok_iff.mp h) hy
  exact (ha x hx).substitute hσ hxy

/-- So do those of a step. -/
theorem LayerStep.Traced.substitute (hs : s.Traced Q) (h : s.substitute σ = .ok s') :
    s'.Traced Q := by
  obtain ⟨-, hparams, hinput, houtput⟩ := LayerStep.substitute_eq_ok_iff.mp h
  refine ⟨fun name u hu => ?_, hs.input.traced_substitute hσ hinput,
    hs.output.traced_substitute hσ houtput⟩
  rcases Parameters.term?_substitute hparams Parameters.substitute_absent name with
    ⟨-, hnone⟩ | ⟨t, u', ht, htu, hu'⟩
  · cases hnone.symm.trans hu
  · obtain rfl := Option.some.inj (hu'.symm.trans hu)
    exact (hs.params name t ht).substitute hσ htu

/-- So do those of a chain. -/
theorem Chain.Traced.substitute (hc : c.Traced Q) (h : c.substitute σ = .ok d) : d.Traced Q := by
  obtain ⟨hshape, hsteps⟩ := Chain.substitute_eq_ok_iff.mp h
  refine ⟨fun s' hs' => ?_, hc.shape.traced_substitute hσ hshape⟩
  obtain ⟨s, hs, hss'⟩ := exists_of_mem_right hsteps hs'
  exact (hc.steps s hs).substitute hσ hss'

end Substitution

/-- A step that is applied has the placeholders of its input and of its parameters in the plan, and
those that it mints. -/
theorem traced_of_applyStep {position : ℕ} {step : PlannedStep}
    (h : applyStep settings node position step shape = .ok s)
    (hparams : step.params.TermsSatisfy (Term.Traced Q))
    (hminted : ∀ parameter, Q (mintPlaceholder step.layerType node position parameter))
    (hshape : shape.TermsSatisfy (Term.Traced Q)) : s.Traced Q := by
  obtain ⟨outcome, houtcome, h⟩ := bind_eq_ok_iff.mp h
  obtain rfl := pure_eq_ok_iff.mp h
  obtain ⟨hrank, raw, htransform, -⟩ := Rule.apply_eq_ok houtcome
  obtain ⟨-, -, hderives⟩ := Rule.transform_eq_ok hrank htransform
  have hmerged := hderives.leaves_merged hparams hshape hminted
  exact ⟨hmerged, hshape, Rule.leaves_of_apply houtcome hmerged hshape⟩

/-- The names that are bound when a chain is compared with a declared shape are those of
placeholders of the chain. -/
theorem Chain.Traced.bindPlaceholders (hc : c.Traced Q)
    (h : bindPlaceholders node c declared = ⟨report, .ok d⟩) : report.Traced Q := by
  unfold Shapeline.bindPlaceholders at h
  dsimp only at h
  split at h
  · obtain ⟨rfl, -⟩ := Reporting.pure_eq_ok_iff.mp h
    exact .of_notes rfl
  · obtain ⟨_, noted, rest, hnoted, hrest, rfl⟩ := Reporting.bind_eq_ok_iff.mp h
    obtain ⟨rfl, -⟩ := Reporting.mk.inj hnoted
    obtain ⟨rfl, -⟩ := Reporting.mk.inj hrest
    rintro name ⟨node, bindings, hnote, hname⟩
    obtain ⟨rfl, rfl⟩ := Note.bound.inj (List.mem_singleton.mp hnote)
    obtain ⟨want, hwant⟩ := Dictionary.contains_iff.mp hname
    have hbound : c.shape.binding declared name = some (.ok want) := by
      rw [Shape.binding_eq]
      exact Substitution.ofTerms_eq_ok_iff.mpr hwant
    obtain ⟨⟨p, hp, rfl⟩, -⟩ := Shape.mem_of_binding hbound
    exact ⟨p, hc.shape _ hp, rfl⟩

/-- Nothing is bound where a difference from a declared shape is reported. -/
theorem notes_reportDiscrepancy {found : Discrepancy} :
    (reportDiscrepancy settings node c declared what found).notes = [] := by
  unfold reportDiscrepancy
  dsimp only
  split <;> rfl

/-- A comparison with a declared shape binds placeholders of the chain, which give way to those of
the declared shape. -/
theorem Chain.Traced.reconcile (hc : c.Traced Q) (hdeclared : declared.TermsSatisfy (Term.Traced Q))
    (h : reconcile settings node c declared what = ⟨report, .ok d⟩) :
    d.Traced Q ∧ report.Traced Q := by
  have hsubstitute := (reconcile_yields_iff.mp (Reporting.yields_of_eq h)).1
  refine ⟨hc.substitute (fun name r hr => ?_) hsubstitute, ?_⟩
  · obtain ⟨-, x, hx, heq⟩ := Shape.mem_of_binding hr
    exact Except.ok.inj heq ▸ hdeclared x hx
  · obtain ⟨e, bound, _, hbind, hrest, rfl⟩ := Reporting.bind_eq_ok_iff.mp h
    obtain ⟨found, _, recorded, hcompared, hrecorded, rfl⟩ := Reporting.bind_eq_ok_iff.mp hrest
    obtain ⟨rfl, -⟩ := Reporting.mk.inj hcompared
    refine (hc.bindPlaceholders hbind).append (.append (.of_notes rfl) (.of_notes ?_))
    cases found with
    | none =>
      obtain ⟨rfl, -⟩ := Reporting.pure_eq_ok_iff.mp hrecorded
      rfl
    | some found =>
      obtain ⟨_, hreport, -⟩ := Reporting.bind_pure_eq_ok_iff.mp hrecorded
      obtain ⟨rfl, -⟩ := Reporting.mk.inj hreport
      exact notes_reportDiscrepancy

/-- The moves of a node up to a place apply its steps at their positions and compare its
checkpoints. -/
theorem PlannedNode.mem_movesTo {move : Move} (h : move ∈ planned.movesTo done) :
    (∃ (j : ℕ) (step : PlannedStep), planned.steps[j]? = some step ∧ move = .apply j step) ∨
      ∃ checkpoint ∈ planned.checkpoints, move = .check checkpoint := by
  have hcheck {done : ℕ} (h : move ∈ planned.checksAt done) :
      ∃ checkpoint ∈ planned.checkpoints, move = .check checkpoint := by
    obtain ⟨checkpoint, hcheckpoint, rfl⟩ := List.mem_map.mp h
    exact ⟨checkpoint, (List.mem_filter.mp hcheckpoint).1, rfl⟩
  induction done with
  | zero => exact Or.inr (hcheck h)
  | succ done ih =>
    rw [movesTo, List.mem_append, List.mem_append] at h
    rcases h with h | h | h
    · exact ih h
    · obtain ⟨step, hstep, rfl⟩ := List.mem_map.mp h
      exact Or.inl ⟨done, step, Option.mem_toList.mp hstep, rfl⟩
    · exact Or.inr (hcheck h)

/-- Moves of a node bring in the placeholders that the node mentions and those that its steps
mint. -/
theorem Chain.Traced.perform (hc : c.Traced Q) (hplanned : planned.Traced Q)
    (hmoves : ∀ move ∈ moves, move ∈ planned.movesTo done)
    (h : perform settings planned moves c = ⟨report, .ok d⟩) : d.Traced Q ∧ report.Traced Q := by
  induction moves generalizing c report with
  | nil =>
    obtain ⟨rfl, rfl⟩ := Reporting.pure_eq_ok_iff.mp h
    exact ⟨hc, .of_notes rfl⟩
  | cons move rest ih =>
    obtain ⟨hmove, hothers⟩ := List.forall_mem_cons.mp hmoves
    rcases planned.mem_movesTo hmove with ⟨j, step, hstep, rfl⟩ | ⟨checkpoint, hcheckpoint, rfl⟩
    · obtain ⟨s, _, second, happlied, hrest, rfl⟩ := Reporting.bind_eq_ok_iff.mp h
      obtain ⟨rfl, happly⟩ := Reporting.mk.inj happlied
      have hs : s.Traced Q := traced_of_applyStep happly
        (Parameters.traced_iff.mpr fun p hp =>
          hplanned.mentioned p (.parameter (List.mem_of_getElem? hstep) hp))
        (fun parameter => hplanned.minted j step parameter hstep) hc.shape
      have hnext : Chain.Traced Q ⟨c.steps ++ [s], s.output⟩ :=
        ⟨List.forall_mem_append.mpr ⟨hc.steps, List.forall_mem_singleton.mpr hs⟩, hs.output⟩
      exact (ih hnext hothers hrest).imp_right (Report.Traced.append (.of_notes rfl))
    · obtain ⟨e, first, second, hreconcile, hrest, rfl⟩ := Reporting.bind_eq_ok_iff.mp h
      have hshape : checkpoint.shape.TermsSatisfy (Term.Traced Q) := Shape.traced_iff.mpr
        fun p hp => hplanned.mentioned p (.checkpoint hcheckpoint hp)
      obtain ⟨he, hfirst⟩ := hc.reconcile hshape hreconcile
      have hnext : Chain.Traced Q ⟨e.steps, checkpoint.shape⟩ := ⟨he.steps, hshape⟩
      exact (ih hnext hothers hrest).imp_right hfirst.append

/-- The shape that a planned node declares has the placeholders that the node mentions. -/
theorem PlannedNode.Traced.own (h : planned.Traced Q) (hshape : planned.declared = some shape) :
    shape.TermsSatisfy (Term.Traced Q) :=
  Shape.traced_iff.mpr fun p hp => h.mentioned p (.declared hshape hp)

/-- The shape that the next node starts from after a failure has the placeholders that the node
mentions. -/
theorem PlannedNode.Traced.fallback (h : planned.Traced Q)
    (hshape : fallbackShape planned = some shape) : shape.TermsSatisfy (Term.Traced Q) := by
  rcases declared_of_fallbackShape hshape with hdeclared | ⟨checkpoint, hcheckpoint, rfl⟩
  · exact h.own hdeclared
  · exact Shape.traced_iff.mpr fun p hp => h.mentioned p (.checkpoint hcheckpoint hp)

/-- A node that is made of a chain has the placeholders of the chain and of the declared shapes. -/
theorem Chain.Traced.finish (hc : c.Traced Q) (hplanned : planned.Traced Q)
    (hinput : input.TermsSatisfy (Term.Traced Q)) (hshape : shape.TermsSatisfy (Term.Traced Q)) :
    ∀ p, (planned.finish input c shape).Mentions p → Q p :=
  GraphNode.forall_mentions hc.steps hinput hc.shape hshape fun _ => hplanned.own

/-- Inference of a node has the placeholders of its input, those that the planned node mentions and
those that its steps mint. -/
theorem traced_of_inferNode (hordered : planned.checkpoints.Pairwise (·.after ≤ ·.after))
    (hplanned : planned.Traced Q) (hinput : input.TermsSatisfy (Term.Traced Q))
    (h : inferNode settings planned input = ⟨report, .ok made⟩) :
    report.Traced Q ∧ ∀ n ∈ made, n.output.TermsSatisfy (Term.Traced Q) ∧
      ∀ p, n.Mentions p → Q p := by
  have hstart : Chain.Traced Q ⟨[], input⟩ := ⟨List.forall_mem_nil _, hinput⟩
  cases runs_of_inferNode hordered h with
  | @completed first second c n hperform hconclude =>
    obtain ⟨hc, hfirst⟩ := hstart.perform hplanned (fun _ hmove => hmove) hperform
    rcases PlannedNode.conclude_eq_ok_iff.mp hconclude with
      ⟨-, rfl, rfl⟩ | ⟨declared, d, hdeclared, hreconcile, rfl⟩
    · refine ⟨hfirst.append (.of_notes rfl), fun n hn => ?_⟩
      obtain rfl := Option.some.inj hn
      exact ⟨hc.shape, hc.finish hplanned hinput hc.shape⟩
    · have hshape := hplanned.own hdeclared
      obtain ⟨hd, hsecond⟩ := hc.reconcile hshape hreconcile
      refine ⟨hfirst.append hsecond, fun n hn => ?_⟩
      obtain rfl := Option.some.inj hn
      exact ⟨hshape, hd.finish hplanned hinput hshape⟩
  | @failed report c done step x hperform _ _ =>
    obtain ⟨hc, hreport⟩ := hstart.perform hplanned (fun _ hmove => hmove) hperform
    refine ⟨hreport.append (.of_notes rfl), fun n hn => ?_⟩
    obtain ⟨output, houtput, rfl⟩ := Option.map_eq_some_iff.mp hn
    have hshape := hplanned.fallback houtput
    exact ⟨hshape, hc.finish hplanned hinput hshape⟩

/-- Inference of several nodes has the placeholders of the first input, those that the planned nodes
mention and those that their steps mint. -/
theorem traced_of_inferNodes {complete : Bool}
    (hplan : ∀ planned ∈ plan, planned.Ordered ∧ planned.Traced Q)
    (hinput : input.TermsSatisfy (Term.Traced Q))
    (h : inferNodes settings plan input = ⟨report, .ok (nodes, complete)⟩) :
    report.Traced Q ∧ ∀ n ∈ nodes, ∀ p, n.Mentions p → Q p := by
  induction plan generalizing input report nodes complete with
  | nil =>
    obtain ⟨rfl, heq⟩ := Reporting.pure_eq_ok_iff.mp h
    obtain ⟨rfl, -⟩ := Prod.mk.inj heq
    exact ⟨.of_notes rfl, List.forall_mem_nil _⟩
  | cons planned rest ih =>
    obtain ⟨⟨hordered, hplanned⟩, hrest⟩ := List.forall_mem_cons.mp hplan
    unfold inferNodes at h
    obtain ⟨made, first, second, hmade, h, rfl⟩ := Reporting.bind_eq_ok_iff.mp h
    obtain ⟨hfirst, hn⟩ := traced_of_inferNode hordered.pairwise hplanned hinput hmade
    cases made with
    | none =>
      obtain ⟨_, hstopped, heq⟩ := Reporting.bind_pure_eq_ok_iff.mp h
      obtain ⟨rfl, -⟩ := Reporting.mk.inj hstopped
      obtain ⟨rfl, -⟩ := Prod.mk.inj heq
      refine ⟨hfirst.append ?_, List.forall_mem_nil _⟩
      rintro name ⟨node, bindings, hnote, -⟩
      cases List.mem_singleton.mp hnote
    | some n =>
      obtain ⟨⟨others, done⟩, third, _, hothers, hpure, rfl⟩ := Reporting.bind_eq_ok_iff.mp h
      obtain ⟨rfl, heq⟩ := Reporting.pure_eq_ok_iff.mp hpure
      obtain ⟨rfl, -⟩ := Prod.mk.inj heq
      obtain ⟨houtput, hmentions⟩ := hn n rfl
      obtain ⟨hthird, hmade⟩ := ih hrest houtput hothers
      exact ⟨hfirst.append (hthird.append (.of_notes rfl)),
        List.forall_mem_cons.mpr ⟨hmentions, hmade⟩⟩

/-- Inference of a plan has the placeholders that the plan mentions and those that its steps mint. -/
theorem comesFrom_of_infer {complete : Bool} (hordered : ∀ planned ∈ plan, planned.Ordered)
    (h : infer settings plan = ⟨report, .ok (nodes, complete)⟩) :
    report.Traced (ComesFrom plan) ∧ ∀ n ∈ nodes, ∀ p, n.Mentions p → ComesFrom plan p := by
  have htraced (planned : PlannedNode) (hplanned : planned ∈ plan) :
      planned.Traced (ComesFrom plan) := by
    refine ⟨fun p hp => Or.inr ⟨planned, hplanned, hp⟩, fun j step parameter hstep => ?_⟩
    obtain ⟨i, hi⟩ := List.mem_iff_getElem?.mp hplanned
    exact Or.inl ⟨i, j, planned, step, parameter, hi, hstep, rfl⟩
  have hnone {report : Report} (h : (pure ([], false) : Reporting (List GraphNode × Bool)) =
      ⟨report, .ok (nodes, complete)⟩) :
      report.Traced (ComesFrom plan) ∧ ∀ n ∈ nodes, ∀ p, n.Mentions p → ComesFrom plan p := by
    obtain ⟨rfl, heq⟩ := Reporting.pure_eq_ok_iff.mp h
    obtain ⟨rfl, -⟩ := Prod.mk.inj heq
    exact ⟨.of_notes rfl, List.forall_mem_nil _⟩
  unfold infer at h
  split at h
  · exact hnone h
  · rename_i first rest
    split at h
    · exact hnone h
    · rename_i shape hshape
      obtain ⟨⟨others, done⟩, found, _, hothers, hpure, rfl⟩ := Reporting.bind_eq_ok_iff.mp h
      obtain ⟨rfl, heq⟩ := Reporting.pure_eq_ok_iff.mp hpure
      obtain ⟨rfl, -⟩ := Prod.mk.inj heq
      have hinput := (htraced first List.mem_cons_self).own hshape
      obtain ⟨hfound, hmade⟩ := traced_of_inferNodes (fun planned hplanned =>
        have hmem := List.mem_cons_of_mem first hplanned
        ⟨hordered planned hmem, htraced planned hmem⟩) hinput hothers
      refine ⟨hfound.append (.of_notes rfl), List.forall_mem_cons.mpr ⟨?_, hmade⟩⟩
      exact GraphNode.forall_mentions (List.forall_mem_nil _) hinput hinput hinput
        fun _ hdeclared => Option.some.inj hdeclared ▸ hinput

end Shapeline
