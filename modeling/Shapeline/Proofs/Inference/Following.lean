import Shapeline.Proofs.Inference.Simulation

/-!
# Plans that are run side by side

The steps of two plans and the shapes that they declare are related one by one. If the application of
a step and the comparison with a declared shape keep the relation, every run of the first plan that
records no diagnostic is matched by one of the second, and the two make related nodes. What the nodes
are called does not take part.
-/

namespace Shapeline

/-- Two shapes declared inside inline models are related and due after as many steps. -/
structure Checkpoint.Corresponds (R : Shape → Shape → Prop) (checkpoint checkpoint' : Checkpoint) :
    Prop where
  /-- The shapes are due after as many steps. -/
  after : checkpoint'.after = checkpoint.after
  /-- The shapes are related. -/
  shape : R checkpoint.shape checkpoint'.shape

/-- Two planned nodes have related names, steps and declared shapes. -/
structure PlannedNode.Corresponds (N : Option String → Option String → Prop)
    (P : PlannedStep → PlannedStep → Prop) (R : Shape → Shape → Prop)
    (planned planned' : PlannedNode) : Prop where
  /-- The numbers are equal. -/
  index : planned'.index = planned.index
  /-- The steps are related. -/
  steps : List.Forall₂ P planned.steps planned'.steps
  /-- The declared shapes are related. -/
  declared : Option.Rel R planned.declared planned'.declared
  /-- The labels are related. -/
  label : N planned.label planned'.label
  /-- The names of the inline models are related. -/
  submodel : N planned.submodel planned'.submodel
  /-- The shapes that the inline models declare are related. -/
  checkpoints : List.Forall₂ (Checkpoint.Corresponds R) planned.checkpoints planned'.checkpoints

/-- Two nodes have related names, steps and shapes. -/
structure GraphNode.Corresponds (N : Option String → Option String → Prop)
    (R : Shape → Shape → Prop) (S : LayerStep → LayerStep → Prop) (n n' : GraphNode) : Prop where
  /-- The numbers are equal. -/
  index : n'.index = n.index
  /-- The steps are related. -/
  steps : List.Forall₂ S n.steps n'.steps
  /-- The inputs are related. -/
  input : R n.input n'.input
  /-- The inferred shapes are related. -/
  inferred : R n.inferred n'.inferred
  /-- The outputs are related. -/
  output : R n.output n'.output
  /-- The declared shapes are related. -/
  declared : Option.Rel R n.declared n'.declared
  /-- The labels are related. -/
  label : N n.label n'.label
  /-- The names of the inline models are related. -/
  submodel : N n.submodel n'.submodel

namespace Reporting

variable {α α' β β' : Type}

/-- Every run of an operation that records no diagnostic is matched by one of another operation,
with a related result. -/
def FollowedBy (R : α → α' → Prop) (x : Reporting α) (x' : Reporting α') : Prop :=
  ∀ a, x.Yields [] a → ∃ a', x'.Yields [] a' ∧ R a a'

namespace FollowedBy

variable {R : α → α' → Prop} {S : β → β' → Prop}

/-- Related results follow each other. -/
theorem of_pure {a : α} {a' : α'} (h : R a a') : FollowedBy R (pure a) (pure a') := by
  intro b hb
  obtain ⟨-, rfl⟩ := yields_pure_iff.mp hb
  exact ⟨a', yields_pure_iff.mpr ⟨rfl, rfl⟩, h⟩

/-- An operation that cannot report is followed by one that succeeds whenever it does. -/
theorem of_outcome {x : Outcome α} {x' : Outcome α'}
    (h : ∀ a, x = .ok a → ∃ a', x' = .ok a' ∧ R a a') :
    FollowedBy R (ofOutcome x) (ofOutcome x') := by
  intro a ha
  obtain ⟨-, hx⟩ := yields_ofOutcome_iff.mp ha
  obtain ⟨a', hx', hrelated⟩ := h a hx
  exact ⟨a', yields_ofOutcome_iff.mpr ⟨rfl, hx'⟩, hrelated⟩

/-- A report is followed by one that holds no diagnostic if it holds none. -/
theorem of_record {report report' : Report} (h : report.errors = [] → report'.errors = []) :
    FollowedBy (fun _ _ => True) (record report) (record report') := by
  intro u hu
  exact ⟨(), yields_record_iff.mpr (h (yields_record_iff.mp hu).symm).symm, trivial⟩

/-- A sequence of operations is followed part by part. -/
theorem of_bind {x : Reporting α} {x' : Reporting α'} {next : α → Reporting β}
    {next' : α' → Reporting β'} (h : FollowedBy R x x')
    (hnext : ∀ a a', R a a' → FollowedBy S (next a) (next' a')) :
    FollowedBy S (x >>= next) (x' >>= next') := by
  intro b hb
  obtain ⟨a, ha, hb⟩ := yields_bind_nil_iff.mp hb
  obtain ⟨a', ha', hrelated⟩ := h a ha
  obtain ⟨b', hb', hresult⟩ := hnext a a' hrelated b hb
  exact ⟨b', yields_bind_nil_iff.mpr ⟨a', ha', hb'⟩, hresult⟩

end FollowedBy

end Reporting

/-- The application of a step and the comparison with a declared shape keep a relation between two
chains. -/
structure Follows (settings settings' : InferenceSettings) (P : PlannedStep → PlannedStep → Prop)
    (R : Shape → Shape → Prop) (S : LayerStep → LayerStep → Prop) : Prop where
  /-- A step that can be applied to a shape can be applied to a related one. -/
  apply : ∀ node position step step' s s' applied, P step step' → R s s' →
    applyStep settings node position step s = .ok applied →
    ∃ applied', applyStep settings' node position step' s' = .ok applied' ∧ S applied applied' ∧
      R applied.output applied'.output
  /-- A comparison without diagnostic has none in the other plan. -/
  reconcile : ∀ node c c' declared declared' what what', Chain.Related R S c c' →
    R declared declared' → (reconcile settings node c declared what).FollowedBy
      (Chain.Related R S) (reconcile settings' node c' declared' what')

variable {settings settings' : InferenceSettings} {N : Option String → Option String → Prop}
  {P : PlannedStep → PlannedStep → Prop} {R : Shape → Shape → Prop}
  {S : LayerStep → LayerStep → Prop} {planned planned' : PlannedNode}
  {plan plan' : List PlannedNode} {node : Int} {c c' : Chain} {declared declared' : Shape}
  {what what' : String} {input input' : Shape}

/-- A comparison with a declared shape is kept if binding placeholders and looking for a discrepancy
are. -/
theorem followedBy_reconcile_of_parts (htrust : settings'.trustDeclared = settings.trustDeclared)
    (hbind : (bindPlaceholders node c declared).FollowedBy (Chain.Related R S)
      (bindPlaceholders node c' declared'))
    (hcompare : ∀ d d' : Chain, Chain.Related R S d d' → ∀ found,
      discrepancy (.ofTerms settings.bindings) d.shape declared = .ok found →
      discrepancy (.ofTerms settings'.bindings) d'.shape declared' = .ok found) :
    (reconcile settings node c declared what).FollowedBy (Chain.Related R S)
      (reconcile settings' node c' declared' what') := by
  refine .of_bind hbind fun d d' hd => ?_
  refine .of_bind (R := Eq) (.of_outcome fun found hfound => ⟨found, ?_, rfl⟩) ?_
  · exact hcompare d d' hd found hfound
  rintro found _ rfl
  cases found with
  | none => exact .of_pure hd
  | some found =>
    refine .of_bind (.of_record fun hnil => ?_) fun _ _ _ => .of_pure hd
    unfold reportDiscrepancy at hnil ⊢
    dsimp only at hnil ⊢
    rw [htrust]
    split
    · rfl
    · rename_i hstrict
      rw [if_neg hstrict] at hnil
      cases hnil

/-- A node that corresponds to another one with equal shapes differs from it in its names and its
steps only. -/
theorem GraphNode.Corresponds.rest {n n' : GraphNode} (h : n.Corresponds N Eq S n') :
    n' = { n with steps := n'.steps, label := n'.label, submodel := n'.submodel } := by
  have hdeclared : n'.declared = n.declared := by
    have hrel := h.declared
    generalize n.declared = shape at hrel ⊢
    generalize n'.declared = shape' at hrel ⊢
    cases hrel with
    | none => rfl
    | some heq => rw [heq]
  obtain ⟨index, steps, input, inferred, output, declared, label, submodel⟩ := n'
  obtain rfl : index = n.index := h.index
  obtain rfl := h.input
  obtain rfl := h.inferred
  obtain rfl := h.output
  obtain rfl : declared = n.declared := hdeclared
  rfl

/-- Declared shapes correspond to themselves. -/
theorem declared_correspond (declared : Option Shape) : Option.Rel Eq declared declared := by
  cases declared with
  | none => exact .none
  | some shape => exact .some rfl

/-- Checkpoints correspond to themselves. -/
theorem checkpoints_correspond (checkpoints : List Checkpoint) :
    List.Forall₂ (Checkpoint.Corresponds Eq) checkpoints checkpoints :=
  List.forall₂_same.mpr fun _ _ => ⟨rfl, rfl⟩

/-- A run keeps chains equal. -/
theorem Follows.refl (settings : InferenceSettings) : Follows settings settings Eq Eq Eq where
  apply node position step step' s s' applied hstep hs happly := by
    obtain rfl := hstep
    obtain rfl := hs
    exact ⟨applied, happly, rfl, rfl⟩
  reconcile node c c' declared declared' what what' hc hdeclared := by
    have hsame {d d' : Chain} (hd : Chain.Related Eq Eq d d') : d' = d := by
      obtain ⟨steps, shape⟩ := d
      obtain ⟨steps', shape'⟩ := d'
      obtain rfl : steps = steps' := List.forall₂_eq_eq_eq ▸ hd.steps
      obtain rfl : shape = shape' := hd.shape
      rfl
    obtain rfl := hdeclared
    obtain rfl := hsame hc
    refine followedBy_reconcile_of_parts rfl (fun d hd => ⟨d, hd, ?_⟩) fun d d' hd found hfound => ?_
    · exact ⟨List.forall₂_same.mpr fun _ _ => rfl, rfl⟩
    · rw [hsame hd]
      exact hfound

namespace Follows

variable (h : Follows settings settings' P R S)

include h

/-- The shapes that are declared inside inline models are carried on in related chains. -/
theorem checkDue (hindex : planned'.index = planned.index) {done : Nat}
    {pending pending' : List Checkpoint}
    (hpending : List.Forall₂ (Checkpoint.Corresponds R) pending pending')
    (hc : Chain.Related R S c c') :
    (Shapeline.checkDue settings planned done pending c).FollowedBy
      (fun r r' => List.Forall₂ (Checkpoint.Corresponds R) r.1 r'.1 ∧ Chain.Related R S r.2 r'.2)
      (Shapeline.checkDue settings' planned' done pending' c') := by
  induction hpending generalizing c c' with
  | nil => exact .of_pure ⟨.nil, hc⟩
  | cons hcheckpoint hrest ih =>
    unfold Shapeline.checkDue
    rw [hcheckpoint.after, hindex]
    split
    · refine .of_bind (h.reconcile _ _ _ _ _ _ _ hc hcheckpoint.shape) fun d d' hd => ?_
      exact ih ⟨hd.steps, hcheckpoint.shape⟩
    · exact .of_pure ⟨.cons hcheckpoint hrest, hc⟩

/-- Related steps are applied to related chains. -/
theorem runSteps (hindex : planned'.index = planned.index) {steps steps' : List PlannedStep}
    (hsteps : List.Forall₂ P steps steps') {position : Nat} {pending pending' : List Checkpoint}
    (hpending : List.Forall₂ (Checkpoint.Corresponds R) pending pending')
    (hc : Chain.Related R S c c') :
    (Shapeline.runSteps settings planned position steps pending c).FollowedBy
      (fun r r' => r.2 = true ∧ r'.2 = true ∧ Chain.Related R S r.1 r'.1)
      (Shapeline.runSteps settings' planned' position steps' pending' c') := by
  induction hsteps generalizing position pending pending' c c' with
  | nil => exact .of_pure ⟨rfl, rfl, hc⟩
  | cons hstep _ ih =>
    unfold Shapeline.runSteps
    split
    · rename_i applied happly
      obtain ⟨applied', happly', hS, houtput⟩ := h.apply _ _ _ _ _ _ _ hstep hc.shape happly
      rw [hindex, happly']
      have hextended : Chain.Related R S ⟨c.steps ++ [applied], applied.output⟩
          ⟨c'.steps ++ [applied'], applied'.output⟩ :=
        ⟨List.rel_append hc.steps (.cons hS .nil), houtput⟩
      exact .of_bind (h.checkDue hindex hpending hextended) fun r r' hr => ih hr.1 hr.2
    · rintro r hr
      obtain ⟨_, hrecord, -⟩ := Reporting.yields_bind_nil_iff.mp hr
      cases Reporting.yields_record_iff.mp hrecord
    · rintro r hr
      cases (Reporting.yields_ofOutcome_iff.mp hr).2

/-- Related planned nodes make related nodes. -/
theorem inferNode (hplanned : planned.Corresponds N P R planned') (hinput : R input input') :
    (Shapeline.inferNode settings planned input).FollowedBy
      (fun made made' => ∃ n n', made = some n ∧ made' = some n' ∧ n.Corresponds N R S n')
      (Shapeline.inferNode settings' planned' input') := by
  have hfinish {d d' : Chain} {output output' : Shape} (hd : Chain.Related R S d d')
      (houtput : R output output') :
      (planned.finish input d output).Corresponds N R S (planned'.finish input' d' output') :=
    ⟨hplanned.index, hd.steps, hinput, hd.shape, houtput, hplanned.declared, hplanned.label,
      hplanned.submodel⟩
  have hstart : Chain.Related R S ⟨[], input⟩ ⟨[], input'⟩ := ⟨.nil, hinput⟩
  refine .of_bind (h.checkDue hplanned.index hplanned.checkpoints hstart) fun r r' hr => ?_
  refine .of_bind (h.runSteps hplanned.index hplanned.steps hr.1 hr.2) fun r r' hr => ?_
  obtain ⟨d, complete⟩ := r
  obtain ⟨d', complete'⟩ := r'
  obtain ⟨rfl, rfl, hd⟩ := hr
  dsimp only
  rw [if_pos rfl, if_pos rfl]
  have hdeclared := hplanned.declared
  generalize planned.declared = shape at hdeclared
  generalize planned'.declared = shape' at hdeclared
  cases hdeclared with
  | none => exact .of_pure ⟨_, _, rfl, rfl, hfinish hd hd.shape⟩
  | some hshape =>
    dsimp only
    rw [hplanned.index]
    exact .of_bind (h.reconcile _ _ _ _ _ _ _ hd hshape) fun e e' he =>
      .of_pure ⟨_, _, rfl, rfl, hfinish he hshape⟩

/-- Related plans make related nodes. -/
theorem inferNodes (hplan : List.Forall₂ (PlannedNode.Corresponds N P R) plan plan')
    (hinput : R input input') :
    (Shapeline.inferNodes settings plan input).FollowedBy
      (fun r r' => r'.2 = r.2 ∧ List.Forall₂ (GraphNode.Corresponds N R S) r.1 r'.1)
      (Shapeline.inferNodes settings' plan' input') := by
  induction hplan generalizing input input' with
  | nil => exact .of_pure ⟨rfl, .nil⟩
  | cons hplanned _ ih =>
    refine .of_bind (h.inferNode hplanned hinput) fun made made' hmade => ?_
    obtain ⟨n, n', rfl, rfl, hn⟩ := hmade
    exact .of_bind (ih hn.output) fun r r' hr => .of_pure ⟨hr.1, .cons hn hr.2⟩

/-- Inference makes related nodes of related plans. -/
theorem infer (hN : N none none)
    (hplan : List.Forall₂ (PlannedNode.Corresponds N P R) plan plan') :
    (Shapeline.infer settings plan).FollowedBy
      (fun r r' => r'.2 = r.2 ∧ List.Forall₂ (GraphNode.Corresponds N R S) r.1 r'.1)
      (Shapeline.infer settings' plan') := by
  cases hplan with
  | nil => exact .of_pure ⟨rfl, .nil⟩
  | @cons first first' rest rest' hfirst hrest =>
    unfold Shapeline.infer
    dsimp only
    have hdeclared := hfirst.declared
    generalize first.declared = shape at hdeclared
    generalize first'.declared = shape' at hdeclared
    cases hdeclared with
    | none => exact .of_pure ⟨rfl, .nil⟩
    | @some shape shape' hshape =>
      have hnode : (inputNode first shape).Corresponds N R S (inputNode first' shape') :=
        ⟨rfl, .nil, hshape, hshape, hshape, .some hshape, hfirst.label, hN⟩
      exact .of_bind (h.inferNodes hrest hshape) fun r r' hr => .of_pure ⟨hr.1, .cons hnode hr.2⟩

end Follows

end Shapeline
