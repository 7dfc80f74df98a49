import Shapeline.Proofs.Inference.Mismatches

/-!
# Trusting declared shapes

Whether declared shapes are trusted decides only how a difference from one is reported: as a warning
if they are, as a diagnostic if they are not. A strict run and a trusting run are compared operation
by operation. They have the same outcome and make the same notes; of the diagnostics of the strict
run, the trusting run keeps those of the rules and gives a warning for each of the others.
-/

namespace Shapeline

variable {α β : Type} {bindings : Dictionary Term} {planned : PlannedNode} {node : Int}
  {c : Chain} {declared input : Shape} {what : String}

/-- A trusting run gives a warning instead of a diagnostic about a declared shape: it belongs to the
same node and layer type, and it names the same two shapes. -/
inductive Diagnostic.TrustedAs : Diagnostic → Warning → Prop
  | intro (what : String) (declared inferred : Shape) (position : Option Int) (node : Int)
    (layer : Option String) :
    TrustedAs (.mismatch declared.text inferred.text position (some node) layer what)
      { code := .trustedShape
        message := s!"{what} ({declared.text}) trusted over inferred shape ({inferred.text})"
        node := some node
        layer }

/-- What a trusting run records where a strict run makes a report. -/
structure Report.RelaxedTo (strict trusting : Report) : Prop where
  /-- The diagnostics about declared shapes are left out. -/
  errors : trusting.errors = strict.errors.filter (!·.isDeclaredMismatch)
  /-- Each of them becomes a warning. -/
  warnings : List.Forall₂ Diagnostic.TrustedAs
    (strict.errors.filter (·.isDeclaredMismatch)) trusting.warnings
  /-- The strict run warns of nothing. -/
  silent : strict.warnings = []
  /-- The notes are the same. -/
  notes : trusting.notes = strict.notes
  /-- The diagnostics that stay are those of rules. -/
  ofRule : ∀ d ∈ trusting.errors, d.OfRule

namespace Report.RelaxedTo

/-- Notes are made by both runs. -/
theorem of_notes (notes : List Note) :
    RelaxedTo { notes } { notes } where
  errors := rfl
  warnings := .nil
  silent := rfl
  notes := rfl
  ofRule := by simp

/-- The diagnostic of a rule is recorded by both runs. -/
theorem of_rule {d : Diagnostic} (h : d.OfRule) :
    RelaxedTo { errors := [d] } { errors := [d] } where
  errors := by simp [h.isDeclaredMismatch]
  warnings := by simp [h.isDeclaredMismatch]
  silent := rfl
  notes := rfl
  ofRule := List.forall_mem_singleton.mpr h

/-- Reports made one after another are relaxed one after another. -/
theorem append {strict trusting strict' trusting' : Report} (h : strict.RelaxedTo trusting)
    (h' : strict'.RelaxedTo trusting') : (strict ++ strict').RelaxedTo (trusting ++ trusting') where
  errors := by
    change trusting.errors ++ trusting'.errors = (strict.errors ++ strict'.errors).filter _
    rw [List.filter_append, h.errors, h'.errors]
  warnings := by
    change List.Forall₂ _ ((strict.errors ++ strict'.errors).filter _)
      (trusting.warnings ++ trusting'.warnings)
    rw [List.filter_append]
    exact List.rel_append h.warnings h'.warnings
  silent := List.append_eq_nil_iff.mpr ⟨h.silent, h'.silent⟩
  notes := congrArg₂ (· ++ ·) h.notes h'.notes
  ofRule := fun d hd => (List.mem_append.mp hd).elim (h.ofRule d) (h'.ofRule d)

end Report.RelaxedTo

/-- What a trusting run does where a strict run does an operation: it has the same outcome. -/
structure Reporting.RelaxedTo (strict trusting : Reporting α) : Prop where
  /-- The outcomes are the same. -/
  outcome : trusting.outcome = strict.outcome
  /-- What is recorded is relaxed. -/
  report : strict.report.RelaxedTo trusting.report

namespace Reporting.RelaxedTo

/-- An operation that records nothing is the same in both runs. -/
theorem of_outcome (outcome : Outcome α) : RelaxedTo (ofOutcome outcome) (ofOutcome outcome) :=
  ⟨rfl, .of_notes []⟩

/-- A result is the same in both runs. -/
theorem of_pure (a : α) : RelaxedTo (pure a) (pure a) := of_outcome (.ok a)

/-- A report is replaced by a relaxed one. -/
theorem of_record {strict trusting : Report} (h : strict.RelaxedTo trusting) :
    RelaxedTo (record strict) (record trusting) := ⟨rfl, h⟩

/-- A sequence of operations is relaxed part by part: the second parts start from the same
result. -/
theorem of_bind {strict trusting : Reporting α} {next next' : α → Reporting β}
    (h : strict.RelaxedTo trusting) (hnext : ∀ a, (next a).RelaxedTo (next' a)) :
    (strict >>= next).RelaxedTo (trusting >>= next') := by
  obtain ⟨report, outcome⟩ := strict
  obtain ⟨report', outcome'⟩ := trusting
  obtain rfl : outcome' = outcome := h.outcome
  cases outcome' with
  | error failure => exact ⟨rfl, h.report⟩
  | ok a => exact ⟨(hnext a).outcome, h.report.append (hnext a).report⟩

end Reporting.RelaxedTo

/-- The diagnostic about a declared shape becomes a warning. -/
theorem relaxedTo_reportDiscrepancy {found : Discrepancy}
    (hwhat : "declared shape".toList.isPrefixOf what.toList = true) :
    (reportDiscrepancy ⟨false, bindings⟩ node c declared what found).RelaxedTo
      (reportDiscrepancy ⟨true, bindings⟩ node c declared what found) := by
  have habout : (Diagnostic.mismatch declared.text c.shape.text found.position? (some node)
      c.lastLayer what).isDeclaredMismatch = true := hwhat
  exact {
    errors := by simp [reportDiscrepancy, habout]
    warnings := by
      have hlist : (reportDiscrepancy ⟨false, bindings⟩ node c declared what found).errors.filter
          (·.isDeclaredMismatch) = [.mismatch declared.text c.shape.text found.position?
            (some node) c.lastLayer what] := by
        simp [reportDiscrepancy, habout]
      rw [hlist]
      exact .cons (.intro ..) .nil
    silent := rfl
    notes := rfl
    ofRule := by simp [reportDiscrepancy] }

/-- Placeholders are bound in the same way. -/
theorem relaxedTo_bindPlaceholders :
    (bindPlaceholders node c declared).RelaxedTo (bindPlaceholders node c declared) := by
  unfold bindPlaceholders
  dsimp only
  split
  · exact .of_pure c
  · exact .of_bind (.of_record (.of_notes _)) fun _ => .of_outcome _

/-- A comparison with a declared shape leads to the same chain. -/
theorem relaxedTo_reconcile (hwhat : "declared shape".toList.isPrefixOf what.toList = true) :
    (reconcile ⟨false, bindings⟩ node c declared what).RelaxedTo
      (reconcile ⟨true, bindings⟩ node c declared what) := by
  refine .of_bind relaxedTo_bindPlaceholders fun d => .of_bind (.of_outcome _) fun found => ?_
  cases found with
  | none => exact .of_pure d
  | some found => exact .of_bind (.of_record (relaxedTo_reportDiscrepancy hwhat)) fun _ => .of_pure d

/-- The declared shapes of an inline model are carried on in the same way. -/
theorem relaxedTo_checkDue {done : Nat} {pending : List Checkpoint} :
    (checkDue ⟨false, bindings⟩ planned done pending c).RelaxedTo
      (checkDue ⟨true, bindings⟩ planned done pending c) := by
  induction pending generalizing c with
  | nil => exact .of_pure ([], c)
  | cons checkpoint rest ih =>
    unfold checkDue
    split
    · exact .of_bind (relaxedTo_reconcile (isPrefixOf_checkpointName checkpoint)) fun d => ih
    · exact .of_pure (checkpoint :: rest, c)

/-- Steps are applied to the same shapes, and a rule that fails does so in both runs. -/
theorem relaxedTo_runSteps {position : Nat} {steps : List PlannedStep}
    {pending : List Checkpoint} :
    (runSteps ⟨false, bindings⟩ planned position steps pending c).RelaxedTo
      (runSteps ⟨true, bindings⟩ planned position steps pending c) := by
  induction steps generalizing position pending c with
  | nil => exact .of_pure (c, true)
  | cons step rest ih =>
    unfold runSteps
    have hsame : applyStep ⟨true, bindings⟩ planned.index position step c.shape =
        applyStep ⟨false, bindings⟩ planned.index position step c.shape := rfl
    rw [hsame]
    split
    · exact .of_bind relaxedTo_checkDue fun ⟨later, d⟩ => ih
    · rename_i d happly
      have hcause : d.OfRule := (raisedByRule_of_applyStep happly).ofRule
      have hrule : (d.atNode planned.index (some step.layerType.name)).OfRule := hcause
      exact .of_bind (.of_record (.of_rule hrule)) fun _ => .of_pure (c, false)
    · exact .of_outcome _

/-- The same graph node is made of a planned node, if one is made. -/
theorem relaxedTo_inferNode :
    (inferNode ⟨false, bindings⟩ planned input).RelaxedTo
      (inferNode ⟨true, bindings⟩ planned input) := by
  refine .of_bind relaxedTo_checkDue fun ⟨pending, c⟩ =>
    .of_bind relaxedTo_runSteps fun ⟨d, complete⟩ => ?_
  dsimp only
  split
  · split
    · exact .of_pure _
    · refine .of_bind (relaxedTo_reconcile ?_) fun _ => .of_pure _
      rw [List.isPrefixOf_iff_prefix]
  · exact .of_pure _

/-- The same graph nodes are made, up to the same one. -/
theorem relaxedTo_inferNodes {plan : List PlannedNode} :
    (inferNodes ⟨false, bindings⟩ plan input).RelaxedTo
      (inferNodes ⟨true, bindings⟩ plan input) := by
  induction plan generalizing input with
  | nil => exact .of_pure ([], true)
  | cons planned rest ih =>
    refine .of_bind relaxedTo_inferNode fun made => ?_
    cases made with
    | none => exact .of_bind (.of_record (.of_notes _)) fun _ => .of_pure _
    | some n => exact .of_bind ih fun ⟨nodes, complete⟩ => .of_pure _

/-- A plan is inferred in the same way. -/
theorem relaxedTo_infer {plan : List PlannedNode} :
    (infer ⟨false, bindings⟩ plan).RelaxedTo (infer ⟨true, bindings⟩ plan) := by
  unfold infer
  split
  · exact .of_pure _
  · split
    · exact .of_pure _
    · exact .of_bind relaxedTo_inferNodes fun ⟨nodes, complete⟩ => .of_pure _

/-- Trusting declared shapes changes only how differences from them are reported. For every plan and
all values of the variables, the trusting run fails or returns as the strict run does, with the same
nodes and the same answer whether all were inferred. It records the diagnostics of the strict run
without those about declared shapes, all of which are complaints of rules, and warns once, in order,
of each of those left out. The strict run warns of nothing, and both make the same notes. -/
theorem inferUnder_trusting (values : Dictionary Value) (plan : List PlannedNode) :
    let strict := inferUnder false values plan
    let trusting := inferUnder true values plan
    trusting.outcome = strict.outcome ∧
      trusting.report.errors = strict.report.errors.filter (!·.isDeclaredMismatch) ∧
      (∀ d ∈ trusting.report.errors, d.OfRule) ∧
      List.Forall₂ Diagnostic.TrustedAs (strict.report.errors.filter (·.isDeclaredMismatch))
        trusting.report.warnings ∧
      strict.report.warnings = [] ∧ trusting.report.notes = strict.report.notes := by
  have hrelaxed : (inferUnder false values plan).RelaxedTo (inferUnder true values plan) :=
    .of_bind (.of_outcome _) fun bindings => relaxedTo_infer
  have hreport := hrelaxed.report
  exact ⟨hrelaxed.outcome, hreport.errors, hreport.ofRule, hreport.warnings, hreport.silent,
    hreport.notes⟩

end Shapeline
