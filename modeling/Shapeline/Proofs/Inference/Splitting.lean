import Shapeline.Inference
import Shapeline.Proofs.Outcome
import Shapeline.Standard

/-!
# Splitting inference at a declared shape

Nothing but the shape that a node puts out crosses to the next node. A node that declares a shape
puts out that shape, however it ends: after all its steps, after a difference from the declared shape
and after a rule that failed. So inference of a plan up to such a node, followed by inference of the
rest with the declared shape as its input, is inference of the plan.
-/

namespace Shapeline

variable {settings : InferenceSettings} {planned node first : PlannedNode}
  {input shape declared : Shape} {nodes : List GraphNode} {plan : List PlannedNode}

/-- The shape that is known after some nodes have been inferred from an input. -/
def outputAfter (input : Shape) (nodes : List GraphNode) : Shape :=
  (nodes.getLast?.map (·.output)).getD input

/-- The output after a node and further ones is that of the further ones, starting at the node. -/
theorem outputAfter_cons (n : GraphNode) :
    outputAfter input (n :: nodes) = outputAfter n.output nodes := by
  unfold outputAfter
  rw [List.getLast?_cons]
  cases nodes.getLast? <;> rfl

/-- Inference of a longer plan goes on where that of its beginning has ended, unless it stopped. -/
theorem inferNodes_append {before after : List PlannedNode} :
    inferNodes settings (before ++ after) input = (do
      let (nodes, complete) ← inferNodes settings before input
      if complete then do
        let (others, complete) ← inferNodes settings after (outputAfter input nodes)
        pure (nodes ++ others, complete)
      else pure (nodes, false)) := by
  induction before generalizing input with
  | nil => simp [inferNodes, outputAfter]
  | cons planned rest ih =>
    rw [List.cons_append, inferNodes, inferNodes, bind_assoc]
    refine bind_congr fun made => ?_
    cases made with
    | none => simp
    | some n =>
      simp only [ih, bind_assoc, pure_bind]
      refine bind_congr fun ⟨nodes, complete⟩ => ?_
      cases complete with
      | false => simp
      | true => simp [outputAfter_cons]

/-- A node that declares a shape puts it out, in whichever way its inference ends. -/
theorem output_of_declared {made : Option GraphNode} (hdeclared : planned.declared = some shape)
    (h : (inferNode settings planned input).outcome = .ok made) :
    ∃ n, made = some n ∧ n.output = shape := by
  unfold inferNode at h
  obtain ⟨⟨pending, c⟩, _, h⟩ := Reporting.outcome_bind_eq_ok_iff.mp h
  obtain ⟨⟨d, complete⟩, _, h⟩ := Reporting.outcome_bind_eq_ok_iff.mp h
  cases complete with
  | false =>
    have hfallback : fallbackShape planned = some shape := by rw [fallbackShape, hdeclared]; rfl
    obtain rfl := Except.ok.inj h
    exact ⟨planned.finish input d shape, congrArg _ hfallback, rfl⟩
  | true =>
    simp only [if_pos, hdeclared] at h
    obtain ⟨e, _, h⟩ := Reporting.outcome_bind_eq_ok_iff.mp h
    obtain rfl := Except.ok.inj h
    exact ⟨planned.finish input e shape, rfl, rfl⟩

/-- The output after nodes of which the last declares a shape is this shape, if all were inferred. -/
theorem outputAfter_of_inferNodes {before : List PlannedNode}
    (hdeclared : planned.declared = some shape)
    (h : (inferNodes settings (before ++ [planned]) input).outcome = .ok (nodes, true)) :
    outputAfter input nodes = shape := by
  rw [inferNodes_append] at h
  obtain ⟨⟨first, complete⟩, _, h⟩ := Reporting.outcome_bind_eq_ok_iff.mp h
  cases complete with
  | false => cases h
  | true =>
    obtain ⟨⟨last, complete⟩, hlast, h⟩ := Reporting.outcome_bind_eq_ok_iff.mp h
    obtain ⟨rfl, rfl⟩ := Prod.mk.inj (Except.ok.inj h)
    unfold inferNodes at hlast
    obtain ⟨made, hmade, hlast⟩ := Reporting.outcome_bind_eq_ok_iff.mp hlast
    obtain ⟨n, rfl, hn⟩ := output_of_declared hdeclared hmade
    obtain rfl : last = [n] := (Prod.mk.inj (Except.ok.inj hlast)).1.symm
    simpa [outputAfter] using hn

/-- Inference of a plan that starts with a declared shape infers the other nodes from it. -/
theorem infer_cons {rest : List PlannedNode} (hdeclared : first.declared = some shape) :
    infer settings (first :: rest) = (do
      let (nodes, complete) ← inferNodes settings rest shape
      pure (inputNode first shape :: nodes, complete)) := by
  simp only [infer, hdeclared]

/-- Inference that is complete has started from a declared shape. -/
theorem exists_of_infer_complete (h : (infer settings plan).outcome = .ok (nodes, true)) :
    ∃ first rest shape others, plan = first :: rest ∧ first.declared = some shape ∧
      nodes = inputNode first shape :: others ∧
      (inferNodes settings rest shape).outcome = .ok (others, true) := by
  unfold infer at h
  split at h
  · cases h
  · rename_i first rest
    split at h
    · cases h
    · rename_i shape hshape
      obtain ⟨⟨others, complete⟩, hothers, h⟩ := Reporting.outcome_bind_eq_ok_iff.mp h
      obtain ⟨rfl, rfl⟩ := Prod.mk.inj (Except.ok.inj h)
      exact ⟨first, rest, shape, others, rfl, hshape, rfl, hothers⟩

/-- If inference is complete up to a node that declares a shape, the rest of the plan starts from
this shape. -/
theorem outputAfter_of_declared {rest : List PlannedNode} {k : Nat}
    (hfirst : first.declared = some input) (hnode : (first :: rest)[k]? = some node)
    (hdeclared : node.declared = some shape)
    (h : (inferNodes settings (rest.take k) input).outcome = .ok (nodes, true)) :
    outputAfter input nodes = shape := by
  cases k with
  | zero =>
    obtain rfl := Option.some.inj hnode
    obtain rfl := Option.some.inj (hfirst.symm.trans hdeclared)
    obtain rfl : nodes = [] := (Prod.mk.inj (Except.ok.inj h)).1.symm
    rfl
  | succ j =>
    have hnode : rest[j]? = some node := hnode
    rw [List.take_add_one, hnode] at h
    exact outputAfter_of_inferNodes hdeclared h

/-- The rest of a plan from a node on starts with this node. -/
theorem drop_eq_cons {k : Nat} (hnode : plan[k]? = some node) :
    plan.drop k = node :: plan.drop (k + 1) := by
  obtain ⟨hk, rfl⟩ := List.getElem?_eq_some_iff.mp hnode
  exact List.drop_eq_getElem_cons hk

/-- The rest of a plan from a node that declares a shape takes this shape as its input. -/
theorem head?_of_infer_drop {k : Nat} {complete : Bool} (hnode : plan[k]? = some node)
    (hdeclared : node.declared = some shape)
    (h : (infer settings (plan.drop k)).outcome = .ok (nodes, complete)) :
    nodes.head? = some (inputNode node shape) := by
  rw [drop_eq_cons hnode, infer_cons hdeclared] at h
  obtain ⟨others, _, h⟩ := Reporting.outcome_bind_eq_ok_iff.mp h
  exact (Prod.mk.inj (Except.ok.inj h)).1 ▸ rfl

/-- Inference of a plan is inference up to a node that declares a shape, followed by inference of the
rest from there, provided that the first part is complete. -/
theorem infer_split {k : Nat} (hnode : plan[k]? = some node) (hdeclared : node.declared = some shape)
    (hcomplete : (infer settings (plan.take (k + 1))).outcome = .ok (nodes, true)) :
    infer settings plan = (do
      let (nodes, _) ← infer settings (plan.take (k + 1))
      let (others, complete) ← infer settings (plan.drop k)
      pure (nodes ++ others.tail, complete)) := by
  obtain ⟨first, _, input, inner, htake, hfirst, rfl, hinner⟩ := exists_of_infer_complete hcomplete
  cases plan with
  | nil => cases hnode
  | cons head rest =>
    obtain ⟨rfl, rfl⟩ := List.cons.inj htake
    have houtput := outputAfter_of_declared hfirst hnode hdeclared hinner
    have hdrop : (head :: rest).drop k = node :: rest.drop k := drop_eq_cons hnode
    have hrest : rest = rest.take k ++ rest.drop k := (List.take_append_drop k rest).symm
    rw [List.take_succ_cons, hdrop, infer_cons hfirst, infer_cons hfirst, infer_cons hdeclared]
    nth_rewrite 1 [hrest]
    rw [inferNodes_append]
    simp only [bind_assoc, pure_bind]
    refine Reporting.bind_congr_of_outcome fun ⟨nodes, complete⟩ hnodes => ?_
    obtain ⟨rfl, rfl⟩ := Prod.mk.inj (Except.ok.inj (hinner.symm.trans hnodes))
    simp [houtput]

/-- Inference under values that can be resolved is inference under the resolved ones. -/
theorem inferUnder_eq {trust : Bool} {values : Dictionary Value} {bindings : Dictionary Term}
    (h : resolveBindings values = .ok bindings) :
    inferUnder trust values plan = infer ⟨trust, bindings⟩ plan := by
  unfold inferUnder
  rw [h]
  exact pure_bind bindings _

/-- Inference splits at every declared shape. If it is complete up to a node that declares its shape,
and the rest of the plan, which takes this shape as its input, can be inferred, then the plan can be
inferred: its nodes, diagnostics, warnings and notes are those of the first part followed by those of
the rest, without the input node of the rest, and it is complete if the rest is. -/
theorem inferUnder_split {trust complete : Bool} {values : Dictionary Value} {k : Nat}
    {others : List GraphNode} (hnode : plan[k]? = some node)
    (hdeclared : node.declared = some shape)
    (hfirst : (inferUnder trust values (plan.take (k + 1))).outcome = .ok (nodes, true))
    (hrest : (inferUnder trust values (plan.drop k)).outcome = .ok (others, complete)) :
    let whole := inferUnder trust values plan
    let first := inferUnder trust values (plan.take (k + 1))
    let rest := inferUnder trust values (plan.drop k)
    others.head? = some (inputNode node shape) ∧
      whole.outcome = .ok (nodes ++ others.tail, complete) ∧
      whole.report.errors = first.report.errors ++ rest.report.errors ∧
      whole.report.warnings = first.report.warnings ++ rest.report.warnings ∧
      whole.report.notes = first.report.notes ++ rest.report.notes := by
  obtain ⟨bindings, hbindings, _⟩ := Reporting.outcome_bind_eq_ok_iff.mp hfirst
  have hbindings : resolveBindings values = .ok bindings := hbindings
  rw [inferUnder_eq hbindings] at hfirst hrest ⊢
  rw [inferUnder_eq hbindings, inferUnder_eq hbindings]
  have hjoined : infer ⟨trust, bindings⟩ plan =
      ⟨(infer ⟨trust, bindings⟩ (plan.take (k + 1))).report ++
        (infer ⟨trust, bindings⟩ (plan.drop k)).report, .ok (nodes ++ others.tail, complete)⟩ := by
    rw [infer_split hnode hdeclared hfirst, Reporting.bind_of_outcome hfirst]
    dsimp only
    rw [Reporting.bind_of_outcome hrest]
    exact congrArg₂ Reporting.mk (congrArg _ (Report.append_empty _)) rfl
  rw [hjoined]
  exact ⟨head?_of_infer_drop hnode hdeclared hrest, rfl, rfl, rfl, rfl⟩

/-- A plan of which the first layer fails on its input, the second one has another shape than it
declares, and the last one is too small for what it is given. -/
def faultyPlan : List PlannedNode := [
  { index := 0, declared := some ⟨[.sym "N"]⟩ },
  { index := 1, steps := [⟨Standard.dense "Linear", .ofList [(inputFeatures, .int 3)]⟩],
    declared := some ⟨[.const 10]⟩ },
  { index := 2, steps := [⟨Standard.pointwise "ReLU" [], .empty⟩],
    declared := some ⟨[.const 12]⟩ },
  { index := 3, steps := [⟨Standard.dense "Linear", .ofList [(inputFeatures, .int 10)]⟩] }]

/-- Inference of the plan splits at the layer that fails: one diagnostic before, two after. -/
theorem faultyPlan_split :
    ∃ node shape nodes others, faultyPlan[1]? = some node ∧ node.declared = some shape ∧
      (inferUnder false .empty (faultyPlan.take 2)).outcome = .ok (nodes, true) ∧
      (inferUnder false .empty (faultyPlan.drop 1)).outcome = .ok (others, false) ∧
      (inferUnder false .empty faultyPlan).outcome = .ok (nodes ++ others.tail, false) ∧
      (inferUnder false .empty (faultyPlan.take 2)).report.errors.length = 1 ∧
      (inferUnder false .empty (faultyPlan.drop 1)).report.errors.length = 2 ∧
      (inferUnder false .empty faultyPlan).report.errors =
        (inferUnder false .empty (faultyPlan.take 2)).report.errors ++
          (inferUnder false .empty (faultyPlan.drop 1)).report.errors := by
  have hfirst : (inferUnder false .empty (faultyPlan.take 2)).outcome.toOption.any (·.2) = true := by
    decide +kernel
  have hrest : (inferUnder false .empty (faultyPlan.drop 1)).outcome.toOption.any (!·.2) = true := by
    decide +kernel
  simp only [Option.any_eq_true, Bool.not_eq_true', toOption_eq_some_iff] at hfirst hrest
  obtain ⟨⟨nodes, complete⟩, hfirst, rfl : complete = true⟩ := hfirst
  obtain ⟨⟨others, complete⟩, hrest, rfl : complete = false⟩ := hrest
  have hnode : faultyPlan[1]? = some faultyPlan[1] := rfl
  have hdeclared : faultyPlan[1].declared = some ⟨[.const 10]⟩ := rfl
  obtain ⟨_, houtcome, herrors, _⟩ := inferUnder_split hnode hdeclared hfirst hrest
  exact ⟨_, _, nodes, others, hnode, hdeclared, hfirst, hrest, houtcome, by decide +kernel,
    by decide +kernel, herrors⟩

end Shapeline
