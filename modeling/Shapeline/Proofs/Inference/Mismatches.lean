import Shapeline.Proofs.Inference.Visits
import Shapeline.Proofs.Rule.Failure

/-!
# Diagnostics about declared shapes

A difference from a declared shape is told from what rules complain about by what its message calls
the shape. So, of what inference records at a node, exactly the verdicts on its places are about
declared shapes.
-/

namespace Shapeline

variable {settings : InferenceSettings} {planned : PlannedNode} {σ : Substitution} {input : Shape}
  {failure report : List Diagnostic} {outputs : List Shape} {reports : List (List Diagnostic)}
  {v : Visit} {places : List (String × Shape)}

/-- Whether a diagnostic is about a difference from a declared shape. -/
def Diagnostic.isDeclaredMismatch (d : Diagnostic) : Bool :=
  match d.cause with
  | .mismatch what _ _ _ => "declared shape".toList.isPrefixOf what.toList
  | _ => false

/-- What a rule complains about is no difference from a declared shape. -/
theorem Diagnostic.OfRule.isDeclaredMismatch {d : Diagnostic} (h : d.OfRule) :
    d.isDeclaredMismatch = false := by
  unfold Diagnostic.isDeclaredMismatch
  split
  · rename_i what _ _ _ hcause
    rw [Diagnostic.OfRule, hcause] at h
    obtain ⟨name, rfl⟩ := h
    have hquote : ("'" ++ name ++ "'").toList = '\'' :: (name.toList ++ "'".toList) := by
      rw [String.toList_append, String.toList_append]
      rfl
    change "declared shape".toList.isPrefixOf ("'" ++ name ++ "'").toList = false
    rw [hquote]
    rfl
  · rfl

/-- What is recorded at a place with the name of a declared shape is a difference from it. -/
theorem Visit.Verdict.isDeclaredMismatch (h : v.Verdict σ report)
    (hwhat : "declared shape".toList.isPrefixOf v.what.toList = true) :
    ∀ d ∈ report, d.isDeclaredMismatch = true := by
  cases h with
  | same _ _ => simp
  | rank _ _ => exact List.forall_mem_singleton.mpr hwhat
  | axis _ _ _ => exact List.forall_mem_singleton.mpr hwhat

/-- The places of an inline model have names of declared shapes. -/
theorem isPrefixOf_checkpointName (checkpoint : Checkpoint) :
    "declared shape".toList.isPrefixOf (checkpointName planned checkpoint).toList = true := by
  have hsplit (model index : String) : ("declared shape of '" ++ model ++ "' #" ++ index).toList =
      "declared shape".toList ++ (" of '" ++ model ++ "' #" ++ index).toList := by
    have hfirst : "declared shape of '" = "declared shape" ++ " of '" := rfl
    rw [hfirst]
    simp only [String.toList_append, List.append_assoc]
  unfold checkpointName
  generalize planned.submodel.getD "None" = model, toString checkpoint.index = index
  have hname := hsplit model index
  rw [List.isPrefixOf_iff_prefix]
  exact ⟨_, hname.symm⟩

/-- Every visit is one to a place of the list. -/
theorem mem_of_visitsAt {node : Int} {layer : Option String} {arriving : Shape}
    (h : v ∈ visitsAt node layer arriving places) : (v.what, v.declared) ∈ places := by
  induction places generalizing arriving with
  | nil => cases h
  | cons place rest ih =>
    rcases List.mem_cons.mp h with rfl | h
    · exact List.mem_cons_self
    · exact List.mem_cons_of_mem _ (ih h)

/-- Every place that a node visits has the name of a declared shape. -/
theorem isPrefixOf_of_visits (h : v ∈ planned.visits input outputs) :
    "declared shape".toList.isPrefixOf v.what.toList = true := by
  rcases List.mem_append.mp h with h | h
  · obtain ⟨⟨arriving, done⟩, _, h⟩ := List.mem_flatMap.mp h
    obtain ⟨checkpoint, _, heq⟩ := List.mem_map.mp (mem_of_visitsAt h)
    have hname : checkpointName planned checkpoint = v.what := congrArg Prod.fst heq
    exact hname ▸ isPrefixOf_checkpointName checkpoint
  · split at h
    · obtain ⟨shape, _, heq⟩ := List.mem_map.mp (mem_of_visitsAt h)
      have hname : "declared shape" = v.what := congrArg Prod.fst heq
      rw [← hname, List.isPrefixOf_iff_prefix]
    · cases h

/-- A step that cannot be applied raises a diagnostic of its rule, if it raises one. -/
theorem raisedByRule_of_applyStep {node : Int} {position : Nat} {step : PlannedStep} {shape : Shape}
    {d : Diagnostic} (h : applyStep settings node position step shape = .error (.problem d)) :
    d.RaisedByRule := by
  have hterms : ∀ name r, Substitution.ofTerms settings.bindings name = some r →
      ∃ t, r = .ok t := by
    intro name r hr
    obtain ⟨t, _, ht⟩ := Substitution.ofTerms_eq_some_iff.mp hr
    exact ⟨t, ht⟩
  have hfails : Fails True Diagnostic.RaisedByRule
      (applyStep settings node position step shape) :=
    (step.layerType.rule.fails_apply_excused hterms).of_bind fun outcome _ => .of_pure _
  exact hfails.of_error h

/-- What ends the course of a node is no difference from a declared shape. -/
theorem CourseEnds.isDeclaredMismatch (h : CourseEnds settings planned input outputs failure) :
    ∀ d ∈ failure, d.isDeclaredMismatch = false := by
  cases h with
  | complete _ => simp
  | @failed step d _ happly =>
    have hcause : d.OfRule := (raisedByRule_of_applyStep happly).ofRule
    have hrule : (d.atNode planned.index (some step.layerType.name)).OfRule := hcause
    exact List.forall_mem_singleton.mpr hrule.isDeclaredMismatch

/-- Of what is recorded, the differences from declared shapes are what the places have been found
to differ by. -/
theorem filter_isDeclaredMismatch
    (hverdicts : List.Forall₂ (Visit.Verdict σ) (planned.visits input outputs) reports)
    (hends : CourseEnds settings planned input outputs failure) :
    (reports.flatten ++ failure).filter (·.isDeclaredMismatch) = reports.flatten := by
  have hreports : reports.flatten.filter (·.isDeclaredMismatch) = reports.flatten := by
    refine List.filter_eq_self.mpr fun d hd => ?_
    obtain ⟨report, hreport, hd⟩ := List.mem_flatten.mp hd
    obtain ⟨v, hv, hverdict⟩ := exists_of_mem_right hverdicts hreport
    exact hverdict.isDeclaredMismatch (isPrefixOf_of_visits hv) d hd
  have hfailure : failure.filter (·.isDeclaredMismatch) = [] := by
    refine List.filter_eq_nil_iff.mpr fun d hd => ?_
    have hother := hends.isDeclaredMismatch d hd
    simp [hother]
  rw [List.filter_append, hreports, hfailure, List.append_nil]

end Shapeline
