import Shapeline.Proofs.Rule.Failure
import Shapeline.Proofs.Rule.Step

/-!
# Outputs that nobody has set

A convolution or a dense rule whose output parameter has no value yields a placeholder as the first
extent and records it as the parameter. A pooling, a pointwise rule and a softmax hand a placeholder
in the first extent on as it is. No rule changes a parameter that has a value, except for the axis of
a softmax.
-/

namespace Shapeline

/-- What a rule records for the value of a parameter on a shape with a number of axes: the axis of a
softmax counts from the front if it selects one of the shape, and everything else stays. -/
def Rule.recorded (r : Rule) (rank : Nat) (name : String) (v : Value) : Value :=
  if r.family = .softmax ∧ name = axisParameter then
    match resolveAxis v rank with
    | .ok (some position) => .int position
    | _ => v
  else v

variable {layer name output : String} {σ : Substitution} {p derived derived' : Parameters}
  {mint : String → Placeholder} {actual channels t : Term} {shape raw : Shape} {r : Rule} {v : Value}
  {outcome : RuleOutcome} {spatial : List Term} {q : Placeholder}

/-- The input is derived only if it has no value. -/
theorem get?_of_checkInput {input : String}
    (h : checkInput layer p input actual σ = .ok derived) (hv : p.given? name = some v) :
    derived.get? name = none := by
  unfold checkInput at h
  split at h
  · rename_i hnone
    obtain rfl := pure_eq_ok_iff.mp h
    have hne : name ≠ input := by
      rintro rfl
      cases hnone.symm.trans hv
    simp [Dictionary.get?_insert, hne]
  · obtain ⟨_, _, h⟩ := bind_eq_ok_iff.mp h
    obtain ⟨_, _, h⟩ := bind_eq_ok_iff.mp h
    obtain ⟨_, _, h⟩ := bind_eq_ok_iff.mp h
    obtain ⟨_, _, h⟩ := bind_eq_ok_iff.mp h
    split at h
    · obtain rfl := pure_eq_ok_iff.mp h
      exact Dictionary.get?_empty
    · cases h

/-- The output is derived only if it has no value. -/
theorem get?_of_resolveOutput (h : resolveOutput p output mint derived = .ok (t, derived'))
    (hv : p.given? name = some v) (hnone : derived.get? name = none) :
    derived'.get? name = none := by
  unfold resolveOutput at h
  split at h
  · rename_i hmissing
    obtain ⟨_, rfl⟩ := Prod.mk.inj (pure_eq_ok_iff.mp h)
    have hne : name ≠ output := by
      rintro rfl
      cases hmissing.symm.trans hv
    rw [Dictionary.get?_insert, if_neg hne, hnone]
  · obtain ⟨_, _, h⟩ := bind_eq_ok_iff.mp h
    obtain ⟨_, rfl⟩ := Prod.mk.inj (pure_eq_ok_iff.mp h)
    exact hnone

/-- A rule records every parameter that has a value as it is, except for the axis of a softmax. -/
theorem Rule.get?_merged_of_apply (h : r.apply layer shape p mint σ = .ok outcome)
    (hv : p.given? name = some v) :
    (p.merged outcome.derived).get? name = some (r.recorded shape.rank name v) := by
  obtain ⟨_, raw, htransform, _⟩ := Rule.apply_eq_ok h
  have hget := Parameters.get?_of_given? hv
  generalize outcome.derived = derived at htransform
  have hstays (hfamily : r.family ≠ .softmax) (hnone : derived.get? name = none) :
      (p.merged derived).get? name = some (r.recorded shape.rank name v) := by
    rw [Parameters.get?_merged_of_none hnone, hget, recorded, if_neg fun hboth => hfamily hboth.1]
  obtain ⟨axes⟩ := shape
  cases transform_eq_ok_iff.mp htransform with
  | convolution hcheck hresolve _ =>
    exact hstays nofun (get?_of_resolveOutput hresolve hv (get?_of_checkInput hcheck hv))
  | dense hcheck hresolve =>
    exact hstays nofun (get?_of_resolveOutput hresolve hv (get?_of_checkInput hcheck hv))
  | pooling => exact hstays nofun Dictionary.get?_empty
  | pointwise => exact hstays nofun Dictionary.get?_empty
  | flatten => exact hstays nofun Dictionary.get?_empty
  | @softmax _ _ position hselected =>
    rw [Parameters.get?_merged, Dictionary.get?_insert]
    by_cases haxis : name = axisParameter
    · subst haxis
      rw [hget, Option.getD_some] at hselected
      rw [if_pos rfl, Option.some_or, recorded, if_pos ⟨rfl, rfl⟩, Shape.rank, hselected]
    · rw [if_neg haxis, Dictionary.get?_empty, Option.none_or, hget, recorded,
        if_neg fun hboth => haxis hboth.2]
  | unselected hselected =>
    rw [Parameters.get?_merged_of_none Dictionary.get?_empty, hget, recorded]
    split
    · rename_i haxis
      obtain ⟨-, rfl⟩ := haxis
      rw [hget, Option.getD_some] at hselected
      rw [Shape.rank, hselected]
    · rfl

/-- Simplification keeps a placeholder that is the first extent. -/
theorem Shape.head?_simplify (h : raw.simplify = .ok shape)
    (hhead : raw.axes.head? = some (.hole q)) : shape.axes.head? = some (.hole q) := by
  have haxes := Shape.simplify_eq_ok_iff.mp h
  obtain ⟨rest, hrest⟩ := List.head?_eq_some_iff.mp hhead
  rw [hrest] at haxes
  obtain ⟨first, others, hfirst, _, hshape⟩ := List.forall₂_cons_left_iff.mp haxes
  obtain rfl := Except.ok.inj hfirst
  rw [hshape, List.head?_cons]

/-- Extents are divided after the first one. -/
theorem head?_of_downsample (h : downsample layer spatial p channels σ = .ok shape) :
    shape.axes.head? = some channels := by
  obtain ⟨_, _, rfl⟩ := downsample_eq_ok_iff.mp h
  rfl

/-- An output that has no value is a placeholder, which is recorded. -/
theorem resolveOutput_of_missing (h : resolveOutput p output mint derived = .ok (t, derived'))
    (hmissing : p.given? output = none) :
    t = .hole (mint output) ∧
      (p.merged derived').get? output = some (.dim (.hole (mint output))) := by
  unfold resolveOutput at h
  rw [hmissing] at h
  obtain ⟨rfl, rfl⟩ := Prod.mk.inj (pure_eq_ok_iff.mp h)
  refine ⟨rfl, ?_⟩
  rw [Parameters.get?_merged]
  simp [Dictionary.get?_insert]

/-- A convolution or a dense rule whose output parameter has no value yields a placeholder. -/
theorem Rule.placeholder_of_apply (h : r.apply layer shape p mint σ = .ok outcome)
    (houtput : r.family.outputParameter? = some output) (hmissing : p.given? output = none) :
    outcome.shape.axes.head? = some (.hole (mint output)) ∧
      (p.merged outcome.derived).get? output = some (.dim (.hole (mint output))) := by
  obtain ⟨_, raw, htransform, hsimplify⟩ := Rule.apply_eq_ok h
  generalize outcome.derived = derived at htransform
  obtain ⟨axes⟩ := shape
  cases transform_eq_ok_iff.mp htransform with
  | convolution _ hresolve hdownsample =>
    obtain rfl := Option.some.inj houtput
    obtain ⟨rfl, hrecorded⟩ := resolveOutput_of_missing hresolve hmissing
    exact ⟨Shape.head?_simplify hsimplify (head?_of_downsample hdownsample), hrecorded⟩
  | dense _ hresolve =>
    obtain rfl := Option.some.inj houtput
    obtain ⟨rfl, hrecorded⟩ := resolveOutput_of_missing hresolve hmissing
    exact ⟨Shape.head?_simplify hsimplify rfl, hrecorded⟩
  | _ => cases houtput

/-- A pooling, a pointwise rule and a softmax hand a placeholder in the first extent on. -/
theorem Rule.head?_of_apply (h : r.apply layer shape p mint σ = .ok outcome)
    (hfamily : r.family ∈ [.pointwise, .pooling, .softmax])
    (hhead : shape.axes.head? = some (.hole q)) :
    outcome.shape.axes.head? = some (.hole q) := by
  obtain ⟨_, raw, htransform, hsimplify⟩ := Rule.apply_eq_ok h
  refine Shape.head?_simplify hsimplify ?_
  generalize outcome.derived = derived at htransform
  obtain ⟨axes⟩ := shape
  cases transform_eq_ok_iff.mp htransform with
  | pooling hdownsample => exact (head?_of_downsample hdownsample).trans hhead
  | pointwise => exact hhead
  | softmax => exact hhead
  | unselected => exact hhead
  | _ => simp at hfamily

end Shapeline
