import Mathlib.Algebra.BigOperators.Group.List.Basic
import Shapeline.Proofs.Rule.Formula

/-!
# Rules on plain numbers

The formula of a rule can be followed on plain numbers. Where the extents and the parameters have
values, the numbers that come out are the values of the formula, and a recorded step yields those of
its output.
-/

namespace Shapeline

/-- A rule on plain numbers: a convolution yields its output channels and divides all extents but
the first by the stride, a pooling keeps the first and divides the others, a dense rule yields its
output features, a flattening rule the product of all extents, and the others change nothing. -/
def Rule.onNumbers (r : Rule) (number : String → Value → Option ℚ) (extents : List ℚ) :
    Option (List ℚ) :=
  match r.family with
  | .convolution =>
    match extents with
    | [] => none
    | _ :: spatial => do
      let channels ← number outputChannels .absent
      let step ← number stride (.int 1)
      let quotients ← spatial.mapM (Operator.div.onNumbers · step)
      pure (channels :: quotients)
  | .pooling =>
    match extents with
    | [] => none
    | first :: spatial => do
      let step ← number stride (.int 1)
      let quotients ← spatial.mapM (Operator.div.onNumbers · step)
      pure (first :: quotients)
  | .dense => do
    let features ← number outputFeatures .absent
    pure [features]
  | .flatten => pure [extents.prod]
  | .pointwise | .softmax => pure extents

/-- The value of a parameter that is a term. -/
def Parameters.number (value : Term → Option ℚ) (p : Parameters) (name : String)
    (default : Value) : Option ℚ :=
  (p.term? name default).bind value

/-- A layer on plain numbers, with the values of its recorded parameters. -/
def LayerStep.run (value : Term → Option ℚ) (s : LayerStep) (extents : List ℚ) :
    Option (List ℚ) :=
  match s.layerType with
  | some layer => layer.rule.onNumbers (s.params.number value) extents
  | none => none

variable {p : Parameters} {ρ : Instantiation}

/-- Kept values are equal values. -/
theorem values_kept {ts us : List Term} {xs zs : List ℚ} (hkept : List.Forall₂ Term.KeptBy ts us)
    (hxs : List.Forall₂ (fun t x => t.valueAt ρ = some x) ts xs)
    (hzs : List.Forall₂ (fun u z => u.valueAt ρ = some z) us zs) : xs = zs := by
  rw [← List.forall₂_eq_eq_eq]
  refine forall₂_transport (fun t u x z htu hx hz => ?_) hkept hxs hzs
  exact Option.some.inj ((htu ρ x hx).symm.trans hz)

/-- The value of a product is the product of the values. -/
theorem valueAt_foldl_mul {first : Term} {rest : List Term} {x : ℚ} {xs : List ℚ}
    (hfirst : first.valueAt ρ = some x)
    (hrest : List.Forall₂ (fun t y => t.valueAt ρ = some y) rest xs) :
    (rest.foldl (.op .mul) first).valueAt ρ = some (x * xs.prod) := by
  induction hrest generalizing first x with
  | nil => rw [List.foldl_nil, List.prod_nil, mul_one, hfirst]
  | @cons t y rest xs hy _ ih =>
    rw [List.foldl_cons, List.prod_cons, ← mul_assoc]
    exact ih (Term.valueAt_op_eq_some_iff.mpr ⟨x, y, hfirst, hy, rfl⟩)

/-- Divided extents have the quotients of the values, unless the divisor is zero. -/
theorem onNumbers_quotients {step : Term} {y : ℚ} {axes : List Term} {xs : List ℚ}
    (hstep : step.valueAt ρ = some y) (hne : axes ≠ [] → y ≠ 0)
    (hxs : List.Forall₂ (fun t x => t.valueAt ρ = some x) axes xs) :
    ∃ zs, xs.mapM (Operator.div.onNumbers · y) = some zs ∧
      List.Forall₂ (fun (t : Term) z => t.valueAt ρ = some z) (axes.map (Term.op .div · step))
        zs := by
  rcases eq_or_ne axes [] with rfl | haxes
  · cases hxs
    exact ⟨[], rfl, .nil⟩
  · have hy : y ≠ 0 := hne haxes
    have hop (x : ℚ) : Operator.div.onNumbers x y = some (x / y) := by simp [Operator.onNumbers, hy]
    refine ⟨xs.map (· / y), mapM_eq_some_iff.mpr ?_, ?_⟩
    · rw [List.forall₂_map_right_iff, List.forall₂_same]
      exact fun x _ => hop x
    · rw [List.forall₂_map_left_iff, List.forall₂_map_right_iff]
      exact hxs.imp fun t x hx => Term.valueAt_op_eq_some_iff.mpr ⟨x, y, hx, hstep, hop x⟩

/-- A parameter that is a term has the value of the term, if all terms and the default have one. -/
theorem Parameters.exists_number {name : String} {default : Value} {t : Term}
    (hparams : ∀ name t, p.term? name .absent = some t → ∃ x, t.valueAt ρ = some x)
    (hdefault : ∀ t, default.toTerm? = some t → ∃ x, t.valueAt ρ = some x)
    (ht : p.term? name default = some t) :
    ∃ x, t.valueAt ρ = some x ∧ p.number (Term.valueAt ρ) name default = some x := by
  have hvalue : ∃ x, t.valueAt ρ = some x := by
    unfold term? at ht
    cases hget : p.get? name with
    | none => exact hdefault t (by rwa [hget] at ht)
    | some v =>
      rw [hget] at ht
      exact hparams name t (by rw [term?, hget]; exact ht)
  obtain ⟨x, hx⟩ := hvalue
  exact ⟨x, hx, Option.bind_eq_some_iff.mpr ⟨t, ht, hx⟩⟩

/-- A rule on the values of the extents yields the values of its formula, if the stride is not zero
where it divides. -/
theorem Rule.onNumbers_formula {r : Rule} {axes raw : List Term} {xs : List ℚ}
    (h : r.formula p axes = some raw)
    (hxs : List.Forall₂ (fun t x => t.valueAt ρ = some x) axes xs)
    (hparams : ∀ name t, p.term? name .absent = some t → ∃ x, t.valueAt ρ = some x)
    (hdivisor : r.family.IsStrided → ∀ step y, p.term? stride (.int 1) = some step →
      step.valueAt ρ = some y → raw.tail ≠ [] → y ≠ 0) :
    ∃ ys, r.onNumbers (p.number (Term.valueAt ρ)) xs = some ys ∧
      List.Forall₂ (fun t y => t.valueAt ρ = some y) raw ys := by
  have hnumber {name : String} {t : Term} (ht : p.term? name .absent = some t) :=
    Parameters.exists_number hparams (fun _ h => by cases h) ht
  have hstride {t : Term} (ht : p.term? stride (.int 1) = some t) :=
    Parameters.exists_number hparams (fun t (h : (Value.int 1).toTerm? = some t) => by
      obtain rfl := Option.some.inj h
      exact ⟨1, by simp [Term.valueAt]⟩) ht
  obtain ⟨family, rank⟩ := r
  cases family with
  | convolution =>
    cases hxs with
    | nil => cases h
    | @cons first x spatial xs _ hspatial =>
      obtain ⟨channels, hchannels, h⟩ := Option.bind_eq_some_iff.mp h
      obtain ⟨step, hstep, h⟩ := Option.bind_eq_some_iff.mp h
      obtain rfl := Option.some.inj h
      obtain ⟨c, hc, hcnumber⟩ := hnumber hchannels
      obtain ⟨y, hy, hynumber⟩ := hstride hstep
      have hne : spatial ≠ [] → y ≠ 0 := fun hspatial =>
        hdivisor (Or.inl rfl) step y hstep hy (by simpa using hspatial)
      obtain ⟨zs, hzs, hvalues⟩ := onNumbers_quotients hy hne hspatial
      exact ⟨c :: zs, by simp [Rule.onNumbers, hcnumber, hynumber, hzs], .cons hc hvalues⟩
  | pooling =>
    cases hxs with
    | nil => cases h
    | @cons first x spatial xs hx hspatial =>
      obtain ⟨step, hstep, h⟩ := Option.bind_eq_some_iff.mp h
      obtain rfl := Option.some.inj h
      obtain ⟨y, hy, hynumber⟩ := hstride hstep
      have hne : spatial ≠ [] → y ≠ 0 := fun hspatial =>
        hdivisor (Or.inr rfl) step y hstep hy (by simpa using hspatial)
      obtain ⟨zs, hzs, hvalues⟩ := onNumbers_quotients hy hne hspatial
      exact ⟨x :: zs, by simp [Rule.onNumbers, hynumber, hzs], .cons hx hvalues⟩
  | dense =>
    obtain ⟨features, hfeatures, h⟩ := Option.bind_eq_some_iff.mp h
    obtain rfl := Option.some.inj h
    obtain ⟨c, hc, hcnumber⟩ := hnumber hfeatures
    exact ⟨[c], by simp [Rule.onNumbers, hcnumber], .cons hc .nil⟩
  | flatten =>
    obtain rfl := Option.some.inj h
    refine ⟨[xs.prod], rfl, ?_⟩
    cases hxs with
    | nil => exact .cons rfl .nil
    | cons hx hrest => exact .cons (valueAt_foldl_mul hx hrest) .nil
  | pointwise =>
    obtain rfl := Option.some.inj h
    exact ⟨xs, rfl, hxs⟩
  | softmax =>
    obtain rfl := Option.some.inj h
    exact ⟨xs, rfl, hxs⟩

/-- A step on plain numbers yields the values of its output, wherever its input, its parameters and
its output have values. -/
theorem LayerStep.Computes.run_eq {layer : LayerType} {s : LayerStep} (hs : s.Computes layer)
    {xs zs : List ℚ} (hinput : s.input.values (Term.valueAt ρ) = some xs)
    (hparams : ∀ name t, s.params.term? name .absent = some t → ∃ x, t.valueAt ρ = some x)
    (houtput : s.output.values (Term.valueAt ρ) = some zs) :
    s.run (Term.valueAt ρ) xs = some zs := by
  obtain ⟨raw, hraw, hkept⟩ := hs.formula
  rw [Shape.values_eq_some_iff] at hinput houtput
  have hdivisor : layer.rule.family.IsStrided → ∀ step y,
      s.params.term? stride (.int 1) = some step → step.valueAt ρ = some y → raw.tail ≠ [] →
        y ≠ 0 := by
    intro hstrided step y hstep hy hne
    obtain ⟨t, ht⟩ := List.exists_mem_of_ne_nil _ hne
    have htail := List.forall₂_drop 1 hkept
    rw [List.drop_one, List.drop_one] at htail
    obtain ⟨u, hu, _⟩ := exists_of_mem_left htail ht
    obtain ⟨z, _, hz⟩ := exists_of_mem_left houtput (List.mem_of_mem_tail hu)
    exact hs.divisor hstrided step hstep u hu ρ y z hy hz
  obtain ⟨ys, hrun, hys⟩ := Rule.onNumbers_formula hraw hinput hparams hdivisor
  have hsame : ys = zs := values_kept hkept hys houtput
  rw [run, hs.layerType, ← hsame]
  exact hrun

end Shapeline
