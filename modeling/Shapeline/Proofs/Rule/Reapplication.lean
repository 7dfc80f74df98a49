import Shapeline.Proofs.Rule.Step

/-!
# Applying a layer type again

The layer type of a valid step applies again to the recorded input and parameters, once the values
of the model's variables can be substituted in them. Nothing is left to derive then but the place of
an axis, so no placeholder is minted, and the output is equivalent to the recorded one.
-/

namespace Shapeline

variable {σ : Substitution} {layer : LayerType} {p : Parameters} {s : LayerStep} {r : Rule}
  {axes raw : List Term} {mint : String → Placeholder}

/-- The layer type of a step applies to the recorded input and parameters. -/
structure LayerStep.Reapplies (σ : Substitution) (layer : LayerType) (s : LayerStep) : Prop where
  /-- The step applies the layer type. -/
  layerType : s.layerType = some layer
  /-- The rule has an outcome that no placeholder enters, and its shape is equivalent to the
  recorded one. -/
  outcome : ∃ outcome,
    (∀ mint, layer.rule.apply layer.name s.input s.params mint σ = .ok outcome) ∧
    (∀ name v, outcome.derived.get? name = some v → ∃ position, v = .int position) ∧
    List.Forall₂ (fun x y => x.equivalent y = .ok true) outcome.shape.axes s.output.axes
  /-- The recorded channels or features of the input are found to be those of the input. -/
  input : ∀ name, layer.rule.family.inputParameter? = some name →
    ∃ expected first rest, s.params.term? name .absent = some expected ∧
      s.input.axes = first :: rest ∧ expected.ComparesAs σ true first
  /-- The stride is not zero. -/
  stride : layer.rule.family.IsStrided → ∃ step bound,
    s.params.term? stride (.int 1) = some step ∧ step.substitute σ = .ok bound ∧
      bound.isZero = .ok false
  /-- No kernel exceeds an extent if both are constant. -/
  kernel : layer.rule.family.IsStrided → ∀ kernel, s.params.term? kernelSize .absent = some kernel →
    ∀ extent ∈ s.input.axes.tail, ∃ boundExtent boundKernel,
      extent.substitute σ = .ok boundExtent ∧ kernel.substitute σ = .ok boundKernel ∧
        ∀ x y, boundExtent.concreteValue = .ok x → boundKernel.concreteValue = .ok y → y ≤ x

/-- The parameter for the input of a valid step is found to be equivalent to the first extent. -/
theorem LayerStep.Valid.exists_comparesAs (hs : s.Valid σ layer) (hσ : σ.Written) {input : Shape}
    {params : Parameters} (hinput : s.input.substitute σ = .ok input)
    (hparams : s.params.substitute σ = .ok params) {name : String}
    (hname : layer.rule.family.inputParameter? = some name) :
    ∃ expected first rest, s.params.term? name .absent = some expected ∧
      s.input.axes = first :: rest ∧ expected.ComparesAs σ true first := by
  obtain ⟨expected, first, rest, hexpected, haxes, hagree⟩ := hs.admits.input name hname
  have hflow : first.Flowing := hs.input.axes first (haxes ▸ List.mem_cons_self)
  have hsubstitute := Shape.substitute_eq_ok_iff.mp hinput
  rw [haxes] at hsubstitute
  obtain ⟨a, _, ha, _, _⟩ := List.forall₂_cons_left_iff.mp hsubstitute
  rcases Parameters.term?_substitute hparams Parameters.substitute_absent name with
    ⟨hnone, _⟩ | ⟨t, e, ht, he, _⟩
  · cases hnone.symm.trans hexpected
  · obtain rfl := Option.some.inj (ht.symm.trans hexpected)
    have hlow_e : e.Lowers := hσ.lowers_substitute (hs.params.terms _ _ hexpected).lowers he
    have hlow_a : a.Lowers := hσ.lowers_substitute hflow.lowers ha
    have hequiv := (Term.equivalent_eq_ok_iff hlow_e hlow_a (r := true)).mpr
      ⟨fun _ => (Term.agreesUnder_iff he ha).mp hagree, fun _ => rfl⟩
    exact ⟨t, first, rest, hexpected, haxes, e, a, he, ha, hequiv⟩

/-- A parameter that is equivalent to the input passes the comparison, and nothing is derived. -/
theorem checkInput_of_comparesAs (name : String) {parameter : String} {expected actual : Term}
    (hterm : p.term? parameter .absent = some expected)
    (h : expected.ComparesAs σ true actual) :
    checkInput name p parameter actual σ = .ok .empty := by
  obtain ⟨v, hv, hvterm⟩ := Parameters.term?_eq_some_iff_given?.mp hterm
  obtain ⟨e, a, he, ha, hequiv⟩ := h
  simp [checkInput, hv, hvterm, he, ha, hequiv, bind, Except.bind, pure, Except.pure]

/-- A given output parameter is taken as it is. -/
theorem resolveOutput_of_term? {parameter : String} {t : Term} {derived : Parameters}
    (hterm : p.term? parameter .absent = some t) :
    resolveOutput p parameter mint derived = .ok (t, derived) := by
  obtain ⟨v, hv, hvterm⟩ := Parameters.term?_eq_some_iff_given?.mp hterm
  simp [resolveOutput, hv, hvterm, bind, Except.bind, pure, Except.pure]

/-- A rule yields its formula on admitted extents, whatever placeholders there are, if the parameter
for the input is found to be equivalent to the first extent. -/
theorem Rule.transform_of_admits {name : String} (hadmits : r.Admits name σ p axes)
    (hformula : r.formula p axes = some raw)
    (hinput : ∀ parameter, r.family.inputParameter? = some parameter →
      ∃ expected first rest, p.term? parameter .absent = some expected ∧ axes = first :: rest ∧
        expected.ComparesAs σ true first) :
    ∃ derived, (∀ mint, r.transform name ⟨axes⟩ p mint σ = .ok ⟨⟨raw⟩, derived⟩) ∧
      ∀ parameter v, derived.get? parameter = some v → ∃ position, v = .int position := by
  have hempty (parameter : String) (v : Value)
      (h : (Dictionary.empty : Parameters).get? parameter = some v) :
      ∃ position, v = .int position := by simp at h
  have hfits := hadmits.fits
  have haxis := hadmits.axis
  simp only [transform_eq_ok_iff]
  obtain ⟨family, rank⟩ := r
  cases family with
  | convolution =>
    obtain ⟨expected, first, spatial, hexpected, rfl, hcompares⟩ := hinput _ rfl
    have hchecked := checkInput_of_comparesAs name hexpected hcompares
    obtain ⟨channels, hchannels, hformula⟩ := Option.bind_eq_some_iff.mp hformula
    obtain ⟨step, hstep, hformula⟩ := Option.bind_eq_some_iff.mp hformula
    obtain rfl := Option.some.inj hformula
    obtain ⟨step', hfits⟩ := hfits (Or.inl rfl)
    obtain rfl := Option.some.inj (hstep.symm.trans (term?_of_checkStride hfits.checked))
    exact ⟨.empty, fun mint => .convolution hchecked (resolveOutput_of_term? hchannels)
      (downsample_eq_ok_iff.mpr ⟨step, hfits, rfl⟩), hempty⟩
  | pooling =>
    cases axes with
    | nil => cases hformula
    | cons first spatial =>
      obtain ⟨step, hstep, hformula⟩ := Option.bind_eq_some_iff.mp hformula
      obtain rfl := Option.some.inj hformula
      obtain ⟨step', hfits⟩ := hfits (Or.inr rfl)
      obtain rfl := Option.some.inj (hstep.symm.trans (term?_of_checkStride hfits.checked))
      exact ⟨.empty, fun mint => .pooling (downsample_eq_ok_iff.mpr ⟨step, hfits, rfl⟩), hempty⟩
  | dense =>
    obtain ⟨expected, first, rest, hexpected, rfl, hcompares⟩ := hinput _ rfl
    have hchecked := checkInput_of_comparesAs name hexpected hcompares
    obtain ⟨features, hfeatures, hformula⟩ := Option.bind_eq_some_iff.mp hformula
    obtain rfl := Option.some.inj hformula
    exact ⟨.empty, fun mint => .dense hchecked (resolveOutput_of_term? hfeatures), hempty⟩
  | flatten =>
    obtain rfl := Option.some.inj hformula
    exact ⟨.empty, fun mint => .flatten, hempty⟩
  | pointwise =>
    obtain rfl := Option.some.inj hformula
    exact ⟨.empty, fun mint => .pointwise, hempty⟩
  | softmax =>
    obtain rfl := Option.some.inj hformula
    obtain ⟨selected, hselected⟩ := haxis rfl
    cases selected with
    | none => exact ⟨.empty, fun mint => .unselected hselected, hempty⟩
    | some position =>
      refine ⟨_, fun mint => .softmax hselected, ?_⟩
      intro parameter v h
      rw [Dictionary.get?_insert] at h
      split at h
      · exact ⟨position, (Option.some.inj h).symm⟩
      · exact hempty parameter v h

/-- A term that keeps the values of one that lowers agrees with it and lowers. -/
theorem Term.KeptBy.agrees {t u : Term} (h : t.KeptBy u) (ht : t.Lowers) :
    t.Agrees u ∧ u.Lowers := by
  constructor
  · intro ρ x y hx hy
    exact Option.some.inj ((h ρ x hx).symm.trans hy)
  · obtain ⟨ρ, x, hx⟩ := lowers_iff_exists_valueAt.mp ht
    exact lowers_of_valueAt (h ρ x hx)

/-- The layer type of a valid step applies again to its input and its parameters if the values of
the model's variables can be substituted in both. -/
theorem LayerStep.Valid.reapplies (hs : s.Valid σ layer) (hσ : σ.Written) {input : Shape}
    {params : Parameters} (hinput : s.input.substitute σ = .ok input)
    (hparams : s.params.substitute σ = .ok params) : s.Reapplies σ layer where
  layerType := hs.computes.layerType
  outcome := by
    obtain ⟨raw, hformula, hkept⟩ := hs.computes.formula
    obtain ⟨derived, htransform, hderived⟩ := Rule.transform_of_admits hs.admits hformula
      fun _ => hs.exists_comparesAs hσ hinput hparams
    have hraw := hs.admits.flowing_formula hformula hs.params hs.input
    obtain ⟨axes, haxes⟩ : ∃ axes,
        List.Forall₂ (fun x y => x.simplify = .ok y ∧ y.Lowers) raw axes :=
      exists_forall₂ fun x hx => (hraw.axes x hx).lowers.simplify
    have hsimplify : Shape.simplify ⟨raw⟩ = .ok ⟨axes⟩ :=
      Shape.simplify_eq_ok_iff.mpr (haxes.imp fun _ _ h => h.1)
    refine ⟨⟨⟨axes⟩, derived⟩, fun mint => ?_, hderived, ?_⟩
    · have hrank : layer.rule.acceptsRank s.input.rank = true := hs.admits.rank
      unfold Rule.apply
      rw [if_pos hrank]
      exact bind_eq_ok_iff.mpr ⟨_, htransform mint, bind_eq_ok_iff.mpr ⟨_, hsimplify, rfl⟩⟩
    · have hlow : List.Forall₂ (fun x y => x = y ∧ x.Lowers) raw raw :=
        List.forall₂_same.mpr fun x hx => ⟨rfl, (hraw.axes x hx).lowers⟩
      refine forall₂_transport (fun x y x' y' hxy hx' hy' => ?_) hlow haxes hkept
      obtain ⟨rfl, hx⟩ := hxy
      obtain ⟨hagree, hlow⟩ := hy'.agrees hx
      rw [Term.equivalent_eq_ok_iff hx'.2 hlow]
      exact ⟨fun _ => (Term.agrees_simplify hx'.1).trans hx hagree, fun _ => rfl⟩
  input _ hname := hs.exists_comparesAs hσ hinput hparams hname
  stride hstrided := by
    obtain ⟨step, hfits⟩ := hs.admits.fits hstrided
    obtain ⟨bound, hbound, hzero⟩ := isZero_of_checkStride hfits.checked
    exact ⟨step, bound, term?_of_checkStride hfits.checked, hbound, hzero⟩
  kernel hstrided kernel hkernel extent hextent := by
    obtain ⟨step, hfits⟩ := hs.admits.fits hstrided
    obtain ⟨found, hfound, hchecked⟩ := hfits.kernel
    obtain rfl := Except.ok.inj (hfound.symm.trans (Parameters.dimension_eq_some_iff.mpr hkernel))
    exact le_of_checkKernels (hchecked kernel rfl) hextent

end Shapeline
