import Shapeline.Proofs.Rule.Application

/-!
# Recorded steps

A step that inference has recorded is valid: its output is what its layer type computes, and its
layer type admits its input with its parameters. Replacing placeholders keeps a step valid.
-/

namespace Shapeline

variable {σ π : Substitution} {layer : LayerType} {p : Parameters} {s s' : LayerStep}
  {r : Rule} {axes raw : List Term} {shape : Shape} {mint : String → Placeholder}

/-- A step is what inference records for a layer type under the values of a model's variables. -/
structure LayerStep.Valid (σ : Substitution) (layer : LayerType) (s : LayerStep) : Prop where
  /-- The output is what the layer type computes. -/
  computes : s.Computes layer
  /-- The layer type admits the input and the parameters. -/
  admits : layer.rule.Admits layer.name σ s.params s.input.axes
  /-- The input occurs in inference. -/
  input : s.input.Flowing
  /-- The parameters occur in inference. -/
  params : s.params.Flowing

/-- The stride of recorded parameters can be written by an author. -/
theorem Parameters.Flowing.written_stride {step : Term} (hp : p.Flowing)
    (h : p.term? stride (.int 1) = some step) : step.Written := by
  rcases Parameters.term?_int h with rfl | h
  · exact Term.Written.const 1
  · exact hp.fixed stride step (by decide) h

/-- What a rule computes from an admitted input occurs in inference. -/
theorem Rule.Admits.flowing_formula {name : String} (hadmits : r.Admits name σ p axes)
    (h : r.formula p axes = some raw) (hp : p.Flowing) (haxes : Shape.Flowing ⟨axes⟩) :
    Shape.Flowing ⟨raw⟩ := by
  have htail : ∀ x ∈ raw.tail, x.Written := by
    intro x hx
    rcases Rule.mem_tail_formula h hx with ⟨hstrided, step, hstep, y, hy, rfl⟩ | ⟨_, hx⟩
    · obtain ⟨step', hfits⟩ := hadmits.fits hstrided
      have hsame : step = step' :=
        Option.some.inj (hstep.symm.trans (term?_of_checkStride hfits.checked))
      have hquotient := hfits.quotients y hy
      rw [← hsame] at hquotient
      exact (haxes.tail y hy).divide (hp.written_stride hstep) hquotient
    · exact haxes.tail x hx
  refine ⟨fun x hx => ?_, htail⟩
  cases raw with
  | nil => cases hx
  | cons first rest =>
    rcases List.mem_cons.mp hx with rfl | hx
    · exact Rule.head_formula h rfl hp.terms haxes.axes (Term.Written.const 1).flowing
        fun y z hy hz => hy.mul hz
    · exact (htail x hx).flowing

/-- A step whose output is simplified from the formula computes its output. -/
theorem LayerStep.computes_of_formula (hlayer : s.layerType = some layer)
    (hformula : layer.rule.formula s.params s.input.axes = some raw)
    (hsimplify : List.Forall₂ (fun t u => t.simplify = .ok u) raw s.output.axes) :
    s.Computes layer where
  layerType := hlayer
  formula := by
    refine ⟨raw, hformula, hsimplify.imp fun t u htu ρ x hx => ?_⟩
    obtain ⟨v, hv, hvalue⟩ := Term.simplify_valueAt hx
    exact Except.ok.inj (htu.symm.trans hv) ▸ hvalue
  divisor := by
    intro hstrided step hstep u hu ρ y z hy hz
    have htail := List.forall₂_drop 1 hsimplify
    rw [List.drop_one, List.drop_one] at htail
    obtain ⟨t, ht, htu⟩ := exists_of_mem_right htail hu
    rcases Rule.mem_tail_formula hformula ht with ⟨_, step', hstep', x, _, rfl⟩ | ⟨hnot, _⟩
    · obtain rfl := Option.some.inj (hstep'.symm.trans hstep)
      exact Term.ne_zero_of_simplify_div htu hz hy
    · exact absurd hstrided hnot

/-- The derived parameters, with those of an author, occur in inference. -/
theorem DerivesAll.flowing_merged {derived : Parameters} (h : DerivesAll mint axes derived)
    (hp : p.Written) (haxes : ∀ x ∈ axes, x.Flowing) (hmint : ∀ name, Marked (mint name).name) :
    (p.merged derived).Flowing := by
  have hderived {name : String} {t : Term} (ht : derived.term? name .absent = some t) :
      (Parameters.IsDerived name ∧ t.Flowing) ∨ t.Written := by
    rcases h.term_cases ht with ⟨position, rfl⟩ | ⟨hname, hx | ⟨parameter, rfl⟩⟩
    · exact Or.inr (Term.Written.const position)
    · exact Or.inl ⟨hname, haxes t hx⟩
    · exact Or.inl ⟨hname, hmint parameter, ⟨_, rfl⟩⟩
  refine ⟨fun name t ht => ?_, fun name t hname ht => ?_⟩
  · rcases Parameters.term?_of_merged ht with ht | ht
    · rcases hderived ht with ⟨_, hflow⟩ | hwritten
      · exact hflow
      · exact hwritten.flowing
    · exact (hp name t ht).flowing
  · rcases Parameters.term?_of_merged ht with ht | ht
    · rcases hderived ht with ⟨hname', _⟩ | hwritten
      · exact absurd hname' hname
      · exact hwritten
    · exact hp name t ht

/-- A rule that succeeds accepts the number of axes, and its output is a simplified shape. -/
theorem Rule.apply_eq_ok {name : String} {outcome : RuleOutcome}
    (h : r.apply name shape p mint σ = .ok outcome) :
    r.acceptsRank shape.rank = true ∧
      ∃ raw, r.transform name shape p mint σ = .ok ⟨raw, outcome.derived⟩ ∧
        raw.simplify = .ok outcome.shape := by
  unfold apply at h
  split at h
  · rename_i hrank
    obtain ⟨transformed, htransform, h⟩ := bind_eq_ok_iff.mp h
    obtain ⟨simplified, hsimplify, h⟩ := bind_eq_ok_iff.mp h
    obtain rfl := pure_eq_ok_iff.mp h
    exact ⟨hrank, transformed.shape, htransform, hsimplify⟩
  · cases h

/-- The step that records the application of a rule is valid, and its output occurs in
inference. -/
theorem LayerStep.valid_of_apply {outcome : RuleOutcome}
    (h : layer.rule.apply layer.name shape p mint σ = .ok outcome) (hp : p.Written)
    (hshape : shape.Flowing) (hmint : ∀ name, Marked (mint name).name) :
    LayerStep.Valid σ layer ⟨some layer, p.merged outcome.derived, shape, outcome.shape⟩ ∧
      outcome.shape.Flowing := by
  obtain ⟨hrank, raw, htransform, hsimplify⟩ := Rule.apply_eq_ok h
  obtain ⟨hformula, hadmits, hderives⟩ := Rule.transform_eq_ok hrank htransform
  have hparams := hderives.flowing_merged hp hshape.axes hmint
  have hraw := hadmits.flowing_formula hformula hparams hshape
  have hsimplify := Shape.simplify_eq_ok_iff.mp hsimplify
  refine ⟨⟨computes_of_formula rfl hformula hsimplify, hadmits, hshape, hparams⟩,
    fun u hu => ?_, fun u hu => ?_⟩
  · obtain ⟨t, ht, htu⟩ := exists_of_mem_right hsimplify hu
    exact (hraw.axes t ht).simplify htu
  · have htail := List.forall₂_drop 1 hsimplify
    rw [List.drop_one, List.drop_one] at htail
    obtain ⟨t, ht, htu⟩ := exists_of_mem_right htail hu
    exact (hraw.tail t ht).simplify htu

/-- A valid step stays valid when placeholders are replaced. -/
theorem LayerStep.Valid.substitute (hs : s.Valid σ layer) (hσ : σ.Written) (hπ : π.Fills)
    (h : s.substitute π = .ok s') : s'.Valid σ layer := by
  obtain ⟨_, hparams, hinput, _⟩ := substitute_eq_ok_iff.mp h
  have hinput' := Shape.substitute_eq_ok_iff.mp hinput
  have hget {name : String} (hname : ¬ Parameters.IsDerived name) :=
    hs.params.get?_substitute_eq hπ hparams hname
  refine ⟨hs.computes.substitute h,
    ⟨?_, fun name hname => ?_, fun hstrided => ?_, fun hsoftmax => ?_⟩,
    hs.input.substitute hπ hinput, hs.params.substitute hπ hparams⟩
  · rw [← hinput'.length_eq]
    exact hs.admits.rank
  · obtain ⟨expected, first, rest, hexpected, haxes, hagree⟩ := hs.admits.input name hname
    rw [haxes] at hinput'
    obtain ⟨first', rest', hfirst, _, haxes'⟩ := List.forall₂_cons_left_iff.mp hinput'
    rcases Parameters.term?_substitute hparams Parameters.substitute_absent name with
      ⟨hnone, _⟩ | ⟨t, expected', ht, hexpected', hterm⟩
    · cases hnone.symm.trans hexpected
    · obtain rfl := Option.some.inj (ht.symm.trans hexpected)
      exact ⟨expected', first', rest', hterm, haxes',
        hagree.substitute (hπ.apart hσ) hexpected' hfirst⟩
  · obtain ⟨step, hfits⟩ := hs.admits.fits hstrided
    rw [hs.input.tail_substitute hπ hinput]
    exact ⟨step, hfits.congr (hget (by decide)) (hget (by decide))⟩
  · rw [← hinput'.length_eq, hget (by decide)]
    exact hs.admits.axis hsoftmax

end Shapeline
