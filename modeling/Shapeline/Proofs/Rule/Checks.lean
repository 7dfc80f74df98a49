import Shapeline.Proofs.Rule.Correspondence
import Shapeline.Proofs.Rule.Failure
import Shapeline.Proofs.Term.Constants

/-!
# What checks refuse

Every check of a rule looks at terms under the known values of symbols, and waits where these do not
decide it. If the terms have values under them, a check either passes or raises its own complaint,
and which of the two depends on the rational functions that the terms denote only.
-/

namespace Shapeline

variable {layer name : String} {σ : Substitution} {p derived : Parameters}
  {mint : String → Placeholder} {spatial : List Term} {position : ℕ}
  {extent kernel channels actual t : Term}

/-- A kernel is larger than an extent under a substitution. This is so only if both are constant
under it. -/
def Term.ExceedsUnder (σ : Substitution) (kernel extent : Term) : Prop :=
  ∃ x y, extent.ConstantUnder σ x ∧ kernel.ConstantUnder σ y ∧ x < y

section Kernel

variable (hkernel : kernel.DefinedUnder σ)

include hkernel

/-- A kernel is refused exactly if it is larger than the extent. -/
theorem checkKernel_eq (layer : String) (position : ℕ) (hextent : extent.DefinedUnder σ) :
    (kernel.ExceedsUnder σ extent ∧ checkKernel layer position extent kernel σ =
      .error (.problem (.kernelExtent layer position extent.text kernel.text none))) ∨
    (¬ kernel.ExceedsUnder σ extent ∧ checkKernel layer position extent kernel σ = .ok ()) := by
  obtain ⟨u, hu, hextents⟩ := hextent.exists_constant
  obtain ⟨v, hv, hkernels⟩ := hkernel.exists_constant
  unfold checkKernel
  rw [hu, hv]
  rcases hextents with ⟨x, hx, hconcrete, hvalue⟩ | ⟨hnone, hconcrete⟩
  · rcases hkernels with ⟨y, hy, hconcrete', hvalue'⟩ | ⟨hnone', hconcrete'⟩
    · by_cases hlt : x < y
      · refine Or.inl ⟨⟨x, y, hx, hy, hlt⟩, ?_⟩
        simp [bind, Except.bind, hconcrete, hconcrete', hvalue, hvalue', hlt, throw, throwThe,
          MonadExceptOf.throw]
      · refine Or.inr ⟨fun ⟨x', y', hx', hy', hlt'⟩ => hlt ?_, ?_⟩
        · rwa [hx.unique hx' hextent, hy.unique hy' hkernel]
        · simp [bind, Except.bind, hconcrete, hconcrete', hvalue, hvalue', hlt, pure, Except.pure]
    · refine Or.inr ⟨fun ⟨_, y, _, hy, _⟩ => hnone' y hy, ?_⟩
      simp [bind, Except.bind, hconcrete, hconcrete', pure, Except.pure]
  · refine Or.inr ⟨fun ⟨x, _, hx, _⟩ => hnone x hx, ?_⟩
    simp [bind, Except.bind, hconcrete, pure, Except.pure]

/-- A kernel passes all checks if it is larger than none of the extents. Otherwise it is refused at
the first extent that it is larger than. -/
theorem checkKernels_eq (layer : String) (position : ℕ)
    (hspatial : ∀ x ∈ spatial, x.DefinedUnder σ) :
    ((∀ x ∈ spatial, ¬ kernel.ExceedsUnder σ x) ∧
      checkKernels layer kernel σ position spatial = .ok ()) ∨
    ∃ i extent, spatial[i]? = some extent ∧ kernel.ExceedsUnder σ extent ∧
      (∀ j < i, ∀ x, spatial[j]? = some x → ¬ kernel.ExceedsUnder σ x) ∧
      checkKernels layer kernel σ position spatial = .error (.problem
        (.kernelExtent layer (position + i : ℕ) extent.text kernel.text none)) := by
  induction spatial generalizing position with
  | nil => exact Or.inl ⟨nofun, rfl⟩
  | cons first rest ih =>
    obtain ⟨hfirst, hrest⟩ := List.forall_mem_cons.mp hspatial
    rcases checkKernel_eq hkernel layer position hfirst with
      ⟨hexceeds, hcheck⟩ | ⟨hfits, hcheck⟩
    · refine Or.inr ⟨0, first, rfl, hexceeds, fun j hj => absurd hj (Nat.not_lt_zero j), ?_⟩
      rw [checkKernels, hcheck]
      rfl
    · have hnext : checkKernels layer kernel σ position (first :: rest) =
          checkKernels layer kernel σ (position + 1) rest := by
        rw [checkKernels, hcheck]
        rfl
      rw [hnext]
      rcases ih (position + 1) hrest with ⟨hnone, hok⟩ | ⟨i, extent, hi, hexceeds, hleast, herror⟩
      · exact Or.inl ⟨List.forall_mem_cons.mpr ⟨hfits, hnone⟩, hok⟩
      · refine Or.inr ⟨i + 1, extent, hi, hexceeds, fun j hj x hx => ?_, ?_⟩
        · cases j with
          | zero => exact Option.some.inj hx ▸ hfits
          | succ j => exact hleast j (by omega) x hx
        · rw [herror, Nat.add_assoc, Nat.add_comm 1 i]

end Kernel

/-- An axis can be made out, or found to be missing, unless a value is a term without a normal
form. -/
theorem returns_resolveAxis {v : Value} {rank : ℤ} (h : ∀ t, v = .dim t → t.Lowers) :
    Returns (fun _ => True) (resolveAxis v rank) := by
  unfold resolveAxis
  cases v with
  | dim t =>
    obtain ⟨f, hf⟩ := h t rfl
    have hconcrete : t.isConcrete = .ok f.constant?.isSome := bind_eq_ok_iff.mpr ⟨f, hf, rfl⟩
    refine .of_bind (P := fun concrete => t.isConcrete = .ok concrete) ⟨_, hconcrete, hconcrete⟩
      fun concrete hconcrete => ?_
    split
    · rename_i htrue
      obtain ⟨q, hq⟩ := Term.exists_concreteValue (htrue ▸ hconcrete)
      refine .of_bind (P := fun _ => True) ⟨q, hq, trivial⟩ fun number _ =>
        .of_bind (P := fun _ => True) (.of_pure trivial) fun selected _ => ?_
      cases selected <;> exact .of_pure trivial
    · exact .of_pure trivial
  | int n => exact .of_pure trivial
  | _ => exact .of_pure trivial

/-- Whatever rules read as a dimension is missing, or a dimension that has a value under the known
values of symbols. A stride that is there must have a value. -/
structure Parameters.Checkable (σ : Substitution) (p : Parameters) : Prop where
  /-- The dimensions have values. -/
  terms : ∀ name ∈ dimensionParameters, ∀ v, p.given? name = some v →
    ∃ t, v.toTerm? = some t ∧ t.DefinedUnder σ
  /-- The stride is not there without a value, which does not count as missing. -/
  stride : p.get? stride ≠ some .absent

/-- A parameter for channels or features, or the placeholder for it. -/
def Parameters.termOrHole (p : Parameters) (name : String) (mint : String → Placeholder) : Term :=
  (p.term? name .absent).getD (.hole (mint name))

/-- The parameter for the stride, which is one unless set. -/
def Parameters.strideTerm (p : Parameters) : Term := (p.term? stride (.int 1)).getD (.const 1)

/-- An integer has a value under every substitution. -/
theorem Term.definedUnder_const (σ : Substitution) (n : ℤ) : (Term.const n).DefinedUnder σ :=
  ⟨fun _ => none, n, rfl⟩

namespace Parameters.Checkable

variable (hp : p.Checkable σ)

include hp

/-- A parameter that rules read as a dimension is missing, or it is one that has a value. -/
theorem missing_or_given (hname : name ∈ dimensionParameters) :
    (p.given? name = none ∧ p.term? name .absent = none) ∨
    ∃ v t, p.given? name = some v ∧ v.toTerm = .ok t ∧ p.term? name .absent = some t ∧
      t.DefinedUnder σ := by
  cases hgiven : p.given? name with
  | none =>
    refine Or.inl ⟨rfl, ?_⟩
    by_contra hsome
    obtain ⟨t, ht⟩ := Option.ne_none_iff_exists'.mp hsome
    obtain ⟨v, hv, -⟩ := term?_eq_some_iff_given?.mp ht
    cases hgiven.symm.trans hv
  | some v =>
    obtain ⟨t, ht, hdefined⟩ := hp.terms name hname v hgiven
    have hterm := Value.toTerm_eq_ok_iff.mpr ht
    exact Or.inr ⟨v, t, rfl, hterm, term?_eq_some_iff_given?.mpr ⟨v, hgiven, hterm⟩, hdefined⟩

/-- A parameter that is a dimension has a value. -/
theorem definedUnder (hname : name ∈ dimensionParameters) (ht : p.term? name .absent = some t) :
    t.DefinedUnder σ := by
  obtain ⟨-, hterm⟩ | ⟨v, u, -, -, hterm, hdefined⟩ := hp.missing_or_given hname
  · cases hterm.symm.trans ht
  · exact Option.some.inj (hterm.symm.trans ht) ▸ hdefined

/-- A parameter that has no value is read as none. -/
theorem dimension_eq (hname : name ∈ dimensionParameters) :
    p.dimension name .absent = .ok (p.term? name .absent) := by
  obtain ⟨hgiven, hterm⟩ | ⟨v, t, -, -, hterm, -⟩ := hp.missing_or_given hname
  · rw [hterm]
    unfold given? at hgiven
    unfold dimension
    cases hget : p.get? name with
    | none => rfl
    | some v =>
      cases v with
      | absent => rfl
      | _ => rw [hget] at hgiven; cases hgiven
  · rw [hterm]
    exact dimension_eq_some_iff.mpr hterm

/-- The parameter for channels or features, or its placeholder, lowers. -/
theorem lowers_termOrHole (hname : name ∈ dimensionParameters) :
    (p.termOrHole name mint).Lowers := by
  unfold termOrHole
  cases hterm : p.term? name .absent with
  | none => exact ⟨_, rfl⟩
  | some t => exact (hp.definedUnder hname hterm).lowers

/-- The stride is read as a dimension that has a value. -/
theorem dimension_stride :
    p.dimension Shapeline.stride (.int 1) = .ok (some p.strideTerm) ∧
      p.strideTerm.DefinedUnder σ := by
  rw [dimension_eq_some_iff]
  unfold strideTerm
  cases hget : p.get? Shapeline.stride with
  | none =>
    have hterm : p.term? Shapeline.stride (.int 1) = some (.const 1) := by
      rw [term?, hget]
      rfl
    rw [hterm]
    exact ⟨rfl, Term.definedUnder_const σ 1⟩
  | some v =>
    have hgiven : p.given? Shapeline.stride = some v := by
      unfold given?
      cases v with
      | absent => exact absurd hget hp.stride
      | _ => rw [hget]
    obtain ⟨t, ht, hdefined⟩ := hp.terms Shapeline.stride (by decide) v hgiven
    have hterm : p.term? Shapeline.stride (.int 1) = some t := by
      rw [term?, hget]
      exact ht
    rw [hterm]
    exact ⟨rfl, hdefined⟩

/-- The input is refused exactly if the parameter for it is given and does not agree with it. -/
theorem checkInput_eq (layer : String) (hname : name ∈ dimensionParameters)
    (hactual : actual.DefinedUnder σ) :
    (∃ expected, p.term? name .absent = some expected ∧ ¬ expected.AgreesUnder σ actual ∧
      checkInput layer p name actual σ = .error (.problem
        (.mismatch expected.text actual.text (some 0) none (some layer) s!"'{name}'"))) ∨
    (∀ expected, p.term? name .absent = some expected → expected.AgreesUnder σ actual) ∧
      ∃ derived, checkInput layer p name actual σ = .ok derived := by
  unfold checkInput
  obtain ⟨hgiven, hnone⟩ | ⟨v, expected, hgiven, hterm, hexpected, hdefined⟩ :=
    hp.missing_or_given hname
  · rw [hgiven]
    refine Or.inr ⟨fun expected hexpected => ?_, _, rfl⟩
    cases hnone.symm.trans hexpected
  · rw [hgiven]
    obtain ⟨a, ha, hlow⟩ := hdefined.exists_substitute
    obtain ⟨b, hb, hlow'⟩ := hactual.exists_substitute
    have hequivalent {same : Bool} :
        a.equivalent b = .ok same ↔ (same = true ↔ expected.AgreesUnder σ actual) := by
      rw [Term.equivalent_eq_ok_iff hlow hlow', Term.agreesUnder_iff ha hb]
    by_cases hagrees : expected.AgreesUnder σ actual
    · have hsame := hequivalent.mpr (iff_of_true rfl hagrees)
      refine Or.inr ⟨fun other hother => ?_, .empty, ?_⟩
      · exact Option.some.inj (hexpected.symm.trans hother) ▸ hagrees
      · simp [bind, Except.bind, hterm, ha, hb, hsame, pure, Except.pure]
    · have hsame := hequivalent.mpr (iff_of_false Bool.false_ne_true hagrees)
      refine Or.inl ⟨expected, hexpected, hagrees, ?_⟩
      simp [bind, Except.bind, hterm, ha, hb, hsame, throw, throwThe, MonadExceptOf.throw]

/-- The channels or features of the output are those given, or a placeholder. -/
theorem resolveOutput_eq (mint : String → Placeholder) (derived : Parameters)
    (hname : name ∈ dimensionParameters) :
    ∃ derived', resolveOutput p name mint derived = .ok (p.termOrHole name mint, derived') := by
  unfold resolveOutput termOrHole
  obtain ⟨hgiven, hnone⟩ | ⟨v, t, hgiven, hterm, hsome, -⟩ := hp.missing_or_given hname
  · rw [hgiven, hnone]
    exact ⟨_, rfl⟩
  · rw [hgiven, hsome]
    exact ⟨derived, bind_eq_ok_iff.mpr ⟨t, hterm, rfl⟩⟩

/-- The stride is refused exactly if it vanishes. -/
theorem checkStride_eq (layer : String) :
    (p.strideTerm.VanishesUnder σ ∧ checkStride layer p σ =
      .error (.problem { cause := .arithmetic "stride must not be zero", layer := some layer })) ∨
    (¬ p.strideTerm.VanishesUnder σ ∧ checkStride layer p σ = .ok p.strideTerm) := by
  obtain ⟨hdimension, hdefined⟩ := hp.dimension_stride
  obtain ⟨u, hu, ⟨q, hq, hconcrete, hvalue⟩ | ⟨hnone, hconcrete⟩⟩ := hdefined.exists_constant
  · by_cases hzero : q = 0
    · subst hzero
      refine Or.inl ⟨hq, ?_⟩
      simp [checkStride, bind, Except.bind, hdimension, hu, hconcrete, hvalue, throw, throwThe,
        MonadExceptOf.throw]
    · refine Or.inr ⟨fun hvanish => hzero (hq.unique hvanish hdefined), ?_⟩
      simp [checkStride, bind, Except.bind, hdimension, hu, hconcrete, hvalue, hzero, pure,
        Except.pure]
  · refine Or.inr ⟨hnone 0, ?_⟩
    simp [checkStride, bind, Except.bind, hdimension, hu, hconcrete, pure, Except.pure]

/-- The extents are divided by the stride, unless the stride vanishes or the kernel is larger than
an extent. -/
theorem downsample_eq (layer : String) (channels : Term)
    (hspatial : ∀ x ∈ spatial, x.DefinedUnder σ) :
    (p.strideTerm.VanishesUnder σ ∧ downsample layer spatial p channels σ =
      .error (.problem { cause := .arithmetic "stride must not be zero", layer := some layer })) ∨
    (¬ p.strideTerm.VanishesUnder σ ∧ ∃ kernel i extent, p.term? kernelSize .absent = some kernel ∧
      spatial[i]? = some extent ∧ kernel.ExceedsUnder σ extent ∧
      (∀ j < i, ∀ x, spatial[j]? = some x → ¬ kernel.ExceedsUnder σ x) ∧
      downsample layer spatial p channels σ = .error (.problem
        (.kernelExtent layer (1 + i : ℕ) extent.text kernel.text none))) ∨
    (¬ p.strideTerm.VanishesUnder σ ∧
      (∀ kernel, p.term? kernelSize .absent = some kernel →
        ∀ x ∈ spatial, ¬ kernel.ExceedsUnder σ x) ∧
      downsample layer spatial p channels σ =
        .ok ⟨channels :: spatial.map (.op .div · p.strideTerm)⟩) := by
  rcases hp.checkStride_eq layer with ⟨hvanish, hcheck⟩ | ⟨hvanish, hcheck⟩
  · refine Or.inl ⟨hvanish, ?_⟩
    rw [downsample, hcheck]
    rfl
  · refine Or.inr ?_
    have hmem : kernelSize ∈ dimensionParameters := by decide
    have hdimension := hp.dimension_eq hmem
    have hquotients (x : Term) (_ : x ∈ spatial) := divide_of_checkStride hcheck x
    cases hkernel : p.term? kernelSize .absent with
    | none =>
      refine Or.inr ⟨hvanish, nofun, downsample_eq_ok_iff.mpr ⟨_, ⟨hcheck, ?_, hquotients⟩, rfl⟩⟩
      exact ⟨none, hdimension.trans (congrArg _ hkernel), nofun⟩
    | some kernel =>
      rw [hkernel] at hdimension
      rcases checkKernels_eq (hp.definedUnder (by decide) hkernel) layer 1 hspatial with
        ⟨hnone, hok⟩ | ⟨i, extent, hi, hexceeds, hleast, herror⟩
      · refine Or.inr ⟨hvanish, fun other hother => Option.some.inj hother ▸ hnone, ?_⟩
        have hkernels : ∀ other, some kernel = some other →
            checkKernels layer other σ 1 spatial = .ok () :=
          fun other hother => Option.some.inj hother ▸ hok
        exact downsample_eq_ok_iff.mpr
          ⟨_, ⟨hcheck, ⟨some kernel, hdimension, hkernels⟩, hquotients⟩, rfl⟩
      · refine Or.inl ⟨hvanish, kernel, i, extent, rfl, hi, hexceeds, hleast, ?_⟩
        simp [downsample, bind, Except.bind, hcheck, hdimension, herror]

end Parameters.Checkable

end Shapeline
