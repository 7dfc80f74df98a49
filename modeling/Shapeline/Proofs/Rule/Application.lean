import Shapeline.Proofs.Rule.Formula

/-!
# Applying rules

A rule that is applied to a shape checks its parameters and derives those that nobody has set. The
recorded parameters, those of the author merged with the derived ones, pass all checks and determine
the output by the formula of the rule. Conversely a rule applies to every shape whose recorded
parameters pass the checks, and then derives no placeholder.
-/

namespace Shapeline

/-- The parameter that a family compares with the first extent of the input. -/
def RuleFamily.inputParameter? : RuleFamily → Option String
  | convolution => some inputChannels
  | dense => some inputFeatures
  | _ => none

/-- The parameter that a family takes the channels or features of its output from. -/
def RuleFamily.outputParameter? : RuleFamily → Option String
  | convolution => some outputChannels
  | dense => some outputFeatures
  | _ => none

variable {layer : String} {σ π : Substitution} {p q derived derived' : Parameters}
  {name other : String} {mint : String → Placeholder} {axes spatial raw : List Term}
  {channels step actual t u : Term} {shape : Shape} {r : Rule}

/-- A stride and a kernel fit the extents that they are applied to. -/
structure Fits (layer : String) (σ : Substitution) (p : Parameters) (spatial : List Term)
    (step : Term) : Prop where
  /-- The stride is not zero. -/
  checked : checkStride layer p σ = .ok step
  /-- The kernel is not larger than the extents. -/
  kernel : ∃ kernel, p.dimension kernelSize .absent = .ok kernel ∧
    ∀ extent, kernel = some extent → checkKernels layer extent σ 1 spatial = .ok ()
  /-- The extents can be divided by the stride. -/
  quotients : ∀ x ∈ spatial, x.divide step = .ok (.op .div x step)

/-- A rule accepts extents and parameters. -/
structure Rule.Admits (r : Rule) (layer : String) (σ : Substitution) (p : Parameters)
    (axes : List Term) : Prop where
  /-- The number of axes is accepted. -/
  rank : r.acceptsRank axes.length = true
  /-- The channels or features of the input are those of the first extent. -/
  input : ∀ name, r.family.inputParameter? = some name →
    ∃ expected first rest, p.term? name .absent = some expected ∧ axes = first :: rest ∧
      expected.AgreesUnder σ first
  /-- Stride and kernel fit the other extents. -/
  fits : r.family.IsStrided → ∃ step, Fits layer σ p axes.tail step
  /-- The selected axis can be made out. -/
  axis : r.family = .softmax →
    ∃ position, resolveAxis ((p.get? axisParameter).getD (.int (-1))) axes.length = .ok position

/-- A rule that takes the extents as they are accepts every shape with an accepted number of
axes. -/
theorem Rule.Admits.unconstrained (hrank : r.acceptsRank axes.length = true)
    (hinput : r.family.inputParameter? = none) (hstrided : ¬ r.family.IsStrided)
    (haxis : r.family ≠ .softmax) : r.Admits layer σ p axes where
  rank := hrank
  input name hname := by cases hinput.symm.trans hname
  fits h := absurd h hstrided
  axis h := absurd h haxis

/-- The stride that is checked is the parameter. -/
theorem term?_of_checkStride (h : checkStride layer p σ = .ok step) :
    p.term? stride (.int 1) = some step := by
  unfold checkStride at h
  obtain ⟨found, hfound, h⟩ := bind_eq_ok_iff.mp h
  cases found with
  | none => cases h
  | some t =>
    obtain ⟨bound, _, h⟩ := bind_eq_ok_iff.mp h
    obtain ⟨concrete, _, h⟩ := bind_eq_ok_iff.mp h
    have heq : step = t := by
      dsimp only at h
      split at h
      · obtain ⟨value, _, h⟩ := bind_eq_ok_iff.mp h
        split at h
        · cases h
        · exact pure_eq_ok_iff.mp h
      · exact pure_eq_ok_iff.mp h
    exact heq ▸ Parameters.dimension_eq_some_iff.mp hfound

/-- A stride that passes the check is not zero after the substitution. -/
theorem isZero_of_checkStride (h : checkStride layer p σ = .ok step) :
    ∃ bound, step.substitute σ = .ok bound ∧ bound.isZero = .ok false := by
  have hstep := Parameters.dimension_eq_some_iff.mpr (term?_of_checkStride h)
  obtain ⟨found, hfound, h⟩ := bind_eq_ok_iff.mp h
  obtain rfl := Except.ok.inj (hfound.symm.trans hstep)
  obtain ⟨bound, hbound, h⟩ := bind_eq_ok_iff.mp h
  obtain ⟨concrete, hconcrete, h⟩ := bind_eq_ok_iff.mp h
  obtain ⟨f, hf, _⟩ := bind_eq_ok_iff.mp hconcrete
  have hlow : bound.Lowers := ⟨f, hf⟩
  refine ⟨bound, hbound, Term.isZero_eq_false_iff.mpr ⟨hlow, fun hvanishes => ?_⟩⟩
  obtain ⟨htrue, hzero⟩ := hvanishes.concreteValue_eq hlow
  obtain rfl := Except.ok.inj (htrue.symm.trans hconcrete)
  dsimp only at h
  rw [if_pos rfl] at h
  obtain ⟨value, hvalue, h⟩ := bind_eq_ok_iff.mp h
  rw [if_pos (Except.ok.inj (hvalue.symm.trans hzero))] at h
  cases h

/-- A kernel that passes the check is not larger than an extent if both are constant after the
substitution. -/
theorem le_of_checkKernels {position : Nat} {kernel extent : Term}
    (h : checkKernels layer kernel σ position spatial = .ok ()) (hextent : extent ∈ spatial) :
    ∃ boundExtent boundKernel, extent.substitute σ = .ok boundExtent ∧
      kernel.substitute σ = .ok boundKernel ∧
      ∀ x y, boundExtent.concreteValue = .ok x → boundKernel.concreteValue = .ok y → y ≤ x := by
  induction spatial generalizing position with
  | nil => cases hextent
  | cons first rest ih =>
    obtain ⟨_, hfirst, hrest⟩ := bind_eq_ok_iff.mp h
    rcases List.mem_cons.mp hextent with rfl | hmem
    · obtain ⟨boundExtent, hboundExtent, hcheck⟩ := bind_eq_ok_iff.mp hfirst
      obtain ⟨boundKernel, hboundKernel, hcheck⟩ := bind_eq_ok_iff.mp hcheck
      refine ⟨boundExtent, boundKernel, hboundExtent, hboundKernel, fun x y hx hy => ?_⟩
      simp only [Term.isConcrete_of_concreteValue hx, Term.isConcrete_of_concreteValue hy, hx, hy,
        bind, Except.bind, if_true] at hcheck
      by_contra hlt
      rw [if_pos (not_le.mp hlt)] at hcheck
      cases hcheck
    · exact ih hrest hmem

/-- Downsampling succeeds exactly if stride and kernel fit the extents. -/
theorem downsample_eq_ok_iff :
    downsample layer spatial p channels σ = .ok shape ↔
      ∃ step, Fits layer σ p spatial step ∧
        shape = ⟨channels :: spatial.map (.op .div · step)⟩ := by
  have hquotients {step : Term} {quotients : List Term} :
      List.Forall₂ (fun x y => x.divide step = .ok y) spatial quotients ↔
        (∀ x ∈ spatial, x.divide step = .ok (.op .div x step)) ∧
          quotients = spatial.map (.op .div · step) := by
    constructor
    · intro h
      have hall : List.Forall₂ (fun x y => x.divide step = .ok (.op .div x step) ∧
          y = .op .div x step) spatial quotients := h.imp fun x y hxy =>
        ⟨(Term.divide_eq_ok_iff.mp hxy).2.2 ▸ hxy, (Term.divide_eq_ok_iff.mp hxy).2.2⟩
      refine ⟨fun x hx => ?_, ?_⟩
      · obtain ⟨_, _, hxy, _⟩ := exists_of_mem_left hall hx
        exact hxy
      · rw [← List.forall₂_eq_eq_eq, List.forall₂_map_right_iff]
        exact (hall.imp fun _ _ hxy => hxy.2).flip
    · rintro ⟨h, rfl⟩
      rw [List.forall₂_map_right_iff, List.forall₂_same]
      exact h
  unfold downsample
  simp only [bind_eq_ok_iff]
  constructor
  · rintro ⟨step, hstep, kernel, hkernel, h⟩
    cases kernel with
    | none =>
      obtain ⟨quotients, hq, h⟩ := bind_eq_ok_iff.mp h
      obtain ⟨hfit, rfl⟩ := hquotients.mp (mapM_eq_ok_iff.mp hq)
      exact ⟨step, ⟨hstep, ⟨none, hkernel, by simp⟩, hfit⟩, pure_eq_ok_iff.mp h⟩
    | some extent =>
      obtain ⟨_, hchecked, h⟩ := bind_eq_ok_iff.mp h
      obtain ⟨quotients, hq, h⟩ := bind_eq_ok_iff.mp h
      obtain ⟨hfit, rfl⟩ := hquotients.mp (mapM_eq_ok_iff.mp hq)
      exact ⟨step, ⟨hstep, ⟨some extent, hkernel, fun e he => Option.some.inj he ▸ hchecked⟩,
        hfit⟩, pure_eq_ok_iff.mp h⟩
  · rintro ⟨step, ⟨hstep, ⟨kernel, hkernel, hchecked⟩, hfit⟩, rfl⟩
    refine ⟨step, hstep, kernel, hkernel, ?_⟩
    have hmap := mapM_eq_ok_iff.mpr (hquotients.mpr ⟨hfit, rfl⟩)
    cases kernel with
    | none => exact bind_eq_ok_iff.mpr ⟨_, hmap, rfl⟩
    | some extent =>
      exact bind_eq_ok_iff.mpr ⟨(), hchecked extent rfl, bind_eq_ok_iff.mpr ⟨_, hmap, rfl⟩⟩

/-- Whether stride and kernel fit depends only on these two parameters. -/
theorem Fits.congr (h : Fits layer σ p spatial step)
    (hstride : q.get? stride = p.get? stride)
    (hkernel : q.get? kernelSize = p.get? kernelSize) : Fits layer σ q spatial step where
  checked := by
    rw [← h.checked, checkStride, checkStride, Parameters.dimension_congr hstride]
  kernel := by
    rw [Parameters.dimension_congr hkernel]
    exact h.kernel
  quotients := h.quotients

/-- What a rule derives: the place of an axis, an extent of the input or a placeholder. -/
inductive Derives (mint : String → Placeholder) (axes : List Term) : String → Value → Prop
  /-- The axis that a parameter selects. -/
  | axis (position : Int) : Derives mint axes axisParameter (.int position)
  /-- The channels or features of the input. -/
  | extent (name : String) (x : Term) : Parameters.IsDerived name → x ∈ axes →
    Derives mint axes name (.dim x)
  /-- A placeholder for the channels or features of the output. -/
  | hole (name parameter : String) : Parameters.IsDerived name →
    Derives mint axes name (.dim (.hole (mint parameter)))

/-- Every parameter among the derived ones is one that a rule derives. -/
def DerivesAll (mint : String → Placeholder) (axes : List Term) (derived : Parameters) : Prop :=
  ∀ name v, derived.get? name = some v → Derives mint axes name v

/-- A further derived parameter. -/
theorem DerivesAll.insert {v : Value} (h : DerivesAll mint axes derived)
    (hv : Derives mint axes name v) : DerivesAll mint axes (derived.insert name v) := by
  intro other w hw
  rw [Dictionary.get?_insert] at hw
  split at hw
  · rename_i heq
    exact heq ▸ Option.some.inj hw ▸ hv
  · exact h other w hw

/-- Nothing is derived at first. -/
theorem DerivesAll.empty : DerivesAll mint axes Dictionary.empty :=
  fun _ _ h => by simp at h

/-- A derived term is the number of an axis, or derived from the input, or a placeholder. -/
theorem DerivesAll.term_cases (h : DerivesAll mint axes derived)
    (ht : derived.term? name .absent = some t) :
    (∃ position, t = .const position) ∨
      Parameters.IsDerived name ∧ (t ∈ axes ∨ ∃ parameter, t = .hole (mint parameter)) := by
  obtain ⟨v, hv, ht⟩ := Parameters.term?_absent_iff.mp ht
  cases h name v hv with
  | axis position => exact Or.inl ⟨position, (Option.some.inj ht).symm⟩
  | extent _ x hname hx =>
    obtain rfl := Option.some.inj ht
    exact Or.inr ⟨hname, Or.inl hx⟩
  | hole _ parameter hname => exact Or.inr ⟨hname, Or.inr ⟨parameter, (Option.some.inj ht).symm⟩⟩

/-- Comparing the input with a parameter leaves a parameter that agrees with the input. -/
theorem checkInput_eq_ok (mint : String → Placeholder)
    (h : checkInput layer p name actual σ = .ok derived) (hname : Parameters.IsDerived name)
    (hactual : actual ∈ axes) :
    (∃ expected, (p.merged derived).term? name .absent = some expected ∧
      expected.AgreesUnder σ actual) ∧
      (∀ other, other ≠ name → derived.get? other = none) ∧ DerivesAll mint axes derived := by
  unfold checkInput at h
  split at h
  · obtain rfl := pure_eq_ok_iff.mp h
    refine ⟨⟨actual, Parameters.term?_merged_of_some (by simp [Dictionary.get?_insert]),
      Term.AgreesUnder.refl σ actual⟩, fun other hother => ?_, ?_⟩
    · simp [Dictionary.get?_insert, hother]
    · exact DerivesAll.empty.insert (.extent name actual hname hactual)
  · rename_i v hv
    obtain ⟨expected, hexpected, h⟩ := bind_eq_ok_iff.mp h
    obtain ⟨bound, hbound, h⟩ := bind_eq_ok_iff.mp h
    obtain ⟨boundActual, hboundActual, h⟩ := bind_eq_ok_iff.mp h
    obtain ⟨same, hsame, h⟩ := bind_eq_ok_iff.mp h
    split at h
    · rename_i htrue
      obtain rfl := pure_eq_ok_iff.mp h
      refine ⟨⟨expected, ?_, Term.ComparesAs.agreesUnder
        ⟨bound, boundActual, hbound, hboundActual, htrue ▸ hsame⟩⟩, fun _ _ => by simp,
        DerivesAll.empty⟩
      have hterm := Parameters.term?_eq_some_iff_given?.mpr ⟨v, hv, hexpected⟩
      rwa [Parameters.term?, Parameters.get?_merged_of_none Dictionary.get?_empty]
    · cases h

/-- Resolving the output yields the recorded parameter, which is the given one or a placeholder. -/
theorem resolveOutput_eq_ok (h : resolveOutput p name mint derived = .ok (t, derived'))
    (hname : Parameters.IsDerived name) (hnone : derived.get? name = none)
    (hderived : DerivesAll mint axes derived) :
    (p.merged derived').term? name .absent = some t ∧
      (∀ other, other ≠ name → derived'.get? other = derived.get? other) ∧
      DerivesAll mint axes derived' := by
  unfold resolveOutput at h
  split at h
  · obtain ⟨rfl, rfl⟩ := Prod.mk.inj (pure_eq_ok_iff.mp h)
    refine ⟨Parameters.term?_merged_of_some (by simp [Dictionary.get?_insert]),
      fun other hother => ?_, hderived.insert (.hole name name hname)⟩
    simp [Dictionary.get?_insert, hother]
  · rename_i v hv
    obtain ⟨u, hu, h⟩ := bind_eq_ok_iff.mp h
    obtain ⟨rfl, rfl⟩ := Prod.mk.inj (pure_eq_ok_iff.mp h)
    refine ⟨?_, fun _ _ => rfl, hderived⟩
    rw [Parameters.term?, Parameters.get?_merged_of_none hnone]
    exact Parameters.term?_eq_some_iff_given?.mpr ⟨v, hv, hu⟩

/-- A rule that compares the input with a parameter and takes the output from another one records
both, and leaves the other parameters as they are. -/
theorem recorded_of_checkInput {output : String}
    (hcheck : checkInput layer p name actual σ = .ok derived)
    (hresolve : resolveOutput p output mint derived = .ok (t, derived'))
    (hname : Parameters.IsDerived name) (houtput : Parameters.IsDerived output)
    (hne : output ≠ name) (hactual : actual ∈ axes) :
    (∃ expected, (p.merged derived').term? name .absent = some expected ∧
      expected.AgreesUnder σ actual) ∧
      (p.merged derived').term? output .absent = some t ∧
      (∀ other, other ≠ name → other ≠ output → (p.merged derived').get? other = p.get? other) ∧
      DerivesAll mint axes derived' := by
  obtain ⟨⟨expected, hexpected, hagree⟩, hothers, hderived⟩ :=
    checkInput_eq_ok mint hcheck hname hactual
  obtain ⟨hterm, hothers', hderived'⟩ :=
    resolveOutput_eq_ok hresolve houtput (hothers output hne) hderived
  refine ⟨⟨expected, ?_, hagree⟩, hterm, fun other hother hother' => ?_, hderived'⟩
  · rw [← hexpected]
    apply Parameters.term?_congr
    rw [Parameters.get?_merged, Parameters.get?_merged, hothers' name hne.symm]
  · have hnone : derived'.get? other = none := (hothers' other hother').trans (hothers other hother)
    exact Parameters.get?_merged_of_none hnone

/-- The first axis is split off a shape that has one. -/
theorem splitFirst_eq_ok {rest : List Term} (h : splitFirst ⟨axes⟩ = .ok (t, rest)) :
    axes = t :: rest := by
  unfold splitFirst at h
  cases axes with
  | nil => cases h
  | cons first others =>
    obtain ⟨rfl, rfl⟩ := Prod.mk.inj (pure_eq_ok_iff.mp h)
    rfl

/-- What a rule checks, derives and yields if it succeeds on extents, family by family. -/
inductive Rule.Yields (layer : String) (p : Parameters) (mint : String → Placeholder)
    (σ : Substitution) : Rule → List Term → RuleOutcome → Prop
  /-- The input channels are compared with the first extent, and the others are divided. -/
  | convolution {rank first spatial derived channels derived' shape}
      (checked : checkInput layer p inputChannels first σ = .ok derived)
      (resolved : resolveOutput p outputChannels mint derived = .ok (channels, derived'))
      (divided : downsample layer spatial p channels σ = .ok shape) :
      Yields layer p mint σ ⟨.convolution, rank⟩ (first :: spatial) ⟨shape, derived'⟩
  /-- The first extent stays, and the others are divided. -/
  | pooling {rank first spatial shape}
      (divided : downsample layer spatial p first σ = .ok shape) :
      Yields layer p mint σ ⟨.pooling, rank⟩ (first :: spatial) ⟨shape, .empty⟩
  /-- The input features are compared with the first extent. -/
  | dense {rank first rest derived features derived'}
      (checked : checkInput layer p inputFeatures first σ = .ok derived)
      (resolved : resolveOutput p outputFeatures mint derived = .ok (features, derived')) :
      Yields layer p mint σ ⟨.dense, rank⟩ (first :: rest) ⟨⟨[features]⟩, derived'⟩
  /-- The extents stay. -/
  | pointwise {rank axes} : Yields layer p mint σ ⟨.pointwise, rank⟩ axes ⟨⟨axes⟩, .empty⟩
  /-- The extents are multiplied. -/
  | flatten {rank axes} :
      Yields layer p mint σ ⟨.flatten, rank⟩ axes ⟨Shape.product ⟨axes⟩, .empty⟩
  /-- The extents stay, and a selected axis is recorded. -/
  | softmax {rank axes position}
      (selected : resolveAxis ((p.get? axisParameter).getD (.int (-1))) axes.length =
        .ok (some position)) :
      Yields layer p mint σ ⟨.softmax, rank⟩ axes
        ⟨⟨axes⟩, Dictionary.empty.insert axisParameter (.int position)⟩
  /-- The extents stay, and no axis is selected. -/
  | unselected {rank axes}
      (selected : resolveAxis ((p.get? axisParameter).getD (.int (-1))) axes.length = .ok none) :
      Yields layer p mint σ ⟨.softmax, rank⟩ axes ⟨⟨axes⟩, .empty⟩

/-- A rule transforms extents exactly into what it yields. -/
theorem Rule.transform_eq_ok_iff {outcome : RuleOutcome} :
    r.transform layer ⟨axes⟩ p mint σ = .ok outcome ↔ r.Yields layer p mint σ axes outcome := by
  constructor
  · intro h
    obtain ⟨family, spatialRank⟩ := r
    cases family with
    | convolution =>
      obtain ⟨⟨first, spatial⟩, hsplit, hrest⟩ := bind_eq_ok_iff.mp h
      obtain rfl := splitFirst_eq_ok hsplit
      obtain ⟨derived, hcheck, hrest⟩ := bind_eq_ok_iff.mp hrest
      obtain ⟨⟨channels, derived'⟩, hresolve, hrest⟩ := bind_eq_ok_iff.mp hrest
      obtain ⟨shape, hdown, hrest⟩ := bind_eq_ok_iff.mp hrest
      obtain rfl := pure_eq_ok_iff.mp hrest
      exact .convolution hcheck hresolve hdown
    | pooling =>
      obtain ⟨⟨first, spatial⟩, hsplit, hrest⟩ := bind_eq_ok_iff.mp h
      obtain rfl := splitFirst_eq_ok hsplit
      obtain ⟨shape, hdown, hrest⟩ := bind_eq_ok_iff.mp hrest
      obtain rfl := pure_eq_ok_iff.mp hrest
      exact .pooling hdown
    | dense =>
      obtain ⟨⟨first, rest⟩, hsplit, hrest⟩ := bind_eq_ok_iff.mp h
      obtain rfl := splitFirst_eq_ok hsplit
      obtain ⟨derived, hcheck, hrest⟩ := bind_eq_ok_iff.mp hrest
      obtain ⟨⟨features, derived'⟩, hresolve, hrest⟩ := bind_eq_ok_iff.mp hrest
      obtain rfl := pure_eq_ok_iff.mp hrest
      exact .dense hcheck hresolve
    | pointwise =>
      obtain rfl := pure_eq_ok_iff.mp h
      exact .pointwise
    | flatten =>
      obtain rfl := pure_eq_ok_iff.mp h
      exact .flatten
    | softmax =>
      obtain ⟨selected, hselected, hrest⟩ := bind_eq_ok_iff.mp h
      cases selected with
      | none =>
        obtain rfl := pure_eq_ok_iff.mp hrest
        exact .unselected hselected
      | some position =>
        obtain rfl := pure_eq_ok_iff.mp hrest
        exact .softmax hselected
  · intro h
    cases h with
    | convolution hcheck hresolve hdown =>
      exact bind_eq_ok_iff.mpr ⟨_, rfl, bind_eq_ok_iff.mpr ⟨_, hcheck, bind_eq_ok_iff.mpr
        ⟨_, hresolve, bind_eq_ok_iff.mpr ⟨_, hdown, rfl⟩⟩⟩⟩
    | pooling hdown => exact bind_eq_ok_iff.mpr ⟨_, rfl, bind_eq_ok_iff.mpr ⟨_, hdown, rfl⟩⟩
    | dense hcheck hresolve =>
      exact bind_eq_ok_iff.mpr ⟨_, rfl, bind_eq_ok_iff.mpr ⟨_, hcheck, bind_eq_ok_iff.mpr
        ⟨_, hresolve, rfl⟩⟩⟩
    | pointwise => rfl
    | flatten => rfl
    | softmax hselected => exact bind_eq_ok_iff.mpr ⟨_, hselected, rfl⟩
    | unselected hselected => exact bind_eq_ok_iff.mpr ⟨_, hselected, rfl⟩

/-- A rule that succeeds records parameters that it admits, and its output follows from them. -/
theorem Rule.transform_eq_ok {outcome : RuleOutcome} (hrank : r.acceptsRank axes.length = true)
    (h : r.transform layer ⟨axes⟩ p mint σ = .ok outcome) :
    r.formula (p.merged outcome.derived) axes = some outcome.shape.axes ∧
      r.Admits layer σ (p.merged outcome.derived) axes ∧
      DerivesAll mint axes outcome.derived := by
  cases transform_eq_ok_iff.mp h with
  | @convolution _ first spatial _ _ derived' _ hcheck hresolve hdown =>
    obtain ⟨step, hfits, rfl⟩ := downsample_eq_ok_iff.mp hdown
    obtain ⟨⟨expected, hexpected, hagree⟩, hchannels, hothers, hderived⟩ :=
      recorded_of_checkInput hcheck hresolve (by decide) (by decide) (by decide) List.mem_cons_self
    have hfits' : Fits layer σ (p.merged derived') spatial step :=
      hfits.congr (hothers _ (by decide) (by decide)) (hothers _ (by decide) (by decide))
    refine ⟨?_, ⟨hrank, fun name hname => ?_, fun _ => ⟨step, hfits'⟩, fun h => (by cases h)⟩,
      hderived⟩
    · simp [formula, hchannels, term?_of_checkStride hfits'.checked]
    · obtain rfl := Option.some.inj hname
      exact ⟨expected, first, spatial, hexpected, rfl, hagree⟩
  | @pooling _ _ spatial _ hdown =>
    obtain ⟨step, hfits, rfl⟩ := downsample_eq_ok_iff.mp hdown
    have hfits' : Fits layer σ (p.merged .empty) spatial step :=
      hfits.congr (Parameters.get?_merged_of_none rfl) (Parameters.get?_merged_of_none rfl)
    refine ⟨?_, ⟨hrank, fun _ h => (by cases h), fun _ => ⟨step, hfits'⟩, fun h => (by cases h)⟩,
      DerivesAll.empty⟩
    simp [formula, term?_of_checkStride hfits'.checked]
  | @dense _ first rest _ _ _ hcheck hresolve =>
    obtain ⟨⟨expected, hexpected, hagree⟩, hfeatures, _, hderived⟩ :=
      recorded_of_checkInput hcheck hresolve (by decide) (by decide) (by decide) List.mem_cons_self
    refine ⟨?_, ⟨hrank, fun name hname => ?_, by simp [RuleFamily.IsStrided],
      fun h => (by cases h)⟩, hderived⟩
    · simp [formula, hfeatures]
    · obtain rfl := Option.some.inj hname
      exact ⟨expected, first, rest, hexpected, rfl, hagree⟩
  | flatten =>
    exact ⟨rfl, .unconstrained hrank rfl (by simp [RuleFamily.IsStrided]) (by simp),
      DerivesAll.empty⟩
  | pointwise =>
    exact ⟨rfl, .unconstrained hrank rfl (by simp [RuleFamily.IsStrided]) (by simp),
      DerivesAll.empty⟩
  | unselected hselected =>
    refine ⟨rfl, ⟨hrank, fun _ h => (by cases h), by simp [RuleFamily.IsStrided],
      fun _ => ⟨none, ?_⟩⟩, DerivesAll.empty⟩
    rwa [Parameters.get?_merged_of_none rfl]
  | @softmax _ _ position hselected =>
    refine ⟨rfl, ⟨hrank, fun _ h => (by cases h), by simp [RuleFamily.IsStrided], fun _ => ?_⟩,
      DerivesAll.empty.insert (.axis position)⟩
    rw [Parameters.get?_merged, Dictionary.get?_insert, if_pos rfl, Option.some_or,
      Option.getD_some]
    exact ⟨_, rfl⟩

end Shapeline
