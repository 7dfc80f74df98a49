import Mathlib.Order.Bounds.Defs
import Shapeline.Proofs.Divisors
import Shapeline.Proofs.Rule.Checks

/-!
# What rules accept

A rule checks its input in a fixed order: the number of axes, the channels or features, the stride,
and the kernel against one extent after the other. Whatever passes all checks has an output.
-/

namespace Shapeline

variable {layer : String} {σ : Substitution} {p derived : Parameters}
  {mint : String → Placeholder} {axes spatial : List Term} {channels : Term} {r : Rule}
  {outcome : Outcome RuleOutcome}

namespace Rule

/-- The numbers of axes that a rule takes: a convolution and a pooling one more than the spatial
axes, a dense rule one, a flattening rule and a softmax at least one. -/
def TakesRank (r : Rule) (rank : ℕ) : Prop :=
  match r.family with
  | .convolution | .pooling => (rank : ℤ) = r.spatialRank + 1
  | .dense => rank = 1
  | .flatten | .softmax => 1 ≤ rank
  | .pointwise => True

/-- The channels or features of the input are given and do not agree with the first extent. -/
def RefusesInput (r : Rule) (σ : Substitution) (p : Parameters) (axes : List Term) : Prop :=
  ∃ name expected actual, r.family.inputParameter? = some name ∧
    p.term? name .absent = some expected ∧ axes.head? = some actual ∧
    ¬ expected.AgreesUnder σ actual

/-- The stride is zero. -/
def RefusesStride (r : Rule) (σ : Substitution) (p : Parameters) : Prop :=
  r.family.IsStrided ∧ p.strideTerm.VanishesUnder σ

/-- The kernel is larger than the spatial extent at a position. -/
def RefusesKernel (r : Rule) (σ : Substitution) (p : Parameters) (axes : List Term) (position : ℕ) :
    Prop :=
  r.family.IsStrided ∧ 1 ≤ position ∧ ∃ kernel extent, p.term? kernelSize .absent = some kernel ∧
    axes[position]? = some extent ∧ kernel.ExceedsUnder σ extent

/-- What a rule makes of extents that it accepts, before they are simplified. -/
def output (r : Rule) (p : Parameters) (mint : String → Placeholder) (axes : List Term) :
    List Term :=
  match r.family with
  | .convolution =>
    p.termOrHole outputChannels mint :: axes.tail.map (.op .div · p.strideTerm)
  | .pooling => axes.take 1 ++ axes.tail.map (.op .div · p.strideTerm)
  | .dense => [p.termOrHole outputFeatures mint]
  | .flatten => (Shape.product ⟨axes⟩).axes
  | .pointwise | .softmax => axes

/-- What the checks of a rule lead to, one after the other, on a shape with a number of axes that
the rule takes. -/
inductive Checked (r : Rule) (layer : String) (σ : Substitution) (p : Parameters)
    (axes : List Term) (accepted : RuleOutcome → Prop) : Outcome RuleOutcome → Prop
  /-- The channels or features differ. -/
  | input (name : String) (expected actual : Term) : r.family.inputParameter? = some name →
    p.term? name .absent = some expected → axes.head? = some actual →
    ¬ expected.AgreesUnder σ actual → Checked r layer σ p axes accepted (.error (.problem
      (.mismatch expected.text actual.text (some 0) none (some layer) s!"'{name}'")))
  /-- The stride is zero. -/
  | stride : ¬ r.RefusesInput σ p axes → r.RefusesStride σ p →
    Checked r layer σ p axes accepted (.error (.problem
      { cause := .arithmetic "stride must not be zero", layer := some layer }))
  /-- The kernel is too large, for this position first. -/
  | kernel (position : ℕ) (extent kernel : Term) : ¬ r.RefusesInput σ p axes →
    ¬ r.RefusesStride σ p → p.term? kernelSize .absent = some kernel →
    axes[position]? = some extent → IsLeast { i | r.RefusesKernel σ p axes i } position →
    Checked r layer σ p axes accepted (.error (.problem
      (.kernelExtent layer position extent.text kernel.text none)))
  /-- All checks are passed. -/
  | accepted (outcome : RuleOutcome) : ¬ r.RefusesInput σ p axes → ¬ r.RefusesStride σ p →
    (∀ i, ¬ r.RefusesKernel σ p axes i) → accepted outcome →
    Checked r layer σ p axes accepted (.ok outcome)

/-- The model's test for the number of axes. -/
theorem acceptsRank_iff {rank : ℕ} : r.acceptsRank rank = true ↔ r.TakesRank rank := by
  obtain ⟨family, spatialRank⟩ := r
  cases family <;> simp [acceptsRank, TakesRank]

/-- Rules that do not divide by a stride have neither stride nor kernel to refuse. -/
theorem Checked.of_not_isStrided {accepted : RuleOutcome → Prop} {outcome : RuleOutcome}
    (hstrided : ¬ r.family.IsStrided) (hinput : ¬ r.RefusesInput σ p axes)
    (haccepted : accepted outcome) : r.Checked layer σ p axes accepted (.ok outcome) :=
  .accepted outcome hinput (fun h => hstrided h.1) (fun _ h => hstrided h.1) haccepted

/-- What is done with an outcome that has passed the checks may go on. -/
theorem Checked.bind {accepted accepted' : RuleOutcome → Prop} {outcome : Outcome RuleOutcome}
    {next : RuleOutcome → Outcome RuleOutcome} (h : r.Checked layer σ p axes accepted outcome)
    (hnext : ∀ result, ¬ r.RefusesStride σ p → accepted result → Returns accepted' (next result)) :
    r.Checked layer σ p axes accepted' (outcome >>= next) := by
  cases h with
  | input name expected actual hname hexpected hactual hnot =>
    exact .input name expected actual hname hexpected hactual hnot
  | stride hinput hstride => exact .stride hinput hstride
  | kernel position extent kernel hinput hstride hkernel hextent hleast =>
    exact .kernel position extent kernel hinput hstride hkernel hextent hleast
  | accepted result hinput hstride hkernel haccepted =>
    obtain ⟨next', hresult, haccepted'⟩ := hnext result hstride haccepted
    have hnext' : (.ok result >>= next : Outcome RuleOutcome) = .ok next' := hresult
    exact hnext' ▸ .accepted next' hinput hstride hkernel haccepted'

/-- Dividing the extents after the first is what the checks of stride and kernel lead to. -/
theorem checked_downsample (hp : p.Checkable σ) {first : Term} (hstrided : r.family.IsStrided)
    (hinput : ¬ r.RefusesInput σ p (first :: spatial))
    (hspatial : ∀ x ∈ spatial, x.DefinedUnder σ) :
    r.Checked layer σ p (first :: spatial)
      (fun outcome => outcome.shape.axes = channels :: spatial.map (.op .div · p.strideTerm))
      (do return ⟨← downsample layer spatial p channels σ, derived⟩) := by
  have hposition {position : ℕ} : r.RefusesKernel σ p (first :: spatial) position ↔
      ∃ i kernel extent, position = 1 + i ∧ p.term? kernelSize .absent = some kernel ∧
        spatial[i]? = some extent ∧ kernel.ExceedsUnder σ extent := by
    constructor
    · rintro ⟨-, hpositive, kernel, extent, hkernel, hextent, hexceeds⟩
      obtain ⟨i, rfl⟩ := Nat.exists_eq_add_of_le hpositive
      rw [Nat.add_comm, List.getElem?_cons_succ] at hextent
      exact ⟨i, kernel, extent, rfl, hkernel, hextent, hexceeds⟩
    · rintro ⟨i, kernel, extent, rfl, hkernel, hextent, hexceeds⟩
      refine ⟨hstrided, Nat.le_add_right 1 i, kernel, extent, hkernel, ?_, hexceeds⟩
      rwa [Nat.add_comm, List.getElem?_cons_succ]
  rcases hp.downsample_eq layer channels hspatial with
    ⟨hvanish, herror⟩ | ⟨hvanish, kernel, i, extent, hkernel, hi, hexceeds, hleast, herror⟩ |
      ⟨hvanish, hnone, hok⟩
  · rw [herror]
    exact .stride hinput ⟨hstrided, hvanish⟩
  · rw [herror]
    have hextent : (first :: spatial)[1 + i]? = some extent := by
      rwa [Nat.add_comm, List.getElem?_cons_succ]
    refine .kernel (1 + i) extent kernel hinput (fun h => hvanish h.2) hkernel hextent
      ⟨hposition.mpr ⟨i, kernel, extent, rfl, hkernel, hi, hexceeds⟩, fun position hrefused => ?_⟩
    obtain ⟨j, kernel', extent', rfl, hkernel', hj, hexceeds'⟩ := hposition.mp hrefused
    obtain rfl := Option.some.inj (hkernel.symm.trans hkernel')
    by_contra hlt
    exact hleast j (by omega) extent' hj hexceeds'
  · rw [hok]
    refine .accepted _ hinput (fun h => hvanish h.2) (fun position hrefused => ?_) rfl
    obtain ⟨i, kernel, extent, -, hkernel, hi, hexceeds⟩ := hposition.mp hrefused
    exact hnone kernel hkernel extent (List.mem_of_getElem? hi) hexceeds

/-- A rule that compares its input refuses it or goes on. -/
theorem checked_input (hp : p.Checkable σ) {name : String} {first : Term}
    (hname : r.family.inputParameter? = some name) (hmem : name ∈ dimensionParameters)
    (hfirst : first.DefinedUnder σ) {accepted : RuleOutcome → Prop}
    {next : Parameters → Outcome RuleOutcome}
    (hnext : ¬ r.RefusesInput σ p (first :: spatial) → ∀ derived,
      r.Checked layer σ p (first :: spatial) accepted (next derived)) :
    r.Checked layer σ p (first :: spatial) accepted
      (checkInput layer p name first σ >>= next) := by
  rcases hp.checkInput_eq layer hmem hfirst with
    ⟨expected, hexpected, hnot, herror⟩ | ⟨hagrees, derived, hok⟩
  · rw [herror]
    exact .input name expected first hname hexpected rfl hnot
  · rw [hok]
    refine hnext ?_ derived
    rintro ⟨other, expected, actual, hother, hexpected, hactual, hnot⟩
    obtain rfl := Option.some.inj (hname.symm.trans hother)
    obtain rfl := Option.some.inj hactual
    exact hnot (hagrees expected hexpected)

/-- A shape with a number of axes that the rule takes has a first axis, if the rule looks at it. -/
theorem TakesRank.exists_cons (h : r.TakesRank axes.length) (hrank : 0 ≤ r.spatialRank)
    (hfamily : r.family ∈ [.convolution, .pooling, .dense]) :
    ∃ first spatial, axes = first :: spatial := by
  refine List.exists_cons_of_ne_nil fun hnil => ?_
  subst hnil
  obtain ⟨family, spatialRank⟩ := r
  cases family <;> simp [TakesRank] at h hfamily
  all_goals
    dsimp only at hrank
    omega

/-- On a shape with a number of axes that the rule takes, a rule does what its checks lead to. -/
theorem checked_transform (layer : String) (mint : String → Placeholder) (hp : p.Checkable σ)
    (hrank : 0 ≤ r.spatialRank) (haxes : ∀ x ∈ axes, x.DefinedUnder σ)
    (haxis : ∀ t, p.get? axisParameter = some (.dim t) → t.Lowers)
    (htakes : r.TakesRank axes.length) :
    r.Checked layer σ p axes (fun outcome => outcome.shape.axes = r.output p mint axes)
      (r.transform layer ⟨axes⟩ p mint σ) := by
  obtain ⟨family, spatialRank⟩ := r
  have hnever {axes : List Term} (hnone : family.inputParameter? = none) :
      ¬ (⟨family, spatialRank⟩ : Rule).RefusesInput σ p axes := by
    rintro ⟨name, -, -, hname, -⟩
    cases hnone.symm.trans hname
  cases family with
  | convolution =>
    obtain ⟨first, spatial, rfl⟩ := htakes.exists_cons hrank (by simp)
    obtain ⟨hfirst, hspatial⟩ := List.forall_mem_cons.mp haxes
    refine checked_input hp rfl (by decide) hfirst fun hinput derived => ?_
    have hmem : outputChannels ∈ dimensionParameters := by decide
    obtain ⟨derived', hresolve⟩ := hp.resolveOutput_eq mint derived hmem
    rw [hresolve]
    exact checked_downsample hp (Or.inl rfl) hinput hspatial
  | pooling =>
    obtain ⟨first, spatial, rfl⟩ := htakes.exists_cons hrank (by simp)
    exact checked_downsample hp (Or.inr rfl) (hnever rfl) (List.forall_mem_cons.mp haxes).2
  | dense =>
    obtain ⟨first, spatial, rfl⟩ := htakes.exists_cons hrank (by simp)
    obtain ⟨hfirst, -⟩ := List.forall_mem_cons.mp haxes
    refine checked_input hp rfl (by decide) hfirst fun hinput derived => ?_
    have hmem : outputFeatures ∈ dimensionParameters := by decide
    obtain ⟨derived', hresolve⟩ := hp.resolveOutput_eq mint derived hmem
    rw [hresolve]
    exact .of_not_isStrided (by simp [RuleFamily.IsStrided]) hinput rfl
  | pointwise => exact .of_not_isStrided (by simp [RuleFamily.IsStrided]) (hnever rfl) rfl
  | flatten => exact .of_not_isStrided (by simp [RuleFamily.IsStrided]) (hnever rfl) rfl
  | softmax =>
    have hreturns : Returns (fun _ => True)
        (resolveAxis ((p.get? axisParameter).getD (.int (-1))) axes.length) := by
      refine returns_resolveAxis fun t ht => ?_
      cases hget : p.get? axisParameter with
      | none => rw [hget] at ht; cases ht
      | some v => rw [hget] at ht; exact haxis t (hget.trans (congrArg _ ht))
    obtain ⟨selected, hselected, -⟩ := hreturns
    have htransform : ∃ derived, transform ⟨.softmax, spatialRank⟩ layer ⟨axes⟩ p mint σ =
        .ok ⟨⟨axes⟩, derived⟩ := by
      cases selected <;> exact ⟨_, bind_eq_ok_iff.mpr ⟨_, hselected, rfl⟩⟩
    obtain ⟨derived, hok⟩ := htransform
    rw [hok]
    exact .of_not_isStrided (by simp [RuleFamily.IsStrided]) (hnever rfl) rfl

/-- What a rule makes of extents that lower lowers, unless the stride is refused. -/
theorem lowers_output (hp : p.Checkable σ) (haxes : ∀ x ∈ axes, x.Lowers)
    (hstride : ¬ r.RefusesStride σ p) : ∀ x ∈ r.output p mint axes, x.Lowers := by
  have hquotients (hstrided : r.family.IsStrided) :
      ∀ x ∈ axes.tail.map (Term.op .div · p.strideTerm), x.Lowers := by
    refine List.forall_mem_map.mpr fun x hx => Term.lowers_op_iff.mpr
      ⟨haxes x (List.mem_of_mem_tail hx), hp.dimension_stride.2.lowers, fun _ hvanish => ?_⟩
    exact hstride ⟨hstrided, fun ρ y hy => hvanish _ y hy⟩
  obtain ⟨family, spatialRank⟩ := r
  cases family with
  | convolution =>
    exact List.forall_mem_cons.mpr ⟨hp.lowers_termOrHole (by decide), hquotients (Or.inl rfl)⟩
  | pooling =>
    exact List.forall_mem_append.mpr
      ⟨fun x hx => haxes x (List.mem_of_mem_take hx), hquotients (Or.inr rfl)⟩
  | dense => exact List.forall_mem_singleton.mpr (hp.lowers_termOrHole (by decide))
  | flatten =>
    have hsound : Shape.TermsSatisfy Term.Sound ⟨axes⟩ :=
      fun x hx => Term.sound_iff_lowers.mpr (haxes x hx)
    exact fun x hx => Term.sound_iff_lowers.mp (hsound.product x hx)
  | pointwise => exact haxes
  | softmax => exact haxes

/-- A simplified shape is equivalent to the shape. -/
theorem exists_simplify (h : ∀ x ∈ axes, x.Lowers) : ∃ s, Shape.simplify ⟨axes⟩ = .ok s ∧
    List.Forall₂ (fun x y => x.equivalent y = .ok true) s.axes axes := by
  have hsimplify : ∀ x ∈ axes, ∃ u, x.simplify = .ok u ∧ u.equivalent x = .ok true := by
    intro x hx
    obtain ⟨u, hu, hlow⟩ := (h x hx).simplify
    exact ⟨u, hu, (Term.equivalent_eq_ok_iff hlow (h x hx)).mpr
      (iff_of_true rfl (Term.agrees_simplify hu))⟩
  obtain ⟨simplified, hall⟩ := exists_forall₂ hsimplify
  exact ⟨⟨simplified⟩, Shape.simplify_eq_ok_iff.mpr (hall.imp fun _ _ hu => hu.1),
    (hall.imp fun _ _ hu => hu.2).flip⟩

/-- On a shape with a number of axes that the rule takes, a rule that is applied does what its
checks lead to, and its output is equivalent to what the rule makes of the extents. -/
theorem checked_apply (layer : String) (mint : String → Placeholder) (hp : p.Checkable σ)
    (hrank : 0 ≤ r.spatialRank) (haxes : ∀ x ∈ axes, x.DefinedUnder σ)
    (haxis : ∀ t, p.get? axisParameter = some (.dim t) → t.Lowers)
    (htakes : r.TakesRank axes.length) :
    r.Checked layer σ p axes (fun outcome => List.Forall₂ (fun x y => x.equivalent y = .ok true)
      outcome.shape.axes (r.output p mint axes)) (r.apply layer ⟨axes⟩ p mint σ) := by
  have haccepts : r.acceptsRank (Shape.mk axes).rank = true := acceptsRank_iff.mpr htakes
  rw [apply, if_pos haccepts]
  refine (checked_transform layer mint hp hrank haxes haxis htakes).bind
    fun ⟨⟨raw⟩, derived⟩ hstride houtput => ?_
  obtain rfl := houtput
  obtain ⟨s, hs, hequivalent⟩ :=
    exists_simplify (lowers_output hp (fun x hx => (haxes x hx).lowers) hstride)
  exact ⟨⟨s, derived⟩, bind_eq_ok_iff.mpr ⟨s, hs, rfl⟩, hequivalent⟩

end Rule

/-- An operation raises a diagnostic with a certain code. -/
def Raises {α : Type} (code : ErrorCode) (x : Outcome α) : Prop :=
  ∃ d, x = .error (.problem d) ∧ d.code = code

/-- A diagnostic that is raised has one code. -/
theorem raises_problem_iff {α : Type} {code : ErrorCode} {d : Diagnostic} :
    Raises code (.error (.problem d) : Outcome α) ↔ d.code = code := by
  constructor
  · rintro ⟨other, hother, hcode⟩
    obtain rfl := Failure.problem.inj (Except.error.inj hother)
    exact hcode
  · exact fun hcode => ⟨d, rfl, hcode⟩

/-- A result raises nothing. -/
theorem not_raises_ok {α : Type} {code : ErrorCode} (a : α) : ¬ Raises code (.ok a : Outcome α) :=
  fun ⟨_, h, _⟩ => by cases h

namespace Rule.Checked

variable {accepted : RuleOutcome → Prop} (h : r.Checked layer σ p axes accepted outcome)

include h

/-- The number of axes is not complained about. -/
theorem not_raises_arity : ¬ Raises .arity outcome := by
  cases h with
  | accepted outcome => exact not_raises_ok outcome
  | _ => exact raises_problem_iff.not.mpr nofun

/-- A mismatch is raised exactly if the input is refused. -/
theorem raises_mismatch_iff : Raises .mismatch outcome ↔ r.RefusesInput σ p axes := by
  cases h with
  | input name expected actual hname hexpected hactual hnot =>
    exact iff_of_true (raises_problem_iff.mpr rfl)
      ⟨name, expected, actual, hname, hexpected, hactual, hnot⟩
  | stride hinput => exact iff_of_false (raises_problem_iff.not.mpr nofun) hinput
  | kernel _ _ _ hinput => exact iff_of_false (raises_problem_iff.not.mpr nofun) hinput
  | accepted outcome hinput => exact iff_of_false (not_raises_ok outcome) hinput

variable (hinput : ¬ r.RefusesInput σ p axes)

include hinput

/-- If the input is not refused, an arithmetic problem is raised exactly if the stride is. -/
theorem raises_arithmetic_iff : Raises .arithmetic outcome ↔ r.RefusesStride σ p := by
  cases h with
  | input name expected actual hname hexpected hactual hnot =>
    exact absurd ⟨name, expected, actual, hname, hexpected, hactual, hnot⟩ hinput
  | stride _ hstride => exact iff_of_true (raises_problem_iff.mpr rfl) hstride
  | kernel _ _ _ _ hstride => exact iff_of_false (raises_problem_iff.not.mpr nofun) hstride
  | accepted outcome _ hstride => exact iff_of_false (not_raises_ok outcome) hstride

variable (hstride : ¬ r.RefusesStride σ p)

include hstride

/-- If the stride is not refused either, the kernel is at some position first, or all checks are
passed. -/
theorem kernel_or_accepted :
    (∃ (position : ℕ) (extent kernel : String),
      IsLeast { i | r.RefusesKernel σ p axes i } position ∧
      outcome = .error (.problem (.kernelExtent layer position extent kernel none))) ∨
    ∃ result, outcome = .ok result ∧ (∀ i, ¬ r.RefusesKernel σ p axes i) ∧ accepted result := by
  cases h with
  | input name expected actual hname hexpected hactual hnot =>
    exact absurd ⟨name, expected, actual, hname, hexpected, hactual, hnot⟩ hinput
  | stride _ hrefused => exact absurd hrefused hstride
  | kernel position extent kernel _ _ _ _ hleast =>
    exact Or.inl ⟨position, extent.text, kernel.text, hleast, rfl⟩
  | accepted result _ _ hkernel haccepted => exact Or.inr ⟨result, rfl, hkernel, haccepted⟩

/-- Then a kernel is complained about exactly if it is refused. -/
theorem raises_kernelExtent_iff :
    Raises .kernelExtent outcome ↔ ∃ i, r.RefusesKernel σ p axes i := by
  obtain ⟨position, extent, kernel, hleast, rfl⟩ | ⟨result, rfl, hkernel, -⟩ :=
    h.kernel_or_accepted hinput hstride
  · exact iff_of_true (raises_problem_iff.mpr rfl) ⟨position, hleast.1⟩
  · exact iff_of_false (not_raises_ok result) (not_exists.mpr hkernel)

/-- The complaint names the first position at which the kernel is refused. -/
theorem names_position_iff {position : ℕ} :
    (∃ extent kernel, outcome =
      .error (.problem (.kernelExtent layer position extent kernel none))) ↔
      IsLeast { i | r.RefusesKernel σ p axes i } position := by
  obtain ⟨first, extent, kernel, hleast, rfl⟩ | ⟨result, rfl, hkernel, -⟩ :=
    h.kernel_or_accepted hinput hstride
  · constructor
    · rintro ⟨extent', kernel', heq⟩
      have hposition : (first : ℤ) = position := by
        have hdiagnostic := Failure.problem.inj (Except.error.inj heq)
        exact (Cause.kernelExtent.inj (congrArg Diagnostic.cause hdiagnostic)).1
      exact Int.ofNat.inj hposition ▸ hleast
    · exact fun hposition => ⟨extent, kernel, by rw [hleast.unique hposition]⟩
  · exact iff_of_false (fun ⟨_, _, heq⟩ => by cases heq) fun hleast => hkernel position hleast.1

/-- If the kernel is refused nowhere there is a result. -/
theorem returns (hkernel : ∀ i, ¬ r.RefusesKernel σ p axes i) : Returns accepted outcome := by
  obtain ⟨position, _, _, hleast, -⟩ | ⟨result, hresult, -, haccepted⟩ :=
    h.kernel_or_accepted hinput hstride
  · exact absurd hleast.1 (hkernel position)
  · exact ⟨result, hresult, haccepted⟩

end Rule.Checked

/-- **A rule accepts exactly the inputs it should.** A rule that is applied to extents that lower,
with parameters that are missing or lower, complains about the number of axes exactly if it does not
take this number; otherwise about a mismatch exactly if channels or features of the input are given
and do not agree with the first extent under the bindings; otherwise about arithmetic exactly if the
stride is zero under the bindings; otherwise about a kernel exactly if it is larger than a spatial
extent, both being constant under the bindings, and then it names the first such axis. Otherwise it
has an output, which is equivalent to what the rule makes of the extents. Channels, features and a
kernel without a value are missing; a stride without a value is not, and is no dimension. -/
theorem rule_accepts_exactly (r : Rule) (layer : String) (mint : String → Placeholder)
    {shape : Shape} {bindings : Dictionary Term} (hrank : 0 ≤ r.spatialRank)
    (hbindings : ∀ name t, bindings.get? name = some t → t.Lowers)
    (hshape : ∀ x ∈ shape.axes, x.Lowers ∧ ∃ u, x.substituteTerms bindings = .ok u)
    (hparams : ∀ name ∈ dimensionParameters, ∀ v, p.given? name = some v →
      ∃ t, v.toTerm? = some t ∧ t.Lowers ∧ ∃ u, t.substituteTerms bindings = .ok u)
    (hstride : p.get? stride ≠ some .absent)
    (haxis : ∀ t, p.get? axisParameter = some (.dim t) → t.Lowers) :
    let σ := Substitution.ofTerms bindings
    let outcome := r.apply layer shape p mint σ
    (Raises .arity outcome ↔ ¬ r.TakesRank shape.rank) ∧
    (r.TakesRank shape.rank →
      (Raises .mismatch outcome ↔ r.RefusesInput σ p shape.axes) ∧
      (¬ r.RefusesInput σ p shape.axes →
        (Raises .arithmetic outcome ↔ r.RefusesStride σ p) ∧
        (¬ r.RefusesStride σ p →
          (Raises .kernelExtent outcome ↔ ∃ i, r.RefusesKernel σ p shape.axes i) ∧
          (∀ position : ℕ, (∃ extent kernel, outcome =
              .error (.problem (.kernelExtent layer position extent kernel none))) ↔
            IsLeast { i | r.RefusesKernel σ p shape.axes i } position) ∧
          ((∀ i, ¬ r.RefusesKernel σ p shape.axes i) →
            Returns (fun outcome => List.Forall₂ (fun x y => x.equivalent y = .ok true)
              outcome.shape.axes (r.output p mint shape.axes)) outcome)))) := by
  intro σ outcome
  have hσ : σ.Lowers := Substitution.lowers_ofTerms_iff.mpr hbindings
  have hp : p.Checkable σ := by
    refine ⟨fun name hname v hv => ?_, hstride⟩
    obtain ⟨t, ht, hlow, u, hu⟩ := hparams name hname v hv
    exact ⟨t, ht, .of_substitute hlow hσ hu⟩
  have haxes (x : Term) (hx : x ∈ shape.axes) : x.DefinedUnder σ := by
    obtain ⟨hlow, u, hu⟩ := hshape x hx
    exact .of_substitute hlow hσ hu
  by_cases htakes : r.TakesRank shape.rank
  · have h := Rule.checked_apply layer mint hp hrank haxes haxis htakes
    exact ⟨iff_of_false h.not_raises_arity (not_not.mpr htakes), fun _ =>
      ⟨h.raises_mismatch_iff, fun hinput => ⟨h.raises_arithmetic_iff hinput, fun hstride =>
        ⟨h.raises_kernelExtent_iff hinput hstride, fun _ => h.names_position_iff hinput hstride,
          h.returns hinput hstride⟩⟩⟩⟩
  · refine ⟨iff_of_true ?_ htakes, fun h => absurd h htakes⟩
    have hrejects : ¬ r.acceptsRank shape.rank = true := Rule.acceptsRank_iff.not.mpr htakes
    have happly :
        outcome = .error (.problem (.arity (some layer) r.expectedRank shape.rank none)) :=
      if_neg hrejects
    exact happly ▸ raises_problem_iff.mpr rfl

/-- A kernel of the extent `(K * K - 1) / (K - 1) - K + 4`, which is five whatever `K` is, exceeds
the extents three and two. The first of them is complained about. -/
theorem cancelled_kernel_refused :
    let r : Rule := ⟨.convolution, 2⟩
    let shape : Shape := ⟨[.const 3, .sym "H", .sym "W"]⟩
    let kernel : Term := .op .add (.op .sub (.op .div
      (.op .sub (.op .mul (.sym "K") (.sym "K")) (.const 1)) (.op .sub (.sym "K") (.const 1)))
      (.sym "K")) (.const 4)
    let p : Parameters := .ofList [(kernelSize, .dim kernel)]
    let mint (name : String) : Placeholder := ⟨"?" ++ name, 0, "Conv2D", name⟩
    let bindings : Dictionary Term := .ofList [("H", .const 3), ("W", .const 2)]
    r.TakesRank shape.rank ∧ ¬ r.RefusesInput (.ofTerms bindings) p shape.axes ∧
      ¬ r.RefusesStride (.ofTerms bindings) p ∧
      r.apply "Conv2D" shape p mint (.ofTerms bindings) =
        .error (.problem (.kernelExtent "Conv2D" 1 "H" kernel.text none)) ∧
      IsLeast { i | r.RefusesKernel (.ofTerms bindings) p shape.axes i } 1 := by
  intro r shape kernel p mint bindings
  have hbindings : ∀ name t, bindings.get? name = some t → t.Lowers :=
    Dictionary.forall_get?_iff.mpr (by decide +kernel)
  have hshape : ∀ x ∈ shape.axes, x.Lowers ∧ ∃ u, x.substituteTerms bindings = .ok u := by
    refine List.forall_mem_cons.mpr ⟨⟨by decide +kernel, _, rfl⟩, List.forall_mem_cons.mpr
      ⟨⟨by decide +kernel, _, rfl⟩, List.forall_mem_singleton.mpr ⟨by decide +kernel, _, rfl⟩⟩⟩
  have honly (name : String) (v : Value) (h : p.get? name = some v) :
      name = kernelSize ∧ v = .dim kernel :=
    Prod.mk.inj (List.mem_singleton.mp (Dictionary.mem_entries_iff.mpr h))
  have hparams : ∀ name ∈ dimensionParameters, ∀ v, p.given? name = some v →
      ∃ t, v.toTerm? = some t ∧ t.Lowers ∧ ∃ u, t.substituteTerms bindings = .ok u := by
    intro name _ v hv
    obtain ⟨-, rfl⟩ := honly name v (Parameters.get?_of_given? hv)
    exact ⟨kernel, rfl, by decide +kernel, kernel, Term.substitute_eq_self (by decide)⟩
  have hstride : p.get? stride ≠ some .absent := fun h => nomatch (honly _ _ h).2
  have haxis (t : Term) (h : p.get? axisParameter = some (.dim t)) : t.Lowers :=
    absurd (honly _ _ h).1 (by decide)
  have herror : r.apply "Conv2D" shape p mint (.ofTerms bindings) =
      .error (.problem (.kernelExtent "Conv2D" 1 "H" kernel.text none)) := by
    have hfailure : (match r.apply "Conv2D" shape p mint (.ofTerms bindings) with
        | .error failure =>
          decide (failure = .problem (.kernelExtent "Conv2D" 1 "H" kernel.text none))
        | .ok _ => false) = true := by
      decide +kernel
    cases hresult : r.apply "Conv2D" shape p mint (.ofTerms bindings) with
    | ok outcome =>
      rw [hresult] at hfailure
      cases hfailure
    | error failure =>
      rw [hresult] at hfailure
      exact congrArg _ (of_decide_eq_true hfailure)
  obtain ⟨harity, hrest⟩ := rule_accepts_exactly r "Conv2D" mint (by decide) hbindings hshape
    hparams hstride haxis
  rw [herror, raises_problem_iff] at harity
  have htakes : r.TakesRank shape.rank := not_not.mp (harity.not.mp nofun)
  obtain ⟨hmismatch, hrest⟩ := hrest htakes
  rw [herror, raises_problem_iff] at hmismatch
  have hinput := hmismatch.not.mp nofun
  obtain ⟨harithmetic, hrest⟩ := hrest hinput
  rw [herror, raises_problem_iff] at harithmetic
  have hnonzero := harithmetic.not.mp nofun
  exact ⟨htakes, hinput, hnonzero, herror, ((hrest hnonzero).2.1 1).mp ⟨_, _, herror⟩⟩

end Shapeline
