import Shapeline.Proofs.Rule.Application
import Shapeline.Proofs.Term.Comparison

/-!
# Rules on corresponding shapes

A rule looks at the extents of its input through checks only, and builds the extents of its output
by products and by quotients by the stride. So if the extents of two shapes are related in a way
that the checks respect and that products, quotients and simplification keep, a rule that applies to
one shape applies to the other, and what it yields is related again.
-/

namespace Shapeline

variable {layer name : String} {σ : Substitution} {p q d e derived : Parameters}
  {mint : String → Placeholder} {axes axes' spatial spatial' : List Term} {node : Int}
  {extent extent' kernel actual actual' step t x y : Term} {r : Rule} {v w : Value}
  {P : Term → Prop} {T T' : Term → Term → Prop} {position position' : Nat}

/-- Two values are one value that is no term, or related terms. -/
inductive Value.Related (T : Term → Term → Prop) : Value → Value → Prop
  /-- A value that is no term. -/
  | plain {v : Value} : (∀ t, v ≠ .dim t) → Related T v v
  /-- Related terms. -/
  | dim {x y : Term} : T x y → Related T (.dim x) (.dim y)

/-- Two sets have the same parameters with related values. -/
def Parameters.Related (T : Term → Term → Prop) (p q : Parameters) : Prop :=
  ∀ name, (p.get? name = none ∧ q.get? name = none) ∨
    ∃ v w, p.get? name = some v ∧ q.get? name = some w ∧ Value.Related T v w

/-- A relation may be replaced by a weaker one. -/
theorem Value.Related.imp (h : Value.Related T v w) (hT : ∀ x y, T x y → T' x y) :
    Value.Related T' v w := by
  cases h with
  | plain hv => exact .plain hv
  | dim hxy => exact .dim (hT _ _ hxy)

/-- A value is related to itself if it is so as a term. -/
theorem Value.Related.refl (h : ∀ t, v = .dim t → T t t) : Value.Related T v v := by
  cases v with
  | dim t => exact .dim (h t rfl)
  | _ => exact .plain nofun

namespace Parameters

/-- A relation may be replaced by a weaker one. -/
theorem Related.imp (h : p.Related T q) (hT : ∀ x y, T x y → T' x y) : p.Related T' q := by
  intro name
  rcases h name with hnone | ⟨v, w, hv, hw, hvw⟩
  · exact Or.inl hnone
  · exact Or.inr ⟨v, w, hv, hw, hvw.imp hT⟩

/-- Parameters are related to themselves if their terms are. -/
theorem Related.refl (h : ∀ name t, p.get? name = some (.dim t) → T t t) : p.Related T p := by
  intro name
  cases hv : p.get? name with
  | none => exact Or.inl ⟨rfl, rfl⟩
  | some v => exact Or.inr ⟨v, v, rfl, rfl, .refl fun t ht => h name t (ht ▸ hv)⟩

/-- Nothing is related to nothing. -/
theorem Related.empty : Related T Dictionary.empty Dictionary.empty := fun _ => Or.inl ⟨rfl, rfl⟩

/-- A further parameter with related values. -/
theorem Related.insert (h : p.Related T q) (hvw : Value.Related T v w) :
    Related T (Dictionary.insert p name v) (Dictionary.insert q name w) := by
  intro other
  rw [Dictionary.get?_insert, Dictionary.get?_insert]
  split
  · exact Or.inr ⟨v, w, rfl, rfl, hvw⟩
  · exact h other

/-- Related parameters that are merged are related. -/
theorem Related.merged (h : p.Related T q) (hderived : d.Related T e) :
    (p.merged d).Related T (q.merged e) := by
  intro name
  rw [get?_merged, get?_merged]
  rcases hderived name with ⟨hd, he⟩ | ⟨v, w, hd, he, hvw⟩
  · rw [hd, he, Option.none_or, Option.none_or]
    exact h name
  · rw [hd, he, Option.some_or, Option.some_or]
    exact Or.inr ⟨v, w, rfl, rfl, hvw⟩

end Parameters

/-- A kernel that passes the check against an extent passes it against one that is the same. -/
theorem checkKernel_congr (hσ : σ.Lowers) (hlow : extent.Lowers)
    (hsame : Term.SameUnder σ extent extent')
    (h : checkKernel layer position extent kernel σ = .ok ()) :
    checkKernel layer position extent' kernel σ = .ok () := by
  obtain ⟨bound, hbound, h⟩ := bind_eq_ok_iff.mp h
  obtain ⟨boundKernel, hkernel, h⟩ := bind_eq_ok_iff.mp h
  obtain ⟨concrete, hconcrete, h⟩ := bind_eq_ok_iff.mp h
  obtain ⟨bound', hbound', hlow', hagrees⟩ := hsame.exists_substitute hσ hlow hbound
  have hconcrete' := hagrees.isConcrete_eq hlow' hconcrete
  refine bind_eq_ok_iff.mpr ⟨bound', hbound', bind_eq_ok_iff.mpr ⟨boundKernel, hkernel,
    bind_eq_ok_iff.mpr ⟨concrete, hconcrete', ?_⟩⟩⟩
  cases concrete with
  | false => exact h
  | true =>
    rw [if_pos rfl] at h ⊢
    obtain ⟨concreteKernel, hconcreteKernel, h⟩ := bind_eq_ok_iff.mp h
    refine bind_eq_ok_iff.mpr ⟨concreteKernel, hconcreteKernel, ?_⟩
    cases concreteKernel with
    | false => exact h
    | true =>
      rw [if_pos rfl] at h ⊢
      obtain ⟨number, hnumber, h⟩ := bind_eq_ok_iff.mp h
      obtain ⟨numberKernel, hnumberKernel, h⟩ := bind_eq_ok_iff.mp h
      refine bind_eq_ok_iff.mpr ⟨number, hagrees.concreteValue_eq hlow' hnumber,
        bind_eq_ok_iff.mpr ⟨numberKernel, hnumberKernel, ?_⟩⟩
      split at h
      · cases h
      · rename_i hle
        rw [if_neg hle]
        rfl

/-- A kernel that passes the check against extents passes it against ones that are the same. -/
theorem checkKernels_congr (hσ : σ.Lowers)
    (hspatial : List.Forall₂ (fun x y => x.Lowers ∧ Term.SameUnder σ x y) spatial spatial')
    (h : checkKernels layer kernel σ position spatial = .ok ()) :
    checkKernels layer kernel σ position spatial' = .ok () := by
  induction hspatial generalizing position with
  | nil => rfl
  | cons hxy _ ih =>
    obtain ⟨_, hfirst, hrest⟩ := bind_eq_ok_iff.mp h
    exact bind_eq_ok_iff.mpr ⟨(), checkKernel_congr hσ hxy.1 hxy.2 hfirst, ih hrest⟩

/-- A stride that passes the check has a value under the substitution and does not vanish. -/
theorem definedUnder_of_checkStride (h : checkStride layer p σ = .ok step) :
    step.DefinedUnder σ ∧ ¬ step.VanishesUnder σ := by
  obtain ⟨bound, hbound, hzero⟩ := isZero_of_checkStride h
  obtain ⟨hlow, hvanishes⟩ := Term.isZero_eq_false_iff.mp hzero
  obtain ⟨ρ, x, hx⟩ := Term.lowers_iff_exists_valueAt.mp hlow
  exact ⟨⟨ρ, x, (Term.valueAt_of_substitute hbound).symm.trans hx⟩,
    (Term.vanishesUnder_iff hbound).not.mpr hvanishes⟩

/-- Every extent can be divided by a stride that passes the check. -/
theorem divide_of_checkStride (h : checkStride layer p σ = .ok step) (x : Term) :
    x.divide step = .ok (.op .div x step) := by
  obtain ⟨hdefined, hvanishes⟩ := definedUnder_of_checkStride h
  exact Term.divide_eq_ok_iff.mpr
    ⟨hdefined.lowers, fun hzero => hvanishes fun ρ y hy => hzero _ y hy, rfl⟩

/-- Stride and kernel that fit extents fit ones that are the same. -/
theorem Fits.same (h : Fits layer σ p spatial step) (hσ : σ.Lowers)
    (hspatial : List.Forall₂ (fun x y => x.Lowers ∧ Term.SameUnder σ x y) spatial spatial') :
    Fits layer σ p spatial' step where
  checked := h.checked
  kernel := by
    obtain ⟨kernel, hkernel, hchecked⟩ := h.kernel
    exact ⟨kernel, hkernel, fun extent hextent =>
      checkKernels_congr hσ hspatial (hchecked extent hextent)⟩
  quotients x _ := divide_of_checkStride h.checked x

/-- A relation between extents that rules keep. The checks of a rule do not tell related extents
apart, and what rules make of related extents and of the parameters of an author is related. -/
structure RuleRelation (σ : Substitution) (P : Term → Prop) (T : Term → Term → Prop) : Prop where
  /-- What an author writes lowers. -/
  author : ∀ t, P t → t.Lowers
  /-- An author can write integers. -/
  integer : ∀ n, P (.const n)
  /-- Related terms lower. -/
  lowers : ∀ a b, T a b → a.Lowers ∧ b.Lowers
  /-- Related terms are the same under the values of the variables. -/
  same : ∀ a b, T a b → Term.SameUnder σ a b
  /-- One is related to itself. -/
  one : T (.const 1) (.const 1)
  /-- Products are related. -/
  product : ∀ a b c d, T a b → T c d → T (.op .mul a c) (.op .mul b d)
  /-- Quotients by a stride are related. -/
  quotient : ∀ step, P step → step.DefinedUnder σ → ¬ step.VanishesUnder σ →
    ∀ a b, T a b → T (.op .div a step) (.op .div b step)
  /-- Simplified terms are related. -/
  simplify : ∀ a b, T a b → ∃ a' b', a.simplify = .ok a' ∧ b.simplify = .ok b' ∧ T a' b'

/-- The channels or features of the output that an author gives, or the placeholder for them, are
related to themselves. -/
def Rule.RelatesOutput (r : Rule) (T : Term → Term → Prop) (p : Parameters)
    (mint : String → Placeholder) : Prop :=
  ∀ name, r.family.outputParameter? = some name →
    (∀ t, p.term? name .absent = some t → T t t) ∧
      (p.given? name = none → T (.hole (mint name)) (.hole (mint name)))

namespace RuleRelation

variable (hT : RuleRelation σ P T)

include hT

/-- The comparison with the input is passed by a related input, and derives related parameters. -/
theorem checkInput (hσ : σ.Lowers) (hp : ∀ name t, p.term? name .absent = some t → P t)
    (hactual : T actual actual')
    (h : Shapeline.checkInput layer p name actual σ = .ok derived) :
    ∃ derived', Shapeline.checkInput layer p name actual' σ = .ok derived' ∧
      derived.Related T derived' := by
  unfold Shapeline.checkInput at h ⊢
  cases hgiven : p.given? name with
  | none =>
    rw [hgiven] at h
    obtain rfl := pure_eq_ok_iff.mp h
    exact ⟨_, rfl, Parameters.Related.empty.insert (.dim hactual)⟩
  | some v =>
    rw [hgiven] at h
    obtain ⟨expected, hexpected, h⟩ := bind_eq_ok_iff.mp h
    obtain ⟨bound, hbound, h⟩ := bind_eq_ok_iff.mp h
    obtain ⟨boundActual, hboundActual, h⟩ := bind_eq_ok_iff.mp h
    obtain ⟨same, hsame, h⟩ := bind_eq_ok_iff.mp h
    cases same with
    | false => cases h
    | true =>
      obtain rfl := pure_eq_ok_iff.mp h
      have hlow := hT.author _ (hp name expected
        (Parameters.term?_eq_some_iff_given?.mpr ⟨v, hgiven, hexpected⟩))
      obtain ⟨hlowa, hlowb⟩ := hT.lowers _ _ hactual
      obtain ⟨bound', boundActual', hbound', hboundActual', hsame'⟩ :=
        Term.ComparesAs.congr ⟨bound, boundActual, hbound, hboundActual, hsame⟩ hσ hlow hlowa hlow
          hlowb (.refl expected) (hT.same _ _ hactual)
      refine ⟨.empty, ?_, Parameters.Related.empty⟩
      exact bind_eq_ok_iff.mpr ⟨expected, hexpected, bind_eq_ok_iff.mpr ⟨bound', hbound',
        bind_eq_ok_iff.mpr ⟨boundActual', hboundActual', bind_eq_ok_iff.mpr ⟨true, hsame', rfl⟩⟩⟩⟩

omit hT in
/-- The channels or features of the output are the same, and are added to related parameters if
they are a placeholder. -/
theorem resolveOutput (houtput : r.RelatesOutput T p mint)
    (hname : r.family.outputParameter? = some name) (hderived : d.Related T e)
    (h : Shapeline.resolveOutput p name mint d = .ok (t, derived)) :
    ∃ derived', Shapeline.resolveOutput p name mint e = .ok (t, derived') ∧
      derived.Related T derived' ∧ T t t := by
  obtain ⟨hterm, hhole⟩ := houtput name hname
  unfold Shapeline.resolveOutput at h ⊢
  cases hgiven : p.given? name with
  | none =>
    rw [hgiven] at h
    obtain ⟨rfl, rfl⟩ := Prod.mk.inj (pure_eq_ok_iff.mp h)
    exact ⟨_, rfl, hderived.insert (.dim (hhole hgiven)), hhole hgiven⟩
  | some v =>
    rw [hgiven] at h
    obtain ⟨u, hu, h⟩ := bind_eq_ok_iff.mp h
    obtain ⟨rfl, rfl⟩ := Prod.mk.inj (pure_eq_ok_iff.mp h)
    exact ⟨e, bind_eq_ok_iff.mpr ⟨t, hu, rfl⟩, hderived,
      hterm t (Parameters.term?_eq_some_iff_given?.mpr ⟨v, hgiven, hu⟩)⟩

/-- Downsampling succeeds on related extents and yields related ones. -/
theorem downsample {shape : Shape} (hσ : σ.Lowers)
    (hp : ∀ name t, p.term? name .absent = some t → P t)
    (hspatial : List.Forall₂ T spatial spatial') (hchannels : T x y)
    (h : Shapeline.downsample layer spatial p x σ = .ok shape) :
    ∃ shape', Shapeline.downsample layer spatial' p y σ = .ok shape' ∧
      List.Forall₂ T shape.axes shape'.axes := by
  obtain ⟨step, hfits, rfl⟩ := downsample_eq_ok_iff.mp h
  have hsame : List.Forall₂ (fun a b => a.Lowers ∧ Term.SameUnder σ a b) spatial spatial' :=
    hspatial.imp fun a b hab => ⟨(hT.lowers a b hab).1, hT.same a b hab⟩
  have hstep : P step := by
    rcases Parameters.term?_int (term?_of_checkStride hfits.checked) with rfl | hterm
    · exact hT.integer 1
    · exact hp _ _ hterm
  obtain ⟨hdefined, hvanishes⟩ := definedUnder_of_checkStride hfits.checked
  refine ⟨⟨y :: spatial'.map (.op .div · step)⟩,
    downsample_eq_ok_iff.mpr ⟨step, hfits.same hσ hsame, rfl⟩, .cons hchannels ?_⟩
  rw [List.forall₂_map_left_iff, List.forall₂_map_right_iff]
  exact hspatial.imp fun a b hab => hT.quotient step hstep hdefined hvanishes a b hab

/-- The products of related extents are related. -/
theorem shapeProduct (haxes : List.Forall₂ T axes axes') :
    List.Forall₂ T (Shape.product ⟨axes⟩).axes (Shape.product ⟨axes'⟩).axes := by
  have hfold {first first' : Term} {rest rest' : List Term} (hrest : List.Forall₂ T rest rest')
      (hfirst : T first first') :
      T (rest.foldl (.op .mul) first) (rest'.foldl (.op .mul) first') := by
    induction hrest generalizing first first' with
    | nil => exact hfirst
    | cons h _ ih => exact ih (hT.product _ _ _ _ hfirst h)
  cases haxes with
  | nil => exact .cons hT.one .nil
  | cons hfirst hrest => exact .cons (hfold hrest hfirst) .nil

/-- Simplified shapes of related extents have related extents. -/
theorem simplifyAxes {simplified : List Term} (haxes : List.Forall₂ T axes axes')
    (h : List.Forall₂ (fun x y => x.simplify = .ok y) axes simplified) :
    ∃ simplified', List.Forall₂ (fun x y => x.simplify = .ok y) axes' simplified' ∧
      List.Forall₂ T simplified simplified' := by
  refine exists_forall₂_image (fun x y x' hxy hx => ?_) haxes h
  obtain ⟨u, y', hu, hy', hrelated⟩ := hT.simplify x y hxy
  obtain rfl := Except.ok.inj (hx.symm.trans hu)
  exact ⟨y', hy', hrelated⟩

end RuleRelation

/-- **Rules keep relations.** A rule that applies to extents applies to related ones with the same
parameters, and yields related extents and related parameters. -/
theorem Rule.transform_related {outcome : RuleOutcome} (hT : RuleRelation σ P T) (hσ : σ.Lowers)
    (hp : ∀ name t, p.term? name .absent = some t → P t) (houtput : r.RelatesOutput T p mint)
    (haxes : List.Forall₂ T axes axes')
    (h : r.transform layer ⟨axes⟩ p mint σ = .ok outcome) :
    ∃ outcome', r.transform layer ⟨axes'⟩ p mint σ = .ok outcome' ∧
      List.Forall₂ T outcome.shape.axes outcome'.shape.axes ∧
      outcome.derived.Related T outcome'.derived := by
  simp only [transform_eq_ok_iff] at h ⊢
  cases h with
  | convolution hcheck hresolve hdown =>
    obtain ⟨first', spatial', hfirst, hspatial, rfl⟩ := List.forall₂_cons_left_iff.mp haxes
    obtain ⟨d, hd, hrelated⟩ := hT.checkInput hσ hp hfirst hcheck
    obtain ⟨e, he, hrelated', hchannels⟩ :=
      RuleRelation.resolveOutput houtput rfl hrelated hresolve
    obtain ⟨shape', hshape', haxes'⟩ := hT.downsample hσ hp hspatial hchannels hdown
    exact ⟨_, .convolution hd he hshape', haxes', hrelated'⟩
  | pooling hdown =>
    obtain ⟨first', spatial', hfirst, hspatial, rfl⟩ := List.forall₂_cons_left_iff.mp haxes
    obtain ⟨shape', hshape', haxes'⟩ := hT.downsample hσ hp hspatial hfirst hdown
    exact ⟨_, .pooling hshape', haxes', Parameters.Related.empty⟩
  | dense hcheck hresolve =>
    obtain ⟨first', rest', hfirst, -, rfl⟩ := List.forall₂_cons_left_iff.mp haxes
    obtain ⟨d, hd, hrelated⟩ := hT.checkInput hσ hp hfirst hcheck
    obtain ⟨e, he, hrelated', hfeatures⟩ :=
      RuleRelation.resolveOutput houtput rfl hrelated hresolve
    exact ⟨_, .dense hd he, .cons hfeatures .nil, hrelated'⟩
  | pointwise => exact ⟨_, .pointwise, haxes, Parameters.Related.empty⟩
  | flatten => exact ⟨_, .flatten, hT.shapeProduct haxes, Parameters.Related.empty⟩
  | softmax hselected =>
    rw [haxes.length_eq] at hselected
    exact ⟨_, .softmax hselected, haxes, Parameters.Related.empty.insert (.plain nofun)⟩
  | unselected hselected =>
    rw [haxes.length_eq] at hselected
    exact ⟨_, .unselected hselected, haxes, Parameters.Related.empty⟩

/-- A rule that applies to a shape, and whose outcome is simplified, does so for a related shape. -/
theorem Rule.apply_related {outcome : RuleOutcome} (hT : RuleRelation σ P T) (hσ : σ.Lowers)
    (hp : ∀ name t, p.term? name .absent = some t → P t) (houtput : r.RelatesOutput T p mint)
    (haxes : List.Forall₂ T axes axes') (h : r.apply layer ⟨axes⟩ p mint σ = .ok outcome) :
    ∃ outcome', r.apply layer ⟨axes'⟩ p mint σ = .ok outcome' ∧
      List.Forall₂ T outcome.shape.axes outcome'.shape.axes ∧
      outcome.derived.Related T outcome'.derived := by
  unfold Rule.apply at h ⊢
  have hrank : Shape.rank ⟨axes'⟩ = Shape.rank ⟨axes⟩ := haxes.length_eq.symm
  rw [hrank]
  split at h
  · rename_i haccepts
    rw [if_pos haccepts]
    obtain ⟨raw, hraw, h⟩ := bind_eq_ok_iff.mp h
    obtain ⟨shape, hshape, h⟩ := bind_eq_ok_iff.mp h
    obtain rfl := pure_eq_ok_iff.mp h
    obtain ⟨raw', hraw', haxes', hderived⟩ := transform_related hT hσ hp houtput haxes hraw
    obtain ⟨simplified, hsimplify, hrelated⟩ :=
      hT.simplifyAxes haxes' (Shape.simplify_eq_ok_iff.mp hshape)
    exact ⟨{ raw' with shape := ⟨simplified⟩ }, bind_eq_ok_iff.mpr ⟨raw', hraw',
      bind_eq_ok_iff.mpr ⟨⟨simplified⟩, Shape.simplify_eq_ok_iff.mpr hsimplify, rfl⟩⟩,
      hrelated, hderived⟩
  · cases h

end Shapeline
