import Shapeline.Proofs.Rule.Checks

/-!
# Binding before and during a check

The known values of symbols take part in the checks of a rule, while its output keeps the symbols.
Instead one may substitute the values in the shape and in the parameters first, and apply the rule
without them. Both ways fail together, with failures of one class, and the output of the first with
the values substituted in it is equivalent to that of the second.
-/

namespace Shapeline

variable {α β γ δ : Type}

/-- Two failures are of one class: they are the same, or diagnostics with the same code. -/
def Failure.SameClass (failure failure' : Failure) : Prop :=
  failure = failure' ∨
    ∃ d d', failure = .problem d ∧ failure' = .problem d' ∧ d.code = d'.code

/-- Two operations end alike: both fail, with failures of one class, or both return related
results. -/
inductive Alike (R : α → β → Prop) : Outcome α → Outcome β → Prop
  /-- Both fail. -/
  | error {failure failure' : Failure} : failure.SameClass failure' →
    Alike R (.error failure) (.error failure')
  /-- Both return. -/
  | ok {a : α} {b : β} : R a b → Alike R (.ok a) (.ok b)

namespace Alike

variable {R R' : α → β → Prop} {S : γ → δ → Prop} {x : Outcome α} {y : Outcome β}

/-- An operation ends as itself. -/
theorem refl (x : Outcome α) : Alike (· = ·) x x := by
  cases x with
  | error failure => exact .error (Or.inl rfl)
  | ok a => exact .ok rfl

/-- Diagnostics with the same code are alike. -/
theorem of_problem {d d' : Diagnostic} (h : d.code = d'.code) :
    Alike R (throw (.problem d)) (throw (.problem d')) :=
  .error (Or.inr ⟨d, d', rfl, rfl, h⟩)

/-- A relation may be replaced by another one that the results have. -/
theorem imp (h : Alike R x y) (himp : ∀ a b, x = .ok a → y = .ok b → R a b → R' a b) :
    Alike R' x y := by
  cases h with
  | error hclass => exact .error hclass
  | ok hab => exact .ok (himp _ _ rfl rfl hab)

/-- Sequences of operations end alike part by part. -/
theorem of_bind {f : α → Outcome γ} {g : β → Outcome δ} (h : Alike R x y)
    (hnext : ∀ a b, R a b → Alike S (f a) (g b)) : Alike S (x >>= f) (y >>= g) := by
  cases h with
  | error hclass => exact .error hclass
  | ok hab => exact hnext _ _ hab

/-- Operations on the items of related lists end alike. -/
theorem of_mapM {f : γ → Outcome α} {g : δ → Outcome β} {items : List γ} {items' : List δ}
    (h : List.Forall₂ S items items') (hnext : ∀ a b, S a b → Alike R (f a) (g b)) :
    Alike (List.Forall₂ R) (items.mapM f) (items'.mapM g) := by
  induction h with
  | nil => exact .ok .nil
  | cons hab _ ih =>
    rw [List.mapM_cons, List.mapM_cons]
    exact (hnext _ _ hab).of_bind fun _ _ hfirst => ih.of_bind fun _ _ hrest =>
      .ok (.cons hfirst hrest)

/-- Operations that fail on divisions only end alike if they return together. -/
theorem of_divisions (hx : Fails False Diagnostic.IsDivision x)
    (hy : Fails False Diagnostic.IsDivision y) (hiff : (∃ a, x = .ok a) ↔ ∃ b, y = .ok b)
    (h : ∀ a b, x = .ok a → y = .ok b → R a b) : Alike R x y := by
  cases hresult : x with
  | ok a =>
    obtain ⟨b, hb⟩ := hiff.mp ⟨a, hresult⟩
    exact hb ▸ .ok (h a b hresult hb)
  | error failure =>
    cases hresult' : y with
    | ok b =>
      obtain ⟨a, ha⟩ := hiff.mpr ⟨b, hresult'⟩
      cases hresult.symm.trans ha
    | error failure' =>
      obtain ⟨d, rfl, quotient, rfl⟩ := hx.exists_problem hresult
      obtain ⟨d', rfl, quotient', rfl⟩ := hy.exists_problem hresult'
      exact of_problem rfl

/-- What it is to end alike, for each way to end. -/
theorem ends (h : Alike R x y) :
    (∀ failure, x = .error failure → ∃ failure', y = .error failure' ∧ failure.SameClass failure') ∧
    (∀ failure', y = .error failure' → ∃ failure, x = .error failure ∧ failure.SameClass failure') ∧
    ∀ a b, x = .ok a → y = .ok b → R a b := by
  cases h with
  | error hclass =>
    refine ⟨fun failure hx => ?_, fun failure' hy => ?_, fun a b hx _ => (by cases hx)⟩
    · obtain rfl := Except.error.inj hx
      exact ⟨_, rfl, hclass⟩
    · obtain rfl := Except.error.inj hy
      exact ⟨_, rfl, hclass⟩
  | ok hab =>
    refine ⟨fun _ hx => (by cases hx), fun _ hy => (by cases hy), fun a b hx hy => ?_⟩
    obtain rfl := Except.ok.inj hx
    obtain rfl := Except.ok.inj hy
    exact hab

end Alike

variable {layer name : String} {σ : Substitution} {p q derived derived' : Parameters}
  {mint : String → Placeholder} {axes axes' spatial spatial' : List Term} {position : ℕ}
  {t u extent extent' kernel kernel' actual actual' channels channels' : Term}
  {v w default : Value} {r : Rule}

/-- The substitution that replaces nothing. -/
def Substitution.nothing : Substitution := .ofTerms .empty

/-- A term is what another one becomes by a substitution. -/
def Term.BoundTo (σ : Substitution) (t u : Term) : Prop := t.substitute σ = .ok u

namespace Term

/-- To replace nothing changes nothing. -/
theorem substitute_nothing (t : Term) : t.substitute .nothing = .ok t :=
  substitute_eq_self fun _ _ => rfl

/-- To bind a term during a check and to have bound it before comes to the same. -/
theorem BoundTo.alike (h : t.BoundTo σ u) :
    Alike (· = ·) (t.substitute σ) (u.substitute .nothing) := by
  rw [h, substitute_nothing]
  exact .ok rfl

/-- A term lowers exactly if what it becomes does. -/
theorem BoundTo.lowers_iff (h : t.BoundTo σ u) (hσ : σ.Lowers) : t.Lowers ↔ u.Lowers := by
  refine ⟨fun ht => ht.substitute hσ h, fun hu => ?_⟩
  obtain ⟨ρ, x, hx⟩ := lowers_iff_exists_valueAt.mp hu
  exact lowers_of_valueAt ((valueAt_of_substitute h).symm.trans hx)

end Term

open Term Relator

/-- A value is a plain one, which stays, or a term that becomes another one. -/
abbrev Value.BoundTo (σ : Substitution) : Value → Value → Prop := Value.Related (Term.BoundTo σ)

/-- Parameters after a substitution are related to those before. -/
theorem Parameters.related_substitute (h : p.substitute σ = .ok q) :
    p.Related (Term.BoundTo σ) q := by
  intro name
  rcases get?_substitute h name with hnone | ⟨v, hv, hplain, hq⟩ | ⟨t, u, hp, hu, hq⟩
  · exact Or.inl hnone
  · exact Or.inr ⟨v, v, hv, hq, .plain hplain⟩
  · exact Or.inr ⟨_, _, hp, hq, .dim hu⟩

/-- Whether a value is a dimension does not change. -/
theorem Value.Related.alike_toTerm (h : Value.BoundTo σ v w) :
    Alike (Term.BoundTo σ) v.toTerm w.toTerm := by
  cases h with
  | plain hplain =>
    cases v with
    | int n => exact .ok rfl
    | dim t => exact absurd rfl (hplain t)
    | _ => exact .error (Or.inl rfl)
  | dim h => exact .ok h

section Checks

variable (hp : p.Related (Term.BoundTo σ) q)

include hp

/-- The same parameters have values. -/
theorem Parameters.Related.given? (name : String) :
    (p.given? name = none ∧ q.given? name = none) ∨
      ∃ v w, p.given? name = some v ∧ q.given? name = some w ∧ Value.BoundTo σ v w := by
  unfold Parameters.given?
  rcases hp name with ⟨hnone, hnone'⟩ | ⟨v, w, hv, hw, hvw⟩
  · exact Or.inl ⟨by rw [hnone], by rw [hnone']⟩
  · rw [hv, hw]
    cases hvw with
    | plain hplain =>
      cases v with
      | absent => exact Or.inl ⟨rfl, rfl⟩
      | _ => exact Or.inr ⟨_, _, rfl, rfl, .plain hplain⟩
    | dim h => exact Or.inr ⟨_, _, rfl, rfl, .dim h⟩

/-- A default that is no term stands for missing parameters in both. -/
theorem Parameters.Related.getD (name : String) (hdefault : ∀ t, default ≠ .dim t) :
    Value.BoundTo σ ((p.get? name).getD default) ((q.get? name).getD default) := by
  rcases hp name with ⟨hnone, hnone'⟩ | ⟨v, w, hv, hw, hvw⟩
  · rw [hnone, hnone']
    exact .plain hdefault
  · rw [hv, hw]
    exact hvw

/-- A parameter is read as a dimension, as none, or not at all. -/
theorem Parameters.Related.alike_dimension (hdefault : ∀ t, default ≠ .dim t) :
    Alike (Option.Rel (Term.BoundTo σ)) (p.dimension name default) (q.dimension name default) := by
  have hvalue := hp.getD name hdefault
  unfold Parameters.dimension
  generalize (p.get? name).getD default = v at hvalue
  generalize (q.get? name).getD default = w at hvalue
  have hterm := hvalue.alike_toTerm
  cases hvalue with
  | plain hplain =>
    cases v with
    | absent => exact .ok .none
    | _ => exact hterm.of_bind fun _ _ h => .ok (.some h)
  | dim h => exact hterm.of_bind fun _ _ h => .ok (.some h)

/-- The comparison with the input ends alike. -/
theorem alike_checkInput (hactual : actual.BoundTo σ actual') :
    Alike (fun _ _ => True) (checkInput layer p name actual σ)
      (checkInput layer q name actual' .nothing) := by
  unfold checkInput
  rcases hp.given? name with ⟨hnone, hnone'⟩ | ⟨v, w, hv, hw, hvw⟩
  · rw [hnone, hnone']
    exact .ok trivial
  · rw [hv, hw]
    refine hvw.alike_toTerm.of_bind fun expected expected' hexpected => ?_
    refine hexpected.alike.of_bind fun bound _ heq => heq ▸ ?_
    refine hactual.alike.of_bind fun boundActual _ heq => heq ▸ ?_
    refine (Alike.refl _).of_bind fun same _ heq => heq ▸ ?_
    cases same with
    | true => exact .ok trivial
    | false => exact .of_problem rfl

/-- The channels or features of the output become those of the bound parameters. A placeholder
stays, if its name is not bound. -/
theorem alike_resolveOutput (hmint : p.given? name = none → σ (mint name).name = none) :
    Alike (fun a b => a.1.BoundTo σ b.1) (resolveOutput p name mint derived)
      (resolveOutput q name mint derived') := by
  unfold resolveOutput
  rcases hp.given? name with ⟨hnone, hnone'⟩ | ⟨v, w, hv, hw, hvw⟩
  · rw [hnone, hnone']
    refine .ok (substitute_eq_self fun symbol hsymbol => ?_)
    rw [List.mem_singleton.mp hsymbol]
    exact hmint hnone
  · rw [hv, hw]
    exact hvw.alike_toTerm.of_bind fun _ _ h => .ok h

/-- The check of the stride ends alike. -/
theorem alike_checkStride :
    Alike (Term.BoundTo σ) (checkStride layer p σ) (checkStride layer q .nothing) := by
  have hdefault : ∀ t, Value.int 1 ≠ .dim t := fun _ => nofun
  refine (hp.alike_dimension hdefault).of_bind fun found found' hfound => ?_
  cases hfound with
  | none => exact .error (Or.inl rfl)
  | some hstep =>
    refine hstep.alike.of_bind fun bound _ heq => heq ▸ ?_
    refine (Alike.refl _).of_bind fun concrete _ heq => heq ▸ ?_
    cases concrete with
    | false => exact .ok hstep
    | true =>
      refine (Alike.refl _).of_bind fun number _ heq => heq ▸ ?_
      by_cases hzero : number = 0
      · rw [if_pos hzero, if_pos hzero]
        exact .error (Or.inl rfl)
      · rw [if_neg hzero, if_neg hzero]
        exact .ok hstep

omit hp in
/-- The check of a kernel ends alike. -/
theorem alike_checkKernel (hextent : extent.BoundTo σ extent')
    (hkernel : kernel.BoundTo σ kernel') :
    Alike (· = ·) (checkKernel layer position extent kernel σ)
      (checkKernel layer position extent' kernel' .nothing) := by
  refine hextent.alike.of_bind fun bound _ heq => heq ▸ ?_
  refine hkernel.alike.of_bind fun boundKernel _ heq => heq ▸ ?_
  refine (Alike.refl _).of_bind fun concrete _ heq => heq ▸ ?_
  cases concrete with
  | false => exact .refl _
  | true =>
    refine (Alike.refl _).of_bind fun concreteKernel _ heq => heq ▸ ?_
    cases concreteKernel with
    | false => exact .refl _
    | true =>
      refine (Alike.refl _).of_bind fun x _ heq => heq ▸ ?_
      refine (Alike.refl _).of_bind fun y _ heq => heq ▸ ?_
      by_cases hlt : x < y
      · rw [if_pos hlt, if_pos hlt]
        exact .of_problem rfl
      · rw [if_neg hlt, if_neg hlt]
        exact .refl _

omit hp in
/-- The check of a kernel against all extents ends alike. -/
theorem alike_checkKernels (hspatial : List.Forall₂ (Term.BoundTo σ) spatial spatial')
    (hkernel : kernel.BoundTo σ kernel') :
    Alike (· = ·) (checkKernels layer kernel σ position spatial)
      (checkKernels layer kernel' .nothing position spatial') := by
  induction hspatial generalizing position with
  | nil => exact .refl _
  | cons hextent _ ih => exact (alike_checkKernel hextent hkernel).of_bind fun _ _ _ => ih

/-- Dividing the extents ends alike, and the quotients become those of the bound extents. -/
theorem alike_downsample (hspatial : List.Forall₂ (Term.BoundTo σ) spatial spatial')
    (hchannels : channels.BoundTo σ channels') :
    Alike (fun s s' : Shape => List.Forall₂ (Term.BoundTo σ) s.axes s'.axes)
      (downsample layer spatial p channels σ) (downsample layer spatial' q channels' .nothing) := by
  have hstride : Alike (fun step step' => step.BoundTo σ step' ∧
      (∀ x : Term, x.divide step = .ok (.op .div x step)) ∧
      ∀ x : Term, x.divide step' = .ok (.op .div x step'))
      (checkStride layer p σ) (checkStride layer q .nothing) :=
    (alike_checkStride hp).imp fun step step' hstep hstep' h =>
      ⟨h, divide_of_checkStride hstep, divide_of_checkStride hstep'⟩
  refine hstride.of_bind fun step step' ⟨hstep, hdivide, hdivide'⟩ => ?_
  have hquotients : Alike (fun s s' : Shape => List.Forall₂ (Term.BoundTo σ) s.axes s'.axes)
      (do return ⟨channels :: (← spatial.mapM (·.divide step))⟩)
      (do return ⟨channels' :: (← spatial'.mapM (·.divide step'))⟩) := by
    refine (Alike.of_mapM hspatial fun x x' hx => ?_).of_bind fun _ _ h => .ok (.cons hchannels h)
    rw [hdivide x, hdivide' x']
    refine .ok (substitute_op hx hstep fun _ => ?_)
    obtain ⟨hlow, hvanish, -⟩ := divide_eq_ok_iff.mp (hdivide' x')
    exact ⟨hlow, hvanish⟩
  have hdefault : ∀ t, Value.absent ≠ .dim t := fun _ => nofun
  refine (hp.alike_dimension hdefault).of_bind fun found found' hfound => ?_
  cases hfound with
  | none => exact hquotients
  | some hkernel => exact (alike_checkKernels hspatial hkernel).of_bind fun _ _ _ => hquotients

/-- An axis may be made out only after its term is bound, but neither way fails alone. -/
theorem alike_resolveAxis (hσ : σ.Lowers) (hdefault : ∀ t, default ≠ .dim t) {rank : ℤ} :
    Alike (fun _ _ => True) (resolveAxis ((p.get? name).getD default) rank)
      (resolveAxis ((q.get? name).getD default) rank) := by
  have hreturns (t : Term) : (∃ selected, resolveAxis (.dim t) rank = .ok selected) ↔ t.Lowers := by
    constructor
    · rintro ⟨selected, hselected⟩
      obtain ⟨concrete, hconcrete, -⟩ := bind_eq_ok_iff.mp hselected
      exact (isConcrete_eq_ok_iff.mp hconcrete).1
    · intro ht
      have hresult : Returns (fun _ => True) (resolveAxis (.dim t) rank) :=
        returns_resolveAxis fun u hu => Value.dim.inj hu ▸ ht
      exact hresult.imp fun _ h => h.1
  have hvalue := hp.getD name hdefault
  generalize (p.get? name).getD default = v at hvalue
  generalize (q.get? name).getD default = w at hvalue
  cases hvalue with
  | plain _ => exact (Alike.refl _).imp fun _ _ _ _ _ => trivial
  | dim h =>
    refine .of_divisions fails_resolveAxis fails_resolveAxis ?_ fun _ _ _ _ => trivial
    rw [hreturns, hreturns, h.lowers_iff hσ]

end Checks

/-- A product becomes the product of the bound extents. -/
theorem boundTo_product (haxes : List.Forall₂ (Term.BoundTo σ) axes axes') :
    List.Forall₂ (Term.BoundTo σ) (Shape.product ⟨axes⟩).axes (Shape.product ⟨axes'⟩).axes := by
  cases haxes with
  | nil => exact .cons rfl .nil
  | cons hfirst hrest =>
    have hmul : (Term.BoundTo σ ⇒ Term.BoundTo σ ⇒ Term.BoundTo σ) (.op .mul) (.op .mul) :=
      fun _ _ hl _ _ hr => substitute_op hl hr nofun
    exact .cons (List.rel_foldl hmul hfirst hrest) .nil

/-- Simplifying ends alike, and what a simplified term becomes is equivalent to the simplified bound
term. -/
theorem alike_simplify (hσ : σ.Lowers) (h : t.BoundTo σ u) :
    Alike (fun a b => ∃ c, a.substitute σ = .ok c ∧ c.equivalent b = .ok true)
      t.simplify u.simplify := by
  have hreturns (t : Term) : (∃ a, t.simplify = .ok a) ↔ t.Lowers :=
    ⟨fun ⟨_, ha⟩ => lowers_of_simplify ha, fun ht => ht.simplify.imp fun _ ha => ha.1⟩
  refine .of_divisions fails_simplify fails_simplify ?_ fun a b ha hb => ?_
  · rw [hreturns, hreturns, h.lowers_iff hσ]
  · have hu : u.Lowers := lowers_of_simplify hb
    have hdefined : t.DefinedUnder σ := .of_substitute (lowers_of_simplify ha) hσ h
    obtain ⟨c, hc, hclow⟩ := (hdefined.simplify ha).exists_substitute
    have hblow : b.Lowers := by
      obtain ⟨b', hb', hlow⟩ := hu.simplify
      exact Except.ok.inj (hb'.symm.trans hb) ▸ hlow
    have hagrees : c.Agrees b :=
      ((SameUnder.simplify hdefined ha).agrees_substitute hc h).trans hu (agrees_simplify hb).symm
    exact ⟨c, hc, (equivalent_eq_ok_iff hclow hblow).mpr (iff_of_true rfl hagrees)⟩

namespace Rule

/-- On bound extents and parameters a rule ends alike, and its output is the bound one. -/
theorem alike_transform (hσ : σ.Lowers) (hp : p.Related (Term.BoundTo σ) q)
    (haxes : List.Forall₂ (Term.BoundTo σ) axes axes')
    (hmint : ∀ name, r.family.outputParameter? = some name → p.given? name = none →
      σ (mint name).name = none) :
    Alike (fun o o' : RuleOutcome => List.Forall₂ (Term.BoundTo σ) o.shape.axes o'.shape.axes)
      (r.transform layer ⟨axes⟩ p mint σ) (r.transform layer ⟨axes'⟩ q mint .nothing) := by
  have hsplit : Alike (fun a b => a.1.BoundTo σ b.1 ∧ List.Forall₂ (Term.BoundTo σ) a.2 b.2)
      (splitFirst ⟨axes⟩) (splitFirst ⟨axes'⟩) := by
    cases haxes with
    | nil => exact .error (Or.inl rfl)
    | cons hfirst hrest => exact .ok ⟨hfirst, hrest⟩
  obtain ⟨family, spatialRank⟩ := r
  cases family with
  | convolution =>
    refine hsplit.of_bind fun (first, spatial) (first', spatial') ⟨hfirst, hspatial⟩ => ?_
    refine (alike_checkInput hp hfirst).of_bind fun derived derived' _ => ?_
    refine (alike_resolveOutput hp (hmint _ rfl)).of_bind
      fun (channels, derived) (channels', derived') hchannels => ?_
    exact (alike_downsample hp hspatial hchannels).of_bind fun _ _ h => .ok h
  | pooling =>
    refine hsplit.of_bind fun (first, spatial) (first', spatial') ⟨hfirst, hspatial⟩ => ?_
    exact (alike_downsample hp hspatial hfirst).of_bind fun _ _ h => .ok h
  | dense =>
    refine hsplit.of_bind fun (first, rest) (first', rest') ⟨hfirst, _⟩ => ?_
    refine (alike_checkInput hp hfirst).of_bind fun derived derived' _ => ?_
    exact (alike_resolveOutput hp (hmint _ rfl)).of_bind
      fun (features, derived) (features', derived') hfeatures => .ok (.cons hfeatures .nil)
  | pointwise => exact .ok haxes
  | flatten => exact .ok (boundTo_product haxes)
  | softmax =>
    have hrank : Shape.rank ⟨axes'⟩ = Shape.rank ⟨axes⟩ := haxes.length_eq.symm
    have hdefault : ∀ t, Value.int (-1) ≠ .dim t := fun _ => nofun
    simp only [transform, hrank]
    refine (alike_resolveAxis hp hσ hdefault).of_bind fun selected selected' _ => ?_
    cases selected <;> cases selected' <;> exact .ok haxes

/-- A rule that is applied to a bound shape with bound parameters ends alike, and its output is
equivalent to the bound output. -/
theorem alike_apply (hσ : σ.Lowers) (hp : p.Related (Term.BoundTo σ) q)
    (haxes : List.Forall₂ (Term.BoundTo σ) axes axes')
    (hmint : ∀ name, r.family.outputParameter? = some name → p.given? name = none →
      σ (mint name).name = none) :
    Alike (fun o o' : RuleOutcome => ∃ s, o.shape.substitute σ = .ok s ∧
        List.Forall₂ (fun x y => x.equivalent y = .ok true) s.axes o'.shape.axes)
      (r.apply layer ⟨axes⟩ p mint σ) (r.apply layer ⟨axes'⟩ q mint .nothing) := by
  have hrank : Shape.rank ⟨axes'⟩ = Shape.rank ⟨axes⟩ := haxes.length_eq.symm
  unfold apply
  rw [hrank]
  by_cases haccepts : r.acceptsRank (Shape.rank ⟨axes⟩) = true
  · rw [if_pos haccepts, if_pos haccepts]
    refine (alike_transform hσ hp haxes hmint).of_bind fun raw raw' hraw => ?_
    have hsimplify := Alike.of_mapM hraw fun _ _ h => alike_simplify hσ h
    refine (hsimplify.of_bind fun simplified simplified' h => Alike.ok ?_).of_bind
      fun s s' (h : ∃ t, s.substitute σ = .ok t ∧
        List.Forall₂ (fun x y => x.equivalent y = .ok true) t.axes s'.axes) => .ok h
    obtain ⟨bound, hbound, hequivalent⟩ :=
      exists_forall₂_image (fun b a b' ⟨c, hc, hcb⟩ (heq : b = b') => ⟨c, hc, heq ▸ hcb⟩) h.flip
        (List.forall₂_same.mpr fun _ _ => rfl)
    exact ⟨⟨bound⟩, Shape.substitute_eq_ok_iff.mpr hbound, hequivalent.flip⟩
  · rw [if_neg haccepts, if_neg haccepts]
    exact .of_problem rfl

end Rule

/-- **Checking under bindings is binding first.** A rule that is applied to a shape and parameters
under bindings fails if and only if it fails, without bindings, on the shape and the parameters with
the bindings substituted in them, and the failures are of one class. If it succeeds, its output with
the bindings substituted in it is equivalent to the output of the other. A placeholder that the rule
mints must not have the name of a binding. -/
theorem binding_first_ends_alike {shape shape' : Shape} {bindings : Dictionary Term}
    (hbindings : ∀ name t, bindings.get? name = some t → t.Lowers)
    (hmint : ∀ name, r.family.outputParameter? = some name → p.given? name = none →
      bindings.get? (mint name).name = none)
    (hshape : shape.substitute (.ofTerms bindings) = .ok shape')
    (hparams : p.substitute (.ofTerms bindings) = .ok q) :
    let checked := r.apply layer shape p mint (.ofTerms bindings)
    let bound := r.apply layer shape' q mint (.ofTerms .empty)
    (∀ failure, checked = .error failure →
      ∃ failure', bound = .error failure' ∧ failure.SameClass failure') ∧
    (∀ failure', bound = .error failure' →
      ∃ failure, checked = .error failure ∧ failure.SameClass failure') ∧
    ∀ outcome outcome', checked = .ok outcome → bound = .ok outcome' →
      ∃ s, outcome.shape.substitute (.ofTerms bindings) = .ok s ∧
        List.Forall₂ (fun x y => x.equivalent y = .ok true) s.axes outcome'.shape.axes := by
  have hσ := Substitution.lowers_ofTerms_iff.mpr hbindings
  exact (Rule.alike_apply hσ (Parameters.related_substitute hparams)
    (Shape.substitute_eq_ok_iff.mp hshape) fun name hname hnone =>
      Substitution.ofTerms_eq_none_iff.mpr (hmint name hname hnone)).ends

/-- A convolution without output channels, of which the stride and the extent are bound: with the
bindings substituted in it, the output is equivalent to that for the extent twelve and the stride
two. -/
theorem bound_convolution_ends_alike :
    let r : Rule := ⟨.convolution, 1⟩
    let shape : Shape := ⟨[.sym "C", .sym "N"]⟩
    let shape' : Shape := ⟨[.sym "C", .const 12]⟩
    let p : Parameters := .ofList [(kernelSize, .int 3), (stride, .dim (.sym "S"))]
    let q : Parameters := .ofList [(kernelSize, .int 3), (stride, .dim (.const 2))]
    let mint (name : String) : Placeholder := ⟨"?" ++ name, 0, "Conv1D", name⟩
    let bindings : Dictionary Term := .ofList [("N", .const 12), ("S", .const 2)]
    ∃ outcome outcome' s, r.apply "Conv1D" shape p mint (.ofTerms bindings) = .ok outcome ∧
      r.apply "Conv1D" shape' q mint (.ofTerms .empty) = .ok outcome' ∧
      outcome.shape.axes = [.hole (mint outputChannels), .op .div (.sym "N") (.sym "S")] ∧
      outcome.shape.substitute (.ofTerms bindings) = .ok s ∧
      List.Forall₂ (fun x y => x.equivalent y = .ok true) s.axes outcome'.shape.axes := by
  intro r shape shape' p q mint bindings
  have hbindings : ∀ name t, bindings.get? name = some t → t.Lowers :=
    Dictionary.forall_get?_iff.mpr (by decide +kernel)
  have hmint (name : String) (hname : r.family.outputParameter? = some name)
      (_ : p.given? name = none) : bindings.get? (mint name).name = none := by
    obtain rfl := Option.some.inj hname
    decide
  have hchecked : (r.apply "Conv1D" shape p mint (.ofTerms bindings)).toOption.map (·.shape.axes) =
      some [.hole (mint outputChannels), .op .div (.sym "N") (.sym "S")] := by
    decide +kernel
  have hbound : (r.apply "Conv1D" shape' q mint (.ofTerms .empty)).toOption.isSome = true := by
    decide +kernel
  obtain ⟨outcome, houtcome, haxes⟩ := Option.map_eq_some_iff.mp hchecked
  obtain ⟨outcome', houtcome'⟩ := Option.isSome_iff_exists.mp hbound
  rw [toOption_eq_some_iff] at houtcome houtcome'
  have hp : p.substitute (.ofTerms bindings) = .ok q := rfl
  obtain ⟨s, hs, hequivalent⟩ := (binding_first_ends_alike hbindings hmint rfl hp).2.2
    outcome outcome' houtcome houtcome'
  exact ⟨outcome, outcome', s, houtcome, houtcome', haxes, hs, hequivalent⟩

end Shapeline
