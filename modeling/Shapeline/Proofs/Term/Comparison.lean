import Shapeline.Proofs.Shape

/-!
# Terms that are the same under a substitution

Whatever checks a term looks at the result of a substitution in it. Two terms are the same for all
such checks if the substitution can be made in both or in neither, and the results agree. This is an
equivalence relation that all operators and simplification respect, and comparisons and constant
values do not tell two such terms apart.
-/

namespace Shapeline.Term

variable {σ : Substitution} {a b c a' b' t u l r l' r' : Term} {o : Operator} {q : ℚ}

/-- A term has a value somewhere under a substitution: no divisor in it becomes zero. -/
def DefinedUnder (σ : Substitution) (t : Term) : Prop :=
  ∃ ρ x, t.valueAt (Instantiation.under ρ σ) = some x

/-- A term that has a value under a substitution lowers. -/
theorem DefinedUnder.lowers (h : t.DefinedUnder σ) : t.Lowers := by
  obtain ⟨ρ, x, hx⟩ := h
  exact lowers_of_valueAt hx

/-- The substitution can be made in a term that has a value under it, and the result lowers. -/
theorem DefinedUnder.exists_substitute (h : t.DefinedUnder σ) :
    ∃ u, t.substitute σ = .ok u ∧ u.Lowers := by
  obtain ⟨ρ, x, hx⟩ := h
  obtain ⟨u, hu⟩ := Term.exists_substitute hx
  exact ⟨u, hu, lowers_of_valueAt ((valueAt_of_substitute hu).trans hx)⟩

/-- A term that lowers has a value under a substitution by terms that lower if the substitution can
be made. -/
theorem DefinedUnder.of_substitute (ht : t.Lowers) (hσ : σ.Lowers) (h : t.substitute σ = .ok u) :
    t.DefinedUnder σ := by
  obtain ⟨ρ, x, hx⟩ := lowers_iff_exists_valueAt.mp (ht.substitute hσ h)
  exact ⟨ρ, x, (valueAt_of_substitute h).symm.trans hx⟩

/-- A term vanishes under a substitution: wherever it has a value under it, that is zero. -/
def VanishesUnder (σ : Substitution) (t : Term) : Prop :=
  ∀ ρ x, t.valueAt (Instantiation.under ρ σ) = some x → x = 0

/-- A term vanishes under a substitution if the result vanishes. -/
theorem vanishesUnder_iff (h : t.substitute σ = .ok u) : t.VanishesUnder σ ↔ u.Vanishes := by
  simp only [VanishesUnder, Vanishes, valueAt_of_substitute h]

/-- An operator has a value under a substitution if its operands do and the divisor does not
vanish. -/
theorem definedUnder_op_iff :
    (op o l r).DefinedUnder σ ↔
      l.DefinedUnder σ ∧ r.DefinedUnder σ ∧ (o = .div → ¬ r.VanishesUnder σ) := by
  constructor
  · rintro ⟨ρ, z, hz⟩
    obtain ⟨x, y, hx, hy, hop⟩ := valueAt_op_eq_some_iff.mp hz
    refine ⟨⟨ρ, x, hx⟩, ⟨ρ, y, hy⟩, fun ho hvanish => ?_⟩
    exact Operator.onNumbers_isSome_iff.mp (by rw [hop]; rfl) ho (hvanish ρ y hy)
  · rintro ⟨hl, hr, hzero⟩
    obtain ⟨l', hl', hlowl⟩ := hl.exists_substitute
    obtain ⟨r', hr', hlowr⟩ := hr.exists_substitute
    have hlow : (op o l' r').Lowers :=
      lowers_op_iff.mpr ⟨hlowl, hlowr, fun ho => (vanishesUnder_iff hr').not.mp (hzero ho)⟩
    obtain ⟨ρ, z, hz⟩ := lowers_iff_exists_valueAt.mp hlow
    refine ⟨ρ, z, ?_⟩
    rwa [valueAt, ← valueAt_of_substitute hl', ← valueAt_of_substitute hr']

/-- A term that has a value under a substitution keeps one when it is simplified. -/
theorem DefinedUnder.simplify (h : t.DefinedUnder σ) (hu : t.simplify = .ok u) :
    u.DefinedUnder σ := by
  obtain ⟨ρ, x, hx⟩ := h
  obtain ⟨u', hu', hx'⟩ := simplify_valueAt hx
  obtain rfl := Except.ok.inj (hu.symm.trans hu')
  exact ⟨ρ, x, hx'⟩

/-- Two terms are the same under a substitution: it can be made in both or in neither, and they
agree under it. -/
structure SameUnder (σ : Substitution) (a b : Term) : Prop where
  /-- If one term has a value, so does the other. -/
  defined : a.DefinedUnder σ ↔ b.DefinedUnder σ
  /-- The values are equal. -/
  agrees : AgreesUnder σ a b

namespace SameUnder

/-- A term is the same as itself. -/
@[refl] theorem refl (t : Term) : SameUnder σ t t := ⟨Iff.rfl, AgreesUnder.refl σ t⟩

/-- Sameness is symmetric. -/
@[symm] theorem symm (h : SameUnder σ a b) : SameUnder σ b a := ⟨h.defined.symm, h.agrees.symm⟩

/-- Sameness is transitive. -/
@[trans] theorem trans (hab : SameUnder σ a b) (hbc : SameUnder σ b c) : SameUnder σ a c := by
  refine ⟨hab.defined.trans hbc.defined, fun ρ x y hx hy => ?_⟩
  obtain ⟨b', hb', hlow⟩ := (hab.defined.mp ⟨ρ, x, hx⟩).exists_substitute
  exact hab.agrees.trans hb' hlow hbc.agrees ρ x y hx hy

/-- A term that is the same as one that vanishes vanishes too. -/
theorem vanishesUnder (h : SameUnder σ a b) (ha : a.DefinedUnder σ) (hb : a.VanishesUnder σ) :
    b.VanishesUnder σ := by
  obtain ⟨a', ha', hlow⟩ := ha.exists_substitute
  have hzero : AgreesUnder σ a (const 0) := fun ρ x y hx hy => by
    rw [hb ρ x hx]
    simpa [valueAt] using hy
  intro ρ y hy
  exact h.agrees.symm.trans ha' hlow hzero ρ y 0 hy (by simp [valueAt])

/-- Operators respect sameness. -/
theorem op (hl : SameUnder σ l l') (hr : SameUnder σ r r') :
    SameUnder σ (.op o l r) (.op o l' r') := by
  constructor
  · rw [definedUnder_op_iff, definedUnder_op_iff, hl.defined]
    refine and_congr_right fun _ => ⟨fun ⟨hdef, hzero⟩ => ?_, fun ⟨hdef, hzero⟩ => ?_⟩
    · exact ⟨hr.defined.mp hdef, fun ho h => hzero ho (hr.symm.vanishesUnder (hr.defined.mp hdef) h)⟩
    · exact ⟨hr.defined.mpr hdef, fun ho h => hzero ho (hr.vanishesUnder (hr.defined.mpr hdef) h)⟩
  · intro ρ z z' hz hz'
    obtain ⟨x, y, hx, hy, hop⟩ := valueAt_op_eq_some_iff.mp hz
    obtain ⟨x', y', hx', hy', hop'⟩ := valueAt_op_eq_some_iff.mp hz'
    rw [hl.agrees ρ x x' hx hx', hr.agrees ρ y y' hy hy', hop'] at hop
    exact (Option.some.inj hop).symm

/-- A simplified term that has a value is the same as the term. -/
theorem simplify (h : t.DefinedUnder σ) (hu : t.simplify = .ok u) : SameUnder σ u t :=
  ⟨iff_of_true (h.simplify hu) h, fun _ _ _ hx hy => agrees_simplify hu _ _ _ hx hy⟩

/-- What is substituted in two terms that are the same agrees. -/
theorem agrees_substitute (h : SameUnder σ a b) (ha : a.substitute σ = .ok a')
    (hb : b.substitute σ = .ok b') : a'.Agrees b' := (agreesUnder_iff ha hb).mp h.agrees

/-- Two terms that are the same and lower are found equivalent after the substitution. -/
theorem equivalent (h : SameUnder σ a b) (hσ : σ.Lowers) (hlowa : a.Lowers) (hlowb : b.Lowers)
    (ha : a.substitute σ = .ok a') (hb : b.substitute σ = .ok b') :
    a'.equivalent b' = .ok true :=
  (equivalent_eq_ok_iff (hlowa.substitute hσ ha) (hlowb.substitute hσ hb)).mpr
    (iff_of_true rfl (h.agrees_substitute ha hb))

/-- If the substitution can be made in one of two terms that are the same, it can be made in the
other, and the results agree. -/
theorem exists_substitute (h : SameUnder σ a b) (hσ : σ.Lowers) (hlow : a.Lowers)
    (ha : a.substitute σ = .ok a') :
    ∃ b', b.substitute σ = .ok b' ∧ b'.Lowers ∧ a'.Agrees b' := by
  obtain ⟨b', hb', hlowb⟩ :=
    (h.defined.mp (.of_substitute hlow hσ ha)).exists_substitute
  exact ⟨b', hb', hlowb, h.agrees_substitute ha hb'⟩

end SameUnder

/-- Two terms that lower are found equivalent after a substitution by terms that lower exactly if it
can be made in them and they are the same under it. -/
theorem comparesAs_true_iff (hσ : σ.Lowers) (ha : a.Lowers) (hb : b.Lowers) :
    ComparesAs σ true a b ↔ a.DefinedUnder σ ∧ SameUnder σ a b := by
  constructor
  · rintro ⟨a', b', ha', hb', h⟩
    have hdef := DefinedUnder.of_substitute ha hσ ha'
    exact ⟨hdef, iff_of_true hdef (.of_substitute hb hσ hb'),
      (agreesUnder_iff ha' hb').mpr (agrees_of_equivalent h)⟩
  · rintro ⟨hdef, h⟩
    obtain ⟨a', ha', -⟩ := hdef.exists_substitute
    obtain ⟨b', hb', -⟩ := (h.defined.mp hdef).exists_substitute
    exact ⟨a', b', ha', hb', h.equivalent hσ ha hb ha' hb'⟩

/-- A comparison that finds two terms equivalent finds the same for terms that are the same. -/
theorem ComparesAs.congr (h : ComparesAs σ true a b) (hσ : σ.Lowers) (hlowa : a.Lowers)
    (hlowb : b.Lowers) (hlowa' : a'.Lowers) (hlowb' : b'.Lowers) (ha : SameUnder σ a a')
    (hb : SameUnder σ b b') : ComparesAs σ true a' b' := by
  obtain ⟨hdef, hsame⟩ := (comparesAs_true_iff hσ hlowa hlowb).mp h
  exact (comparesAs_true_iff hσ hlowa' hlowb').mpr
    ⟨ha.defined.mp hdef, (ha.symm.trans hsame).trans hb⟩

end Shapeline.Term
