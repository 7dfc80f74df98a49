import Mathlib.Algebra.EuclideanDomain.Int
import Mathlib.Algebra.MvPolynomial.Funext
import Mathlib.Algebra.MvPolynomial.Nilpotent
import Mathlib.RingTheory.Polynomial.UniqueFactorization
import Shapeline.Proofs.Term.Equivalence
import Shapeline.Proofs.Term.Monomials

/-!
# Normal forms are canonical

Two procedures tell whether terms are equivalent: to compare their normal forms, and to test whether
their difference is zero. They agree. The normal forms of two terms need not have the same variables,
so both are written over names. There they are fractions of polynomials without a common factor; two
such fractions of one rational function differ in their signs at most, and the sign is fixed by the
leading coefficient below the bar.
-/

namespace Shapeline

open LawfulGcdRing MvPolynomial

namespace Names

/-- Insertion keeps a list of names ascending. -/
theorem pairwise_insert {name : String} {names : List String} (h : names.Pairwise (· < ·)) :
    (insert name names).Pairwise (· < ·) := by
  induction names with
  | nil => exact List.pairwise_singleton _ _
  | cons first rest ih =>
    obtain ⟨hfirst, hrest⟩ := List.pairwise_cons.mp h
    unfold insert
    split
    · rename_i hlt
      exact List.pairwise_cons.mpr
        ⟨List.forall_mem_cons.mpr ⟨hlt, fun other hother => hlt.trans (hfirst other hother)⟩, h⟩
    · rename_i hnlt
      split
      · exact h
      · rename_i hne
        refine List.pairwise_cons.mpr ⟨fun other hother => ?_, ih hrest⟩
        rcases mem_insert.mp hother with rfl | hother
        · exact lt_of_le_of_ne (not_lt.mp hnlt) (Ne.symm hne)
        · exact hfirst other hother

/-- A union with a set is ascending. -/
theorem pairwise_union {left right : List String} (h : right.Pairwise (· < ·)) :
    (union left right).Pairwise (· < ·) := by
  induction left with
  | nil => exact h
  | cons name rest ih => exact pairwise_insert ih

end Names

namespace Term

variable {a b t : Term} {names : List String} {num den num' den' : MvPolynomial String ℤ}

/-- The symbols of a term are listed in ascending order. -/
theorem pairwise_symbols (t : Term) : t.symbols.Pairwise (· < ·) := by
  induction t with
  | const n => exact List.Pairwise.nil
  | sym name => exact List.pairwise_singleton _ _
  | hole p => exact List.pairwise_singleton _ _
  | op o left right _ ihr => exact Names.pairwise_union ihr

/-- A fraction of polynomials over names represents a term: the term has the values of an equal
fraction wherever it has a value, and that is almost everywhere. -/
structure Represents (t : Term) (num den : MvPolynomial String ℤ) : Prop where
  /-- The denominator is not the zero polynomial. -/
  den_ne_zero : den ≠ 0
  /-- Where the term has a value, some equal fraction has it. -/
  takesValue : ∀ ρ x, t.valueAt (.total ρ) = some x → ∃ p q : MvPolynomial String ℤ,
    aeval ρ q ≠ 0 ∧ num * q = p * den ∧ x = aeval ρ p / aeval ρ q
  /-- The term has values almost everywhere. -/
  generic : ∃ p : MvPolynomial String ℤ, p ≠ 0 ∧
    ∀ ρ : String → ℚ, aeval ρ p ≠ 0 → ∃ x, t.valueAt (.total ρ) = some x

/-- The values of a term at numbers for names are those at the point that the names of a list give. -/
theorem valueAt_pointAt (hnames : ∀ name ∈ t.symbols, name ∈ names) (ρ : String → ℚ) :
    t.valueAt (atPoint names (Poly.pointAt names ρ)) = t.valueAt (.total ρ) := by
  refine valueAt_congr fun name hname => ?_
  have hlt := List.idxOf_lt_length_of_mem (hnames name hname)
  rw [atPoint, Instantiation.total, Poly.pointAt, List.getElem?_eq_getElem hlt,
    List.getElem_idxOf, Option.getD_some]
  rfl

/-- The fraction of a term represents it over names. -/
theorem Denotes.represents {f : Fraction names.length} (hf : Denotes names t f)
    (hdistinct : names.Nodup) (hnames : ∀ name ∈ t.symbols, name ∈ names) :
    t.Represents (Poly.named names (embed f.num)) (Poly.named names (embed f.den)) where
  den_ne_zero := (Poly.named_eq_zero hdistinct).not.mpr (embed_eq_zero.not.mpr hf.den_ne_zero)
  takesValue ρ x hx := by
    rw [← valueAt_pointAt hnames] at hx
    obtain ⟨p, q, hq, hfield, rfl⟩ := hf.takesValue _ x hx
    have hcross : embed f.num * q = p * embed f.den := by
      rw [Fraction.toField, div_eq_div_iff (Fraction.algebraMap_embed_ne_zero.mpr hf.den_ne_zero)
        (ne_zero_of_evalHom hq), ← map_mul, ← map_mul,
        (IsFractionRing.injective (Poly.Ring _) (FunctionField _)).eq_iff] at hfield
      exact hfield
    refine ⟨Poly.named names p, Poly.named names q, ?_, ?_, ?_⟩
    · rwa [Poly.aeval_named]
    · rw [← map_mul, ← map_mul, hcross]
    · rw [Poly.aeval_named, Poly.aeval_named]
  generic := by
    obtain ⟨p, hp, hvalues⟩ := hf.generic
    refine ⟨Poly.named names p, (Poly.named_eq_zero hdistinct).not.mpr hp, fun ρ hρ => ?_⟩
    rw [Poly.aeval_named] at hρ
    obtain ⟨x, hx⟩ := hvalues _ hρ
    exact ⟨x, valueAt_pointAt hnames ρ ▸ hx⟩

/-- Where a term and a fraction that represents it both have a value, the values are equal. -/
theorem Represents.value_eq (h : t.Represents num den) {ρ : String → ℚ} {x : ℚ}
    (hx : t.valueAt (.total ρ) = some x) (hden : aeval ρ den ≠ 0) :
    x = aeval ρ num / aeval ρ den := by
  obtain ⟨p, q, hq, hcross, rfl⟩ := h.takesValue ρ x hx
  have hvalues := congrArg (aeval ρ) hcross
  rw [map_mul, map_mul] at hvalues
  rw [div_eq_div_iff hq hden, hvalues]

/-- A polynomial that is zero for all numbers is the zero polynomial. -/
theorem eq_zero_of_aeval {p : MvPolynomial String ℤ} (h : ∀ ρ : String → ℚ, aeval ρ p = 0) :
    p = 0 := by
  have hmap : map (Int.castRingHom ℚ) p = 0 := by
    refine MvPolynomial.funext fun ρ => ?_
    rw [map_zero, eval_map]
    exact h ρ
  exact (map_eq_zero_iff _ (map_injective _ Int.cast_injective)).mp hmap

/-- Terms agree exactly if fractions that represent them are equal after multiplying crosswise. -/
theorem Represents.agrees_iff (ha : a.Represents num den) (hb : b.Represents num' den') :
    a.Agrees b ↔ num * den' = num' * den := by
  constructor
  · intro h
    obtain ⟨p, hp, hpvalues⟩ := ha.generic
    obtain ⟨q, hq, hqvalues⟩ := hb.generic
    have hproduct : (num * den' - num' * den) * (den * den' * (p * q)) = 0 := by
      refine eq_zero_of_aeval fun ρ => ?_
      by_contra hne
      simp only [map_mul, map_sub, mul_ne_zero_iff] at hne
      obtain ⟨hdiff, ⟨hden, hden'⟩, hpρ, hqρ⟩ := hne
      obtain ⟨x, hx⟩ := hpvalues ρ hpρ
      obtain ⟨y, hy⟩ := hqvalues ρ hqρ
      have hxy := agrees_iff_total.mp h ρ x y hx hy
      rw [ha.value_eq hx hden, hb.value_eq hy hden', div_eq_div_iff hden hden'] at hxy
      exact hdiff (sub_eq_zero.mpr hxy)
    have hothers : den * den' * (p * q) ≠ 0 :=
      mul_ne_zero (mul_ne_zero ha.den_ne_zero hb.den_ne_zero) (mul_ne_zero hp hq)
    exact sub_eq_zero.mp ((mul_eq_zero.mp hproduct).resolve_right hothers)
  · intro h
    refine agrees_iff_total.mpr fun ρ x y hx hy => ?_
    obtain ⟨p, q, hq, hcross, rfl⟩ := ha.takesValue ρ x hx
    obtain ⟨p', q', hq', hcross', rfl⟩ := hb.takesValue ρ y hy
    have hequal : p * q' = p' * q := by
      refine mul_right_cancel₀ (mul_ne_zero ha.den_ne_zero hb.den_ne_zero) ?_
      calc p * q' * (den * den') = p * den * (q' * den') := by ring
        _ = num * q * (q' * den') := by rw [hcross]
        _ = num * den' * (q * q') := by ring
        _ = num' * den * (q * q') := by rw [h]
        _ = num' * q' * (q * den) := by ring
        _ = p' * den' * (q * den) := by rw [hcross']
        _ = p' * q * (den * den') := by ring
    have hvalues := congrArg (aeval ρ) hequal
    rw [map_mul, map_mul] at hvalues
    rw [div_eq_div_iff hq hq', hvalues]

/-- Fractions without common factors that are equal after multiplying crosswise differ in their signs
at most. -/
theorem eq_or_eq_neg_of_isRelPrime (hden : den ≠ 0) (h : IsRelPrime num den)
    (h' : IsRelPrime num' den') (hcross : num * den' = num' * den) :
    (num' = num ∧ den' = den) ∨ (num' = -num ∧ den' = -den) := by
  have hdvd : den ∣ den' := h.symm.dvd_of_dvd_mul_left (hcross ▸ dvd_mul_left den num')
  have hdvd' : den' ∣ den := h'.symm.dvd_of_dvd_mul_left (hcross ▸ dvd_mul_left den' num)
  obtain ⟨u, hu⟩ := associated_of_dvd_dvd hdvd hdvd'
  have hnum : num' = num * u := by
    refine mul_right_cancel₀ hden ?_
    rw [← hcross, ← hu]
    ring
  obtain ⟨r, hr, hur⟩ := isUnit_iff_eq_C_of_isReduced.mp u.isUnit
  rw [hur] at hu hnum
  rcases Int.isUnit_iff.mp hr with rfl | rfl
  · exact Or.inl ⟨by simpa using hnum, by simpa using hu.symm⟩
  · exact Or.inr ⟨by simpa using hnum, by simpa using hu.symm⟩

/-- A fraction is a normal form of a term: it is fully cancelled, integer factors included, its
leading coefficient below the bar is positive, and it has the values of the term. -/
structure NamedFraction.Normalizes (f : NamedFraction) (t : Term) : Prop where
  /-- The numerator is written out. -/
  num_writtenOut : WrittenOut f.num
  /-- The denominator is written out. -/
  den_writtenOut : WrittenOut f.den
  /-- The denominator is not the zero polynomial. -/
  den_ne_zero : polynomialOf f.den ≠ 0
  /-- Only units, that is one and minus one, divide both numerator and denominator. -/
  coprime : IsRelPrime (polynomialOf f.num) (polynomialOf f.den)
  /-- The leading coefficient of the denominator is positive. -/
  positive : ∀ m ∈ f.den.head?, 0 < m.coefficient
  /-- Where the term and the fraction both have a value, the values are equal. -/
  value_eq : ∀ (ρ : String → ℚ) (x : ℚ), t.valueAt (.total ρ) = some x →
    aeval ρ (polynomialOf f.den) ≠ 0 →
      x = aeval ρ (polynomialOf f.num) / aeval ρ (polynomialOf f.den)

/-- The written form of a term that lowers is a normal form that represents the term. -/
theorem Lowers.exists_writtenForm (ht : t.Lowers) :
    ∃ f, t.writtenForm = .ok f ∧ f.Normalizes t ∧
      t.Represents (polynomialOf f.num) (polynomialOf f.den) := by
  obtain ⟨f, hf⟩ := ht
  have hsymbols := t.pairwise_symbols
  have hdistinct : t.symbols.Nodup := hsymbols.imp ne_of_lt
  have hreduced := fraction_reduced (fun _ h => h) hf
  have hrepresents := (fraction_denotes (fun _ h => h) hf).represents hdistinct fun _ h => h
  have hcoprime := Poly.isRelPrime_named hdistinct (embed_eq_zero.not.mpr hreduced.den_ne_zero)
    hreduced.coprime
  simp only [← polynomialOf_namedMonomials] at hrepresents hcoprime
  have hnum := writtenOut_namedMonomials hsymbols f.num
  have hden := writtenOut_namedMonomials hsymbols f.den
  obtain ⟨m, hm, hsign⟩ := exists_head_namedMonomials hreduced.den_ne_zero
  have hpositive : 0 < m.coefficient := by
    refine lt_of_le_of_ne (not_lt.mp fun hneg => ?_)
      (hden.coefficient_ne_zero m (List.mem_of_mem_head? hm)).symm
    rw [hreduced.positive] at hsign
    cases hsign.mp hneg
  refine ⟨⟨_, _⟩, bind_eq_ok_iff.mpr ⟨f, hf, rfl⟩, ?_, hrepresents⟩
  exact ⟨hnum, hden, hrepresents.den_ne_zero, hcoprime,
    fun other hother => Option.some.inj (hm.symm.trans hother) ▸ hpositive,
    fun ρ x hx hne => hrepresents.value_eq hx hne⟩

/-- Of two denominators written out, one is not the opposite of the other if both have a positive
leading coefficient. -/
theorem ne_neg_of_positive {ms ms' : List NamedMonomial} (h : WrittenOut ms) (h' : WrittenOut ms')
    (hne : polynomialOf ms ≠ 0) (hpositive : ∀ m ∈ ms.head?, 0 < m.coefficient)
    (hpositive' : ∀ m ∈ ms'.head?, 0 < m.coefficient) :
    polynomialOf ms' ≠ -polynomialOf ms := by
  intro heq
  have hopposite : ms' = ms.map NamedMonomial.opposite :=
    h'.eq_of_polynomialOf_eq h.map_opposite (heq.trans (polynomialOf_map_opposite ms).symm)
  cases ms with
  | nil => exact hne rfl
  | cons m rest =>
    have hm : 0 < m.coefficient := hpositive m rfl
    have hm' : 0 < m.opposite.coefficient := hpositive' m.opposite (by rw [hopposite]; rfl)
    exact absurd (neg_pos.mp hm') hm.not_gt

/-- Normal forms of terms are equal exactly if the terms agree. -/
theorem eq_iff_agrees {f g : NamedFraction} (hf : f.Normalizes a) (hg : g.Normalizes b)
    (ha : a.Represents (polynomialOf f.num) (polynomialOf f.den))
    (hb : b.Represents (polynomialOf g.num) (polynomialOf g.den)) : f = g ↔ a.Agrees b := by
  rw [ha.agrees_iff hb]
  constructor
  · rintro rfl
    rfl
  · intro hcross
    have hcases := eq_or_eq_neg_of_isRelPrime hf.den_ne_zero hf.coprime hg.coprime hcross
    rcases hcases with ⟨hnum, hden⟩ | ⟨_, hden⟩
    · have hnums := hf.num_writtenOut.eq_of_polynomialOf_eq hg.num_writtenOut hnum.symm
      have hdens := hf.den_writtenOut.eq_of_polynomialOf_eq hg.den_writtenOut hden.symm
      cases f
      cases g
      exact congrArg₂ NamedFraction.mk hnums hdens
    · exact absurd hden (ne_neg_of_positive hf.den_writtenOut hg.den_writtenOut hf.den_ne_zero
        hf.positive hg.positive)

/-- **Normal forms are canonical and agree with equivalence.** Terms that lower have normal forms:
fractions of integer polynomials with a denominator other than zero and a positive leading
coefficient in it, of which numerator and denominator have no common factor, integer or not, and
which have the values of the terms. The normal forms of two terms are the same if and only if the
terms are found equivalent. -/
theorem normal_forms_canonical (ha : a.Lowers) (hb : b.Lowers) :
    ∃ f g r, a.writtenForm = .ok f ∧ b.writtenForm = .ok g ∧ a.equivalent b = .ok r ∧
      f.Normalizes a ∧ g.Normalizes b ∧ (f = g ↔ r = true) := by
  obtain ⟨f, hf, hfa, hrepresents⟩ := ha.exists_writtenForm
  obtain ⟨g, hg, hgb, hrepresents'⟩ := hb.exists_writtenForm
  have hiff := eq_iff_agrees hfa hgb hrepresents hrepresents'
  refine ⟨f, g, decide (f = g), hf, hg, (equivalent_eq_ok_iff ha hb).mpr ?_, hfa, hgb, ?_⟩
  · rw [decide_eq_true_iff, hiff]
  · rw [decide_eq_true_iff]

/-- The quotient `(H * W - W) / (2 * W - 2 * H * W)` and the number `1 / -2` have one normal form, in
which neither `H` nor `W` occurs and the sign stands above the bar. -/
theorem constant_quotient_canonical :
    let a := op .div (op .sub (op .mul (sym "H") (sym "W")) (sym "W"))
      (op .sub (op .mul (const 2) (sym "W")) (op .mul (op .mul (const 2) (sym "H")) (sym "W")))
    let b := op .div (const 1) (const (-2))
    let f : NamedFraction := ⟨[⟨-1, []⟩], [⟨2, []⟩]⟩
    a.Lowers ∧ b.Lowers ∧ a.writtenForm = .ok f ∧ b.writtenForm = .ok f ∧
      a.equivalent b = .ok true ∧ f.Normalizes a ∧ f.Normalizes b := by
  intro a b f
  have ha : a.Lowers := by decide +kernel
  have hb : b.Lowers := by decide +kernel
  have hwritten : a.writtenForm.toOption = some f ∧ b.writtenForm.toOption = some f := by
    decide +kernel
  rw [toOption_eq_some_iff, toOption_eq_some_iff] at hwritten
  obtain ⟨g, g', r, hg, hg', hr, hnormal, hnormal', hiff⟩ := normal_forms_canonical ha hb
  obtain rfl := Except.ok.inj (hwritten.1.symm.trans hg)
  obtain rfl := Except.ok.inj (hwritten.2.symm.trans hg')
  exact ⟨ha, hb, hg, hg', hr.trans (congrArg _ (hiff.mp rfl)), hnormal, hnormal'⟩

end Term

end Shapeline
