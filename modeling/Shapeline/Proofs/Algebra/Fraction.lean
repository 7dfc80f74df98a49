import Mathlib.RingTheory.Localization.FractionRing
import Mathlib.Tactic.Ring
import Shapeline.Algebra.Fraction
import Shapeline.Proofs.Algebra.Poly

/-!
# Fractions as rational functions

A fraction represents an element of the field of rational functions, and its arithmetic is that of
the field. A rational function takes a value at a point if one of its fractions has a denominator
that is not zero there; the value does not depend on the fraction.
-/

namespace Shapeline

open LawfulGcdRing

variable {n : ℕ}

/-- The field of rational functions in `n` variables. -/
abbrev FunctionField (n : ℕ) : Type := FractionRing (Poly.Ring n)

/-- A rational function takes a value at a point. -/
def TakesValue (point : ℕ → ℚ) (f : FunctionField n) (x : ℚ) : Prop :=
  ∃ num den : Poly.Ring n, Poly.evalHom n point den ≠ 0 ∧
    f = algebraMap _ _ num / algebraMap _ _ den ∧
    x = Poly.evalHom n point num / Poly.evalHom n point den

/-- A polynomial is not zero if it has a value other than zero. -/
theorem ne_zero_of_evalHom {point : ℕ → ℚ} {p : Poly.Ring n} (h : Poly.evalHom n point p ≠ 0) :
    algebraMap (Poly.Ring n) (FunctionField n) p ≠ 0 := by
  intro hp
  rw [(IsFractionRing.injective (Poly.Ring n) (FunctionField n)).eq_iff' (map_zero _)] at hp
  exact h (by rw [hp, map_zero])

namespace TakesValue

variable {point : ℕ → ℚ} {f g : FunctionField n} {x y : ℚ}

/-- Polynomials take their values. -/
theorem ofPoly (point : ℕ → ℚ) (p : Poly.Ring n) :
    TakesValue point (algebraMap _ (FunctionField n) p) (Poly.evalHom n point p) :=
  ⟨p, 1, by simp, by simp, by simp⟩

/-- A rational function takes one value at most. -/
theorem unique (hx : TakesValue point f x) (hy : TakesValue point f y) : x = y := by
  obtain ⟨p, q, hq, rfl, rfl⟩ := hx
  obtain ⟨r, s, hs, heq, rfl⟩ := hy
  rw [div_eq_div_iff (ne_zero_of_evalHom hq) (ne_zero_of_evalHom hs), ← map_mul, ← map_mul,
    (IsFractionRing.injective (Poly.Ring n) (FunctionField n)).eq_iff] at heq
  rw [div_eq_div_iff hq hs, ← map_mul, ← map_mul, heq]

/-- The value of a sum. -/
theorem add (hx : TakesValue point f x) (hy : TakesValue point g y) :
    TakesValue point (f + g) (x + y) := by
  obtain ⟨p, q, hq, rfl, rfl⟩ := hx
  obtain ⟨r, s, hs, rfl, rfl⟩ := hy
  refine ⟨p * s + q * r, q * s, ?_, ?_, ?_⟩
  · rw [map_mul]
    exact mul_ne_zero hq hs
  · rw [div_add_div _ _ (ne_zero_of_evalHom hq) (ne_zero_of_evalHom hs)]
    simp only [map_add, map_mul]
  · rw [div_add_div _ _ hq hs]
    simp only [map_add, map_mul]

/-- The value of an opposite. -/
theorem neg (hx : TakesValue point f x) : TakesValue point (-f) (-x) := by
  obtain ⟨p, q, hq, rfl, rfl⟩ := hx
  exact ⟨-p, q, hq, by rw [map_neg, neg_div], by rw [map_neg, neg_div]⟩

/-- The value of a difference. -/
theorem sub (hx : TakesValue point f x) (hy : TakesValue point g y) :
    TakesValue point (f - g) (x - y) := by
  rw [sub_eq_add_neg, sub_eq_add_neg]
  exact hx.add hy.neg

/-- The value of a product. -/
theorem mul (hx : TakesValue point f x) (hy : TakesValue point g y) :
    TakesValue point (f * g) (x * y) := by
  obtain ⟨p, q, hq, rfl, rfl⟩ := hx
  obtain ⟨r, s, hs, rfl, rfl⟩ := hy
  refine ⟨p * r, q * s, ?_, ?_, ?_⟩
  · rw [map_mul]
    exact mul_ne_zero hq hs
  · simp only [map_mul, div_mul_div_comm]
  · simp only [map_mul, div_mul_div_comm]

/-- The value of a quotient whose divisor has a value other than zero. -/
theorem div (hx : TakesValue point f x) (hy : TakesValue point g y) (hne : y ≠ 0) :
    TakesValue point (f / g) (x / y) := by
  obtain ⟨p, q, hq, rfl, rfl⟩ := hx
  obtain ⟨r, s, hs, rfl, rfl⟩ := hy
  refine ⟨p * s, q * r, ?_, ?_, ?_⟩
  · rw [map_mul]
    exact mul_ne_zero hq (div_ne_zero_iff.mp hne).1
  · simp only [map_mul, div_div_div_eq]
  · simp only [map_mul, div_div_div_eq]

/-- Zero takes the value zero only. -/
theorem ne_zero (hx : TakesValue point f x) (hne : x ≠ 0) : f ≠ 0 := by
  rintro rfl
  have hzero := ofPoly point (0 : Poly.Ring n)
  rw [map_zero, map_zero] at hzero
  exact hne (hx.unique hzero)

/-- A quotient of polynomials takes a value other than zero where its numerator does. -/
theorem ne_zero_of_num {p q : Poly.Ring n} (hq : q ≠ 0) (hp : Poly.evalHom n point p ≠ 0)
    (hx : TakesValue point (algebraMap _ (FunctionField n) p / algebraMap _ _ q) x) : x ≠ 0 := by
  have hq' : algebraMap (Poly.Ring n) (FunctionField n) q ≠ 0 := by
    rwa [Ne, (IsFractionRing.injective (Poly.Ring n) (FunctionField n)).eq_iff' (map_zero _)]
  rintro rfl
  have hmul := hx.mul (ofPoly point q)
  rw [div_mul_cancel₀ _ hq', zero_mul] at hmul
  exact hp ((ofPoly point p).unique hmul)

end TakesValue

namespace Fraction

/-- The rational function that a fraction represents. -/
noncomputable def toField (a : Fraction n) : FunctionField n :=
  algebraMap _ _ (embed a.num) / algebraMap _ _ (embed a.den)

/-- Only zero is mapped to zero. -/
theorem algebraMap_embed_ne_zero {p : Poly n} :
    algebraMap (Poly.Ring n) (FunctionField n) (embed p) ≠ 0 ↔ p ≠ 0 := by
  rw [Ne, (IsFractionRing.injective (Poly.Ring n) (FunctionField n)).eq_iff' (map_zero _),
    embed_eq_zero]

/-- What numerator and denominator have in common is not zero. -/
theorem gcd_ne_zero (num : Poly n) {den : Poly n} (hden : den ≠ 0) : GcdRing.gcd num den ≠ 0 := by
  rw [Ne, ← embed_eq_zero]
  exact (isGcd_gcd num den).ne_zero_of_right (by rwa [Ne, embed_eq_zero])

/-- Reducing a fraction keeps the rational function and leaves a denominator other than zero. -/
theorem toField_reduce (num : Poly n) {den : Poly n} (hden : den ≠ 0) :
    (reduce num den).toField = algebraMap _ _ (embed num) / algebraMap _ _ (embed den) ∧
      (reduce num den).den ≠ 0 := by
  have hgcd := isGcd_gcd num den
  have hcommon := gcd_ne_zero num hden
  have hnum := embed_quotient hcommon hgcd.dvd_left
  have hden' := embed_quotient hcommon hgcd.dvd_right
  have hquot : GcdRing.quotient den (GcdRing.gcd num den) ≠ 0 := by
    intro h
    rw [h, embed_zero, zero_mul, eq_comm, embed_eq_zero] at hden'
    exact hden hden'
  have hcancel : algebraMap (Poly.Ring n) (FunctionField n) (embed num) /
        algebraMap _ _ (embed den) =
      algebraMap _ _ (embed (GcdRing.quotient num (GcdRing.gcd num den))) /
        algebraMap _ _ (embed (GcdRing.quotient den (GcdRing.gcd num den))) := by
    rw [← hnum, ← hden', map_mul, map_mul]
    exact mul_div_mul_right _ _ (algebraMap_embed_ne_zero.mpr hcommon)
  simp only [reduce]
  split
  · refine ⟨?_, ?_⟩
    · rw [toField, hcancel, embed_neg, embed_neg, map_neg, map_neg, neg_div_neg_eq]
    · rwa [Ne, ← embed_eq_zero, embed_neg, neg_eq_zero, embed_eq_zero]
  · exact ⟨by rw [toField, hcancel], hquot⟩

/-- A fraction is zero if it represents the zero function. -/
theorem isZero_eq_true_iff {a : Fraction n} (ha : a.den ≠ 0) :
    a.isZero = true ↔ a.toField = 0 := by
  rw [isZero, decide_eq_true_iff, toField, div_eq_zero_iff,
    or_iff_left (algebraMap_embed_ne_zero.mpr ha), ← not_iff_not]
  exact algebraMap_embed_ne_zero.symm

/-- The sum represents the sum. -/
theorem toField_add {a b : Fraction n} (ha : a.den ≠ 0) (hb : b.den ≠ 0) :
    (a + b).toField = a.toField + b.toField ∧ (a + b).den ≠ 0 := by
  have hden := mul_ne_zero' ha hb
  obtain ⟨heq, hne⟩ := toField_reduce (a.num * b.den + b.num * a.den) hden
  refine ⟨heq.trans ?_, hne⟩
  rw [toField, toField, div_add_div _ _ (algebraMap_embed_ne_zero.mpr ha)
    (algebraMap_embed_ne_zero.mpr hb)]
  simp only [embed_add, embed_mul, map_add, map_mul]
  ring

/-- The opposite represents the opposite. -/
theorem toField_neg (a : Fraction n) : (-a).toField = -a.toField := by
  change algebraMap _ _ (embed (-a.num)) / algebraMap _ _ (embed a.den) = _
  rw [toField, embed_neg, map_neg, neg_div]

/-- The difference represents the difference. -/
theorem toField_sub {a b : Fraction n} (ha : a.den ≠ 0) (hb : b.den ≠ 0) :
    (a - b).toField = a.toField - b.toField ∧ (a - b).den ≠ 0 := by
  have hadd := toField_add (b := -b) ha hb
  rw [toField_neg, ← sub_eq_add_neg] at hadd
  exact hadd

/-- The product represents the product. -/
theorem toField_mul {a b : Fraction n} (ha : a.den ≠ 0) (hb : b.den ≠ 0) :
    (a * b).toField = a.toField * b.toField ∧ (a * b).den ≠ 0 := by
  have hden := mul_ne_zero' ha hb
  obtain ⟨heq, hne⟩ := toField_reduce (a.num * b.num) hden
  refine ⟨heq.trans ?_, hne⟩
  rw [toField, toField, div_mul_div_comm]
  simp only [embed_mul, map_mul]

/-- The quotient represents the quotient. -/
theorem toField_div {a b : Fraction n} (ha : a.den ≠ 0) (hzero : b.isZero = false) :
    (a / b).toField = a.toField / b.toField ∧ (a / b).den ≠ 0 := by
  have hnum : b.num ≠ 0 := of_decide_eq_false hzero
  have hden := mul_ne_zero' ha hnum
  obtain ⟨heq, hne⟩ := toField_reduce (a.num * b.den) hden
  refine ⟨heq.trans ?_, hne⟩
  rw [toField, toField, div_div_div_eq]
  simp only [embed_mul, map_mul]

/-- Numerator and denominator have no common factor, and the denominator is not negative. -/
structure Reduced (a : Fraction n) : Prop where
  /-- The denominator is not the zero polynomial. -/
  den_ne_zero : a.den ≠ 0
  /-- Only units divide both numerator and denominator. -/
  coprime : IsGcd (embed a.num) (embed a.den) 1
  /-- The leading coefficient below the bar is positive. -/
  positive : GcdRing.isNegative a.den = false

/-- An integer below the bar is not negative. -/
theorem Reduced.nonneg {a : Fraction n} (ha : a.Reduced) {d : ℤ} (hd : a.den = Poly.ofInt n d) :
    0 ≤ d := by
  have hpositive := ha.positive
  rw [hd, Poly.isNegative_ofInt, decide_eq_false_iff_not] at hpositive
  exact not_lt.mp hpositive

/-- Polynomials are reduced fractions. -/
theorem reduced_ofPoly (p : Poly n) : Reduced ⟨p, 1⟩ where
  den_ne_zero := one_ne_zero'
  coprime := by
    rw [embed_one]
    exact (IsGcd.one_left _).symm
  positive := by
    have hone : (1 : Poly n) = Poly.ofInt n 1 := by
      apply embed.injective
      rw [embed_one, Poly.embed_int, Int.cast_one]
    change GcdRing.isNegative (1 : Poly n) = false
    rw [hone, Poly.isNegative_ofInt]
    rfl

/-- The quotients by the greatest common divisor have no common factor. -/
theorem isGcd_quotients (num : Poly n) {den : Poly n} (hden : den ≠ 0) :
    IsGcd (embed (GcdRing.quotient num (GcdRing.gcd num den)))
      (embed (GcdRing.quotient den (GcdRing.gcd num den))) 1 := by
  have hgcd := isGcd_gcd num den
  have hcommon := gcd_ne_zero num hden
  refine IsGcd.of_mul_right (c := embed (GcdRing.gcd num den)) ?_ (embed_eq_zero.not.mpr hcommon)
  rwa [embed_quotient hcommon hgcd.dvd_left, embed_quotient hcommon hgcd.dvd_right]

/-- Reducing a fraction leaves a reduced one. -/
theorem reduced_reduce (num : Poly n) {den : Poly n} (hden : den ≠ 0) :
    (reduce num den).Reduced := by
  have hne := (toField_reduce num hden).2
  have hcoprime := isGcd_quotients num hden
  simp only [reduce] at hne ⊢
  split at hne
  · rename_i hneg
    have hquotient : GcdRing.quotient den (GcdRing.gcd num den) ≠ 0 := by
      rwa [Ne, ← embed_eq_zero, embed_neg, neg_eq_zero, embed_eq_zero] at hne
    rw [if_pos hneg]
    refine ⟨hne, ?_, ?_⟩
    · rw [embed_neg, embed_neg]
      exact hcoprime.neg
    · rw [Poly.isNegative_neg hquotient, hneg]
      rfl
  · rename_i hneg
    rw [if_neg hneg]
    exact ⟨hne, hcoprime, Bool.not_eq_true _ ▸ hneg⟩

/-- An integer represents itself. -/
theorem toField_ofInt (n : ℕ) (k : ℤ) :
    (ofInt n k).toField = algebraMap (Poly.Ring n) (FunctionField n) k := by
  rw [toField, ofInt, embed_one, map_one, div_one, Poly.embed_int]

/-- A fraction represents a quotient of integers if it equals it after multiplying crosswise. -/
theorem toField_eq_div_iff {a : Fraction n} (ha : a.den ≠ 0) {c d : ℤ} (hd : d ≠ 0) :
    a.toField = (ofInt n c).toField / (ofInt n d).toField ↔
      embed a.num * (d : Poly.Ring n) = (c : Poly.Ring n) * embed a.den := by
  have hne : algebraMap (Poly.Ring n) (FunctionField n) d ≠ 0 := by
    rw [← Poly.embed_int, algebraMap_embed_ne_zero, Ne, ← Poly.ofInt_zero, Poly.ofInt_inj]
    exact hd
  rw [toField_ofInt, toField_ofInt, toField, div_eq_div_iff (algebraMap_embed_ne_zero.mpr ha) hne,
    ← map_mul, ← map_mul, (IsFractionRing.injective (Poly.Ring n) (FunctionField n)).eq_iff]

namespace Reduced

variable {a : Fraction n}

/-- If a reduced fraction represents a quotient of integers, its numerator and its denominator are
integers. -/
theorem exists_ofInt (ha : a.Reduced) {c d : ℤ} (hd : d ≠ 0)
    (h : embed a.num * (d : Poly.Ring n) = (c : Poly.Ring n) * embed a.den) :
    ∃ num den, a.num = Poly.ofInt n num ∧ a.den = Poly.ofInt n den := by
  have hgcd := ha.coprime.mul_right (d : Poly.Ring n)
  rw [one_mul] at hgcd
  obtain ⟨den, hden⟩ := Poly.exists_ofInt_of_dvd hd
    (hgcd.greatest _ (h ▸ dvd_mul_left _ _) (dvd_mul_right _ _))
  have hne : den ≠ 0 := by
    rintro rfl
    exact ha.den_ne_zero (hden.trans (Poly.ofInt_zero n))
  rw [hden, Poly.embed_int, ← Int.cast_mul] at h
  by_cases hc : c = 0
  · have hnum : embed a.num = 0 := by
      rw [hc, zero_mul, Int.cast_zero] at h
      refine (mul_eq_zero.mp h).resolve_right ?_
      rwa [← Int.cast_zero, Poly.intCast_inj]
    exact ⟨0, den, (embed_eq_zero.mp hnum).trans (Poly.ofInt_zero n).symm, hden⟩
  · obtain ⟨num, hnum⟩ := Poly.exists_ofInt_of_dvd (mul_ne_zero hc hne) (h ▸ dvd_mul_right _ _)
    exact ⟨num, den, hnum, hden⟩

/-- A reduced fraction of integers is found to be the number that it is. -/
theorem constant?_of_ofInt (ha : a.Reduced) {num den : ℤ} (hnum : a.num = Poly.ofInt n num)
    (hden : a.den = Poly.ofInt n den) {q : ℚ} :
    a.constant? = some q ↔ num * q.den = q.num * den := by
  have hpos : 0 < den := by
    refine (ha.nonneg hden).lt_of_ne' ?_
    rintro rfl
    exact ha.den_ne_zero (hden.trans (Poly.ofInt_zero n))
  have hquotient : a.constant? = some (Rat.divInt num den) := by
    rw [constant?, Poly.constant?_eq_some_iff.mpr hnum, Poly.constant?_eq_some_iff.mpr hden]
    simp [Rat.mkRat_eq_divInt, hpos.le]
  rw [hquotient, Option.some_inj, ← Rat.divInt_eq_divInt_iff hpos.ne'
    (Int.natCast_ne_zero.mpr q.den_ne_zero), Rat.num_divInt_den]

/-- A reduced fraction is found to be a number exactly if it represents the number. -/
theorem constant?_eq_some_iff (ha : a.Reduced) {q : ℚ} :
    a.constant? = some q ↔ a.toField = (ofInt n q.num).toField / (ofInt n q.den).toField := by
  have hq : (q.den : ℤ) ≠ 0 := Int.natCast_ne_zero.mpr q.den_ne_zero
  rw [toField_eq_div_iff ha.den_ne_zero hq]
  have hints {num den : ℤ} (hnum : a.num = Poly.ofInt n num) (hden : a.den = Poly.ofInt n den) :
      a.constant? = some q ↔
        embed a.num * ((q.den : ℤ) : Poly.Ring n) = (q.num : Poly.Ring n) * embed a.den := by
    rw [ha.constant?_of_ofInt hnum hden, hnum, hden, Poly.embed_int, Poly.embed_int,
      ← Int.cast_mul, ← Int.cast_mul, Poly.intCast_inj]
  constructor
  · intro h
    obtain ⟨num, hnum, hrest⟩ := Option.bind_eq_some_iff.mp h
    obtain ⟨den, hden, -⟩ := Option.bind_eq_some_iff.mp hrest
    exact (hints (Poly.constant?_eq_some_iff.mp hnum) (Poly.constant?_eq_some_iff.mp hden)).mp h
  · intro h
    obtain ⟨num, den, hnum, hden⟩ := ha.exists_ofInt hq h
    exact (hints hnum hden).mpr h

end Reduced

end Fraction

end Shapeline
