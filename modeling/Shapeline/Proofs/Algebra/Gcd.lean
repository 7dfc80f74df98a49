import Mathlib.Algebra.Polynomial.Eval.Degree
import Shapeline.Algebra.Gcd
import Shapeline.Proofs.Algebra.Division

/-!
# Greatest common divisors of polynomials

The quick steps of `Dense.gcd` are certain. Putting the other variables to integers is a
homomorphism, so a common factor shows in the images if one of the polynomials keeps its degree, and
a guessed factor is used only after exact division has confirmed it. Polynomials over a lawful ring
are therefore a lawful ring again.
-/

namespace Shapeline

open Polynomial LawfulGcdRing

variable {R : Type} [GcdRing R] [LawfulGcdRing R]

namespace Dense

/-- Putting the other variables to integers is a homomorphism applied to the coefficients. -/
theorem toPoly_image {point : List ℕ} {φ : Carrier R →+* ℤ}
    (hφ : ∀ a, GcdRing.value point a = φ (embed a)) (p : Dense R) :
    (p.image point).toPoly = p.toPoly.map φ := by
  rw [image, toPoly_ofList, toPoly]
  induction p.coeffs with
  | nil => simp [ofCoeffs]
  | cons a rest ih =>
    rw [List.map_cons, ofCoeffs, ofCoeffs, ih, hφ, Polynomial.map_add, Polynomial.map_mul,
      map_C, map_X]
    rfl

/-- The value at a point puts the variable to the first coordinate and the others to the rest. -/
theorem value_eq_eval₂ {point : List ℕ} {φ : Carrier R →+* ℤ}
    (hφ : ∀ a, GcdRing.value point.tail a = φ (embed a)) (p : Dense R) :
    p.value point = p.toPoly.eval₂ φ (point.headD 0 : ℤ) := by
  rw [value, toPoly]
  induction p.coeffs with
  | nil => simp [ofCoeffs]
  | cons a rest ih =>
    rw [List.foldr_cons, ih, ofCoeffs, eval₂_add, eval₂_mul, eval₂_C, eval₂_X, hφ]

/-- If the map of coefficients keeps the degree of a polynomial, it keeps that of its divisors. -/
theorem natDegree_map_of_dvd {S T : Type} [CommRing S] [IsDomain S] [CommRing T] [IsDomain T]
    {φ : S →+* T} {p d : S[X]} (hd : d ∣ p) (hp : p.map φ ≠ 0)
    (hdeg : (p.map φ).natDegree = p.natDegree) : (d.map φ).natDegree = d.natDegree := by
  obtain ⟨s, rfl⟩ := hd
  have hne : d * s ≠ 0 := by
    intro h
    rw [h, Polynomial.map_zero] at hp
    exact hp rfl
  rw [Polynomial.map_mul] at hp hdeg
  rw [natDegree_mul (left_ne_zero_of_mul hp) (right_ne_zero_of_mul hp),
    natDegree_mul (left_ne_zero_of_mul hne) (right_ne_zero_of_mul hne)] at hdeg
  have hdle : (d.map φ).natDegree ≤ d.natDegree := natDegree_map_le
  have hsle : (s.map φ).natDegree ≤ s.natDegree := natDegree_map_le
  omega

/-- Polynomials whose images share constants only have constants in common only, because one of the
polynomials keeps its degree, and a divisor along with it. -/
theorem natDegree_eq_zero_of_coprimeAt {point : List ℕ} {p q : Dense R}
    (h : p.coprimeAt point q = true) {d : (Carrier R)[X]} (hp : d ∣ p.toPoly)
    (hq : d ∣ q.toPoly) : d.natDegree = 0 := by
  simp only [coprimeAt, decide_eq_true_eq] at h
  obtain ⟨hkeep, hp0, hq0, hone⟩ := h
  obtain ⟨φ, hφ⟩ := value_hom (R := R) point
  have hgcd := isGcd_divisionGcd hp0 hq0
  have image_dvd {r : Dense R} (hr : d ∣ r.toPoly) : d.map φ ∣ (r.image point).toPoly := by
    rw [toPoly_image hφ]
    exact Polynomial.map_dvd φ hr
  have hzero : (d.map φ).natDegree = 0 :=
    natDegree_eq_zero_of_dvd hone (hgcd.greatest _ (image_dvd hp) (image_dvd hq))
  have keep {r : Dense R} (hr : d ∣ r.toPoly) (hr0 : r.image point ≠ 0)
      (hlen : (r.image point).length = r.length) : d.natDegree = 0 := by
    have hne : r ≠ 0 := by
      rintro rfl
      rw [length_eq_zero.mpr rfl] at hlen
      exact hr0 (length_eq_zero.mp hlen)
    rw [length_eq hr0, length_eq hne, toPoly_image hφ] at hlen
    have hmap : r.toPoly.map φ ≠ 0 := by
      rw [← toPoly_image hφ]
      rwa [Ne, toPoly_eq_zero]
    have hdeg := natDegree_map_of_dvd hr hmap (Nat.succ.inj hlen)
    rw [← hdeg, hzero]
  rcases hkeep with hlen | hlen
  · exact keep hp hp0 hlen
  · exact keep hq hq0 hlen

/-- The greatest common divisor of all coefficients is that of the contents. -/
theorem isGcd_gcdList_append (p q : Dense R) :
    IsGcd (embed p.content) (embed q.content)
      (embed (GcdRing.gcdList (p.coeffs ++ q.coeffs))) := by
  refine ⟨?_, ?_, fun d hp hq => ?_⟩
  · rw [content, dvd_embed_gcdList_iff]
    exact fun a ha => embed_gcdList_dvd (List.mem_append_left _ ha)
  · rw [content, dvd_embed_gcdList_iff]
    exact fun a ha => embed_gcdList_dvd (List.mem_append_right _ ha)
  · rw [content, dvd_embed_gcdList_iff] at hp hq
    rw [dvd_embed_gcdList_iff]
    intro a ha
    rcases List.mem_append.mp ha with ha | ha
    · exact hp a ha
    · exact hq a ha

/-- Whatever factors the trials guess, the quick steps find the greatest common divisor. -/
theorem isGcd_gcdWithin (trials : List ℕ) {p q : Dense R} (hp : p ≠ 0) (hq : q ≠ 0) :
    IsGcd p.toPoly q.toPoly (gcdWithin trials p q).toPoly := by
  induction trials generalizing p q with
  | nil => exact isGcd_divisionGcd hp hq
  | cons trial trials ih =>
    rw [gcdWithin]
    split
    · rename_i hone
      rw [toPoly_one]
      rcases hone with rfl | rfl
      · rw [toPoly_one]
        exact IsGcd.one_left _
      · rw [toPoly_one]
        exact (IsGcd.one_left _).symm
    · split
      · rename_i hconst
        refine isGcd_constant (fun d hdp hdq => ?_) (isGcd_gcdList_append p q)
        rcases hconst with hlen | hlen | hcoprime
        · exact natDegree_eq_zero_of_dvd hlen hdp
        · exact natDegree_eq_zero_of_dvd hlen hdq
        · exact natDegree_eq_zero_of_coprimeAt hcoprime hdp hdq
      · split
        · rename_i factor cofactorP cofactorQ hsplit
          simp only [splitFactor?, bind, Option.bind_eq_some_iff, pure, Option.some.injEq,
            Prod.mk.injEq] at hsplit
          obtain ⟨_, hcp, _, hcq, rfl, rfl, rfl⟩ := hsplit
          have hmulp := quotient?_sound' hcp
          have hmulq := quotient?_sound' hcq
          have cofactor_ne_zero {r s t : Dense R} (hr : r ≠ 0)
              (hmul : s.toPoly * t.toPoly = r.toPoly) : s ≠ 0 := by
            rintro rfl
            rw [toPoly_zero, zero_mul, eq_comm, toPoly_eq_zero] at hmul
            exact hr hmul
          rw [toPoly_mul, ← hmulp, ← hmulq]
          exact (ih (cofactor_ne_zero hp hmulp) (cofactor_ne_zero hq hmulq)).mul_right _
        · exact ih hp hq

/-- A power of the variable that occurs in every term can be divided off. -/
theorem X_pow_mul_toPoly_unshift {p : Dense R} {k : ℕ} (hk : k ≤ p.order) :
    X ^ k * (p.unshift k).toPoly = p.toPoly := by
  rw [unshift, toPoly_ofList, toPoly]
  rw [order] at hk
  generalize p.coeffs = coeffs at hk
  induction k generalizing coeffs with
  | zero => simp
  | succ k ih =>
    cases coeffs with
    | nil => simp at hk
    | cons a rest =>
      by_cases ha : a = 0
      · rw [List.takeWhile_cons_of_pos (by simpa using ha), List.length_cons] at hk
        rw [List.drop_succ_cons, ofCoeffs, ha, embed_zero, C_0, zero_add, ← ih rest (by omega)]
        ring
      · rw [List.takeWhile_cons_of_neg (by simpa using ha), List.length_nil] at hk
        omega

/-- The greatest common divisor of two polynomials is one. -/
theorem isGcd_gcd' (p q : Dense R) : IsGcd p.toPoly q.toPoly (gcd p q).toPoly := by
  rw [gcd]
  split
  · rename_i hp
    rw [hp, toPoly_zero]
    exact (IsGcd.zero_right _).symm
  · rename_i hp
    split
    · rename_i hq
      rw [hq, toPoly_zero]
      exact IsGcd.zero_right _
    · rename_i hq
      have hmulp := X_pow_mul_toPoly_unshift (p := p) (min_le_left p.order q.order)
      have hmulq := X_pow_mul_toPoly_unshift (p := q) (min_le_right p.order q.order)
      have unshift_ne_zero {r : Dense R} {k : ℕ} (hr : r ≠ 0)
          (hmul : X ^ k * (r.unshift k).toPoly = r.toPoly) : r.unshift k ≠ 0 := by
        intro h
        rw [h, toPoly_zero, mul_zero, eq_comm, toPoly_eq_zero] at hmul
        exact hr hmul
      have hgcd := (isGcd_gcdWithin (List.range 5) (unshift_ne_zero hp hmulp)
        (unshift_ne_zero hq hmulq)).mul_right (X ^ min p.order q.order)
      rw [mul_comm, hmulp, mul_comm, hmulq] at hgcd
      rw [toPoly_shift, mul_comm]
      exact hgcd

end Dense

/-- Polynomials over a lawful ring are a lawful ring. -/
noncomputable instance : LawfulGcdRing (Dense R) where
  Carrier := (Carrier R)[X]
  embed := Equiv.ofBijective Dense.toPoly ⟨Dense.toPoly_injective, Dense.toPoly_surjective⟩
  embed_zero := Dense.toPoly_zero
  embed_one := Dense.toPoly_one
  embed_add := Dense.toPoly_add
  embed_neg := Dense.toPoly_neg
  embed_mul := Dense.toPoly_mul
  embed_ofInt a := by
    change (Dense.constant (GcdRing.ofInt a)).toPoly = (a : (Carrier R)[X])
    rw [Dense.toPoly_constant, embed_ofInt, C_eq_intCast]
  quotient?_sound := Dense.quotient?_sound'
  quotient?_isSome := Dense.quotient?_isSome'
  isGcd_gcd := Dense.isGcd_gcd'
  value_hom point := by
    obtain ⟨φ, hφ⟩ := value_hom (R := R) point.tail
    exact ⟨eval₂RingHom φ (point.headD 0 : ℤ), Dense.value_eq_eval₂ hφ⟩

end Shapeline
