import Mathlib.Algebra.Polynomial.Div
import Mathlib.Algebra.Polynomial.Inductions
import Shapeline.Algebra.Dense
import Shapeline.Proofs.Algebra.Lawful

/-!
# Coefficient lists as polynomials

A trimmed list of coefficients represents a polynomial over the ring that the coefficients
represent, and every polynomial is represented by exactly one trimmed list. Each operation on
coefficient lists is related to its meaning on polynomials, so that later proofs speak about
polynomials only.
-/

namespace Shapeline

open Polynomial LawfulGcdRing

variable {R : Type} [GcdRing R] [LawfulGcdRing R]

/-- The polynomial with the given coefficients, that of the constant term first. -/
noncomputable def ofCoeffs : List R → (Carrier R)[X]
  | [] => 0
  | a :: rest => C (embed a) + X * ofCoeffs rest

/-- The coefficients of the polynomial are those of the list. -/
theorem coeff_ofCoeffs (coeffs : List R) (i : ℕ) :
    (ofCoeffs coeffs).coeff i = embed (coeffs[i]?.getD 0) := by
  induction coeffs generalizing i with
  | nil => simp [ofCoeffs]
  | cons a rest ih =>
    cases i with
    | zero => simp [ofCoeffs, mul_comm X]
    | succ i => simp [ofCoeffs, mul_comm X, coeff_mul_X, coeff_C_succ, ih]

/-- Zeros at the end of a list do not count. -/
theorem ofCoeffs_trimZeros (coeffs : List R) : ofCoeffs (trimZeros coeffs) = ofCoeffs coeffs := by
  induction coeffs with
  | nil => rfl
  | cons a rest ih =>
    rw [trimZeros]
    split
    · rename_i h
      rw [h] at ih
      have hrest : ofCoeffs rest = 0 := by rw [← ih]; rfl
      split
      · rename_i ha
        simp [ofCoeffs, ha, hrest]
      · simp [ofCoeffs, hrest]
    · rename_i b tail h
      rw [ofCoeffs, ← h, ih, ofCoeffs]

/-- The coefficients of a list joined to zeros are shifted by their number. -/
theorem ofCoeffs_replicate_append (k : ℕ) (coeffs : List R) :
    ofCoeffs (List.replicate k 0 ++ coeffs) = X ^ k * ofCoeffs coeffs := by
  induction k with
  | zero => simp
  | succ k ih =>
    rw [List.replicate_succ, List.cons_append, ofCoeffs, ih, embed_zero, C_0, zero_add,
      pow_succ', mul_assoc]

/-- Multiplying every coefficient multiplies the polynomial. -/
theorem ofCoeffs_map_mul (a : R) (coeffs : List R) :
    ofCoeffs (coeffs.map (a * ·)) = C (embed a) * ofCoeffs coeffs := by
  induction coeffs with
  | nil => simp [ofCoeffs]
  | cons b rest ih =>
    simp only [List.map_cons, ofCoeffs, ih, embed_mul, C_mul]
    ring

/-- The sum of two coefficient lists is that of the polynomials. -/
theorem ofCoeffs_addCoeffs (p q : List R) :
    ofCoeffs (Dense.addCoeffs p q) = ofCoeffs p + ofCoeffs q := by
  fun_induction Dense.addCoeffs p q with
  | case1 q => simp [ofCoeffs]
  | case2 a p => simp [ofCoeffs]
  | case3 a p b q ih =>
    simp only [ofCoeffs, ih, embed_add, C_add]
    ring

/-- The product of two coefficient lists is that of the polynomials. -/
theorem ofCoeffs_mulCoeffs (p q : List R) :
    ofCoeffs (Dense.mulCoeffs p q) = ofCoeffs p * ofCoeffs q := by
  induction p with
  | nil => simp [Dense.mulCoeffs, ofCoeffs]
  | cons a p ih =>
    have hrest : ofCoeffs ((0 : R) :: Dense.mulCoeffs p q) = X * (ofCoeffs p * ofCoeffs q) := by
      rw [ofCoeffs, ih, embed_zero, C_0, zero_add]
    simp only [Dense.mulCoeffs]
    split
    · rename_i ha
      rw [hrest, ofCoeffs, ha, embed_zero, C_0, zero_add, mul_assoc]
    · rw [ofCoeffs_addCoeffs, ofCoeffs_map_mul, hrest, ofCoeffs]
      ring

/-- A trimmed list that represents the zero polynomial is empty. -/
theorem eq_nil_of_ofCoeffs_eq_zero {coeffs : List R} (htrim : coeffs.getLast? ≠ some 0)
    (h : ofCoeffs coeffs = 0) : coeffs = [] := by
  have hcoeff (i : ℕ) : coeffs[i]?.getD 0 = 0 := by
    rw [← embed_eq_zero, ← coeff_ofCoeffs, h, coeff_zero]
  by_contra hne
  have hlast := hcoeff (coeffs.length - 1)
  rw [← List.getLast?_eq_getElem?, List.getLast?_eq_some_getLast hne, Option.getD_some] at hlast
  exact htrim (by rw [List.getLast?_eq_some_getLast hne, hlast])

/-- Trimmed lists that represent one polynomial are equal. -/
theorem ofCoeffs_injective {p q : List R} (hp : p.getLast? ≠ some 0) (hq : q.getLast? ≠ some 0)
    (h : ofCoeffs p = ofCoeffs q) : p = q := by
  induction p generalizing q with
  | nil => exact (eq_nil_of_ofCoeffs_eq_zero hq h.symm).symm
  | cons a p ih =>
    cases q with
    | nil => exact absurd (eq_nil_of_ofCoeffs_eq_zero hp h) (by simp)
    | cons b q =>
      have hhead : a = b := by
        have h0 := congrArg (fun f => f.coeff 0) h
        simpa [coeff_ofCoeffs] using h0
      have htail : ofCoeffs p = ofCoeffs q := by
        ext i
        have hi := congrArg (fun f => f.coeff (i + 1)) h
        simpa [coeff_ofCoeffs] using hi
      have trim_tail {c : R} {l : List R} (hl : (c :: l).getLast? ≠ some 0) :
          l.getLast? ≠ some 0 := by
        intro hzero
        apply hl
        rw [List.getLast?_cons, hzero]
        rfl
      rw [hhead, ih (trim_tail hp) (trim_tail hq) htail]

namespace Dense

/-- The polynomial that a trimmed coefficient list represents. -/
noncomputable def toPoly (p : Dense R) : (Carrier R)[X] := ofCoeffs p.coeffs

@[simp] theorem toPoly_ofList (coeffs : List R) : toPoly (ofList coeffs) = ofCoeffs coeffs :=
  ofCoeffs_trimZeros coeffs

@[simp] theorem toPoly_constant (a : R) : toPoly (constant a) = C (embed a) := by
  simp [constant, ofCoeffs]

@[simp] theorem toPoly_indeterminate : toPoly (indeterminate : Dense R) = X := by
  simp [indeterminate, ofCoeffs]

@[simp] theorem toPoly_zero : toPoly (0 : Dense R) = 0 := toPoly_ofList []

@[simp] theorem toPoly_one : toPoly (1 : Dense R) = 1 := by
  change toPoly (constant (1 : R)) = 1
  rw [toPoly_constant, embed_one, C_1]

@[simp] theorem toPoly_add (p q : Dense R) : toPoly (p + q) = toPoly p + toPoly q := by
  change toPoly (ofList _) = _
  rw [toPoly_ofList, ofCoeffs_addCoeffs]
  rfl

@[simp] theorem toPoly_mul (p q : Dense R) : toPoly (p * q) = toPoly p * toPoly q := by
  change toPoly (ofList _) = _
  rw [toPoly_ofList, ofCoeffs_mulCoeffs]
  rfl

@[simp] theorem toPoly_neg (p : Dense R) : toPoly (-p) = -toPoly p := by
  change toPoly (ofList _) = _
  rw [toPoly_ofList, toPoly]
  induction p.coeffs with
  | nil => simp [ofCoeffs]
  | cons a rest ih =>
    simp only [List.map_cons, ofCoeffs, ih, embed_neg, C_neg]
    ring

@[simp] theorem toPoly_scale (a : R) (p : Dense R) :
    toPoly (p.scale a) = C (embed a) * toPoly p := by
  rw [scale, toPoly_ofList, ofCoeffs_map_mul, toPoly]

@[simp] theorem toPoly_shift (k : ℕ) (p : Dense R) : toPoly (p.shift k) = X ^ k * toPoly p := by
  rw [shift, toPoly_ofList, ofCoeffs_replicate_append, toPoly]

/-- The coefficients of the polynomial are those of the list. -/
theorem coeff_toPoly (p : Dense R) (i : ℕ) : p.toPoly.coeff i = embed (p.coeffs[i]?.getD 0) :=
  coeff_ofCoeffs p.coeffs i

/-- One polynomial is represented once. -/
theorem toPoly_injective : Function.Injective (toPoly : Dense R → (Carrier R)[X]) := by
  rintro ⟨p, hp⟩ ⟨q, hq⟩ h
  congr
  exact ofCoeffs_injective hp hq h

/-- Every polynomial is represented. -/
theorem toPoly_surjective : Function.Surjective (toPoly : Dense R → (Carrier R)[X]) := by
  intro f
  induction f using Polynomial.induction_on' with
  | add f g hf hg =>
    obtain ⟨p, rfl⟩ := hf
    obtain ⟨q, rfl⟩ := hg
    exact ⟨p + q, toPoly_add p q⟩
  | monomial k a =>
    refine ⟨(constant (embed.symm a)).shift k, ?_⟩
    rw [toPoly_shift, toPoly_constant, Equiv.apply_symm_apply, ← C_mul_X_pow_eq_monomial, mul_comm]

@[simp] theorem toPoly_eq_zero {p : Dense R} : p.toPoly = 0 ↔ p = 0 := by
  rw [← toPoly_zero (R := R), toPoly_injective.eq_iff]

/-- Only the zero polynomial has no coefficients. -/
theorem length_eq_zero {p : Dense R} : p.length = 0 ↔ p = 0 := by
  rw [length, List.length_eq_zero_iff]
  constructor
  · intro h
    rw [← toPoly_eq_zero, toPoly, h, ofCoeffs]
  · intro h
    rw [h]
    rfl

/-- The length is one more than the degree. -/
theorem length_eq {p : Dense R} (hp : p ≠ 0) : p.length = p.toPoly.natDegree + 1 := by
  have hne : p.coeffs ≠ [] := fun h => hp (length_eq_zero.mp (by rw [length, h]; rfl))
  have hpos : 0 < p.length := List.length_pos_iff.mpr hne
  have hlast : p.toPoly.coeff (p.length - 1) ≠ 0 := by
    rw [coeff_toPoly, Ne, embed_eq_zero, length, ← List.getLast?_eq_getElem?]
    intro h
    apply p.trimmed
    rw [List.getLast?_eq_some_getLast hne] at h ⊢
    rw [Option.getD_some] at h
    rw [h]
  have hle : p.toPoly.natDegree ≤ p.length - 1 := by
    rw [natDegree_le_iff_coeff_eq_zero]
    intro i hi
    rw [coeff_toPoly, List.getElem?_eq_none (by rw [length] at hi; omega)]
    simp
  have hge := le_natDegree_of_ne_zero hlast
  omega

/-- A polynomial has one coefficient only if it is constant and not zero. -/
theorem length_eq_one_iff {p : Dense R} : p.length = 1 ↔ ∃ a, a ≠ 0 ∧ p = constant a := by
  constructor
  · intro h
    have hp : p ≠ 0 := by
      rintro rfl
      rw [length_eq_zero.mpr rfl] at h
      omega
    have hdeg : p.toPoly.natDegree = 0 := by
      rw [length_eq hp] at h
      omega
    rw [natDegree_eq_zero] at hdeg
    obtain ⟨c, hc⟩ := hdeg
    refine ⟨embed.symm c, ?_, ?_⟩
    · intro h0
      apply hp
      rw [← toPoly_eq_zero, ← hc, C_eq_zero, ← embed.apply_symm_apply c, h0, embed_zero]
    · apply toPoly_injective
      rw [toPoly_constant, Equiv.apply_symm_apply, hc]
  · rintro ⟨a, ha, rfl⟩
    have hne : constant a ≠ 0 := by
      rwa [Ne, ← toPoly_eq_zero, toPoly_constant, C_eq_zero, embed_eq_zero]
    rw [length_eq hne, toPoly_constant, natDegree_C]

/-- The last coefficient is the leading one. -/
theorem embed_lead (p : Dense R) : embed p.lead = p.toPoly.leadingCoeff := by
  by_cases hp : p = 0
  · subst hp
    rw [toPoly_zero, leadingCoeff_zero, embed_eq_zero]
    rfl
  · rw [leadingCoeff, coeff_toPoly, lead, List.getLastD_eq_getLast?, List.getLast?_eq_getElem?]
    have hlen := length_eq hp
    rw [length] at hlen
    rw [hlen, Nat.add_sub_cancel]

/-- The leading coefficient of a polynomial other than zero is not zero. -/
theorem lead_ne_zero {p : Dense R} (hp : p ≠ 0) : p.lead ≠ 0 := by
  rwa [Ne, ← embed_eq_zero, embed_lead, leadingCoeff_eq_zero, toPoly_eq_zero]

end Dense

end Shapeline
