import Mathlib.Algebra.CharZero.Infinite
import Mathlib.Algebra.Polynomial.Roots
import Mathlib.Data.Rat.Lemmas
import Shapeline.Algebra.Poly
import Shapeline.Proofs.Algebra.Gcd

/-!
# Values of polynomials in several variables

A polynomial in `n` variables has a value at every point with rational coordinates. Taking values is
a homomorphism, and a polynomial other than zero has a value other than zero at some point: the
rational numbers are many enough to miss all roots, one variable after another.
-/

namespace Shapeline

open Polynomial LawfulGcdRing

/-- The polynomials in a number of variables are a lawful ring. -/
@[reducible] noncomputable def polyLawful : (n : ℕ) → LawfulGcdRing (Poly n)
  | 0 => inferInstanceAs (LawfulGcdRing Int)
  | n + 1 =>
    letI := polyLawful n
    inferInstanceAs (LawfulGcdRing (Dense (Poly n)))

noncomputable instance (n : ℕ) : LawfulGcdRing (Poly n) := polyLawful n

namespace Poly

/-- The ring that the polynomials in `n` variables represent. -/
abbrev Ring (n : ℕ) : Type := Carrier (Poly n)

/-- The value at a point, as a homomorphism. The first coordinate belongs to the first variable. -/
noncomputable def evalHom : (n : ℕ) → (ℕ → ℚ) → Ring n →+* ℚ
  | 0, _ => Int.castRingHom ℚ
  | n + 1, point => eval₂RingHom (evalHom n fun i => point (i + 1)) (point 0)

/-- The value of a constant polynomial is the constant. -/
theorem evalHom_ofInt (n : ℕ) (point : ℕ → ℚ) (a : ℤ) :
    evalHom n point (embed (ofInt n a)) = a := by
  rw [ofInt, embed_ofInt, map_intCast]

/-- The value of a variable is its coordinate. -/
theorem evalHom_indeterminate {n i : ℕ} (point : ℕ → ℚ) (hi : i < n) :
    evalHom n point (embed (indeterminate n i)) = point i := by
  induction n generalizing i point with
  | zero => omega
  | succ n ih =>
    cases i with
    | zero =>
      change eval₂ _ _ (Dense.toPoly Dense.indeterminate) = _
      rw [Dense.toPoly_indeterminate, eval₂_X]
    | succ i =>
      change eval₂ _ _ (Dense.toPoly (Dense.constant (indeterminate n i))) = _
      rw [Dense.toPoly_constant, eval₂_C]
      exact ih (fun i => point (i + 1)) (by omega)

/-- A polynomial other than zero has a value other than zero somewhere. -/
theorem exists_evalHom_ne_zero {n : ℕ} {p : Ring n} (hp : p ≠ 0) :
    ∃ point, evalHom n point p ≠ 0 := by
  induction n with
  | zero => exact ⟨fun _ => 0, fun h => hp (Int.cast_eq_zero.mp h)⟩
  | succ n ih =>
    change (Ring n)[X] at p
    obtain ⟨i, hi⟩ : ∃ i, p.coeff i ≠ 0 := by
      by_contra hzero
      push Not at hzero
      exact hp (Polynomial.ext hzero)
    obtain ⟨rest, hrest⟩ := ih hi
    have hmap : p.map (evalHom n rest) ≠ 0 := by
      intro h
      have hcoeff := congrArg (fun f => f.coeff i) h
      rw [coeff_map, coeff_zero] at hcoeff
      exact hrest hcoeff
    obtain ⟨x, hx⟩ : ∃ x : ℚ, (p.map (evalHom n rest)).eval x ≠ 0 := by
      by_contra hzero
      push Not at hzero
      exact hmap (Polynomial.funext fun x => by rw [hzero x, eval_zero])
    refine ⟨fun i => i.casesOn x rest, ?_⟩
    change eval₂ (evalHom n rest) x p ≠ 0
    rwa [← eval_map]

/-- The polynomial of an integer represents the integer. -/
theorem embed_int (n : ℕ) (a : ℤ) : embed (ofInt n a) = (a : Ring n) := embed_ofInt a

/-- Different integers are different polynomials. -/
theorem intCast_inj {n : ℕ} {a b : ℤ} : (a : Ring n) = b ↔ a = b := by
  refine ⟨fun h => ?_, congrArg _⟩
  have hvalue := congrArg (evalHom n fun _ => 0) h
  rwa [map_intCast, map_intCast, Int.cast_inj] at hvalue

/-- Different integers are represented by different polynomials. -/
theorem ofInt_inj {n : ℕ} {a b : ℤ} : ofInt n a = ofInt n b ↔ a = b := by
  rw [← embed.injective.eq_iff, embed_int, embed_int, intCast_inj]

/-- The integer zero is the polynomial zero. -/
theorem ofInt_zero (n : ℕ) : ofInt n 0 = 0 := by
  rw [← embed_eq_zero, embed_int, Int.cast_zero]

/-- A polynomial is found to be an integer exactly if it is one. -/
theorem constant?_eq_some_iff {n : ℕ} {p : Poly n} {a : ℤ} :
    constant? n p = some a ↔ p = ofInt n a := by
  induction n with
  | zero => exact Option.some_inj
  | succ n ih =>
    have hinj (c : Poly n) : p = ofDense (.constant c) ↔ (toDense p).toPoly = C (embed c) := by
      rw [← Dense.toPoly_constant]
      exact (Dense.toPoly_injective (R := Poly n)).eq_iff.symm
    have hofInt : ofInt (n + 1) a = ofDense (.constant (ofInt n a)) := rfl
    rw [constant?]
    cases h : (toDense p).coeffs with
    | nil =>
      have hp : p = ofInt (n + 1) 0 := by
        rw [ofInt_zero]
        have hzero : toDense p = 0 := Dense.length_eq_zero.mp (congrArg List.length h)
        exact hzero
      rw [hp, ofInt_inj]
      exact Option.some_inj
    | cons c tail =>
      cases tail with
      | nil =>
        have hp : (toDense p).toPoly = C (embed c) := by
          rw [Dense.toPoly, h, ofCoeffs, ofCoeffs, mul_zero, add_zero]
        rw [hofInt, hinj, hp, C_inj, embed.injective.eq_iff]
        exact ih
      | cons d rest =>
        have hlong : (toDense p).length ≠ 1 := by
          rw [Dense.length, h, List.length_cons, List.length_cons]
          omega
        have hne : toDense p ≠ 0 := by
          rw [Ne, ← Dense.length_eq_zero, Dense.length, h]
          exact List.cons_ne_nil _ _ ∘ List.length_eq_zero_iff.mp
        refine ⟨fun hnone => (Option.some_ne_none a hnone.symm).elim, fun hp => absurd ?_ hlong⟩
        rw [Dense.length_eq hne, (hinj _).mp (hp.trans hofInt), natDegree_C]

/-- A divisor of an integer other than zero is an integer. -/
theorem exists_ofInt_of_dvd {n : ℕ} {p : Poly n} {a : ℤ} (ha : a ≠ 0)
    (h : embed p ∣ (a : Ring n)) : ∃ b, p = ofInt n b := by
  induction n with
  | zero => exact ⟨p, rfl⟩
  | succ n ih =>
    have hne : (a : Ring n) ≠ 0 := by
      rwa [Ne, ← Int.cast_zero, intCast_inj]
    change (toDense p).toPoly ∣ ((a : ℤ) : (Ring n)[X]) at h
    rw [← C_eq_intCast] at h
    have hdeg : (toDense p).toPoly.natDegree = 0 := by
      have hle := natDegree_le_of_dvd h (C_ne_zero.mpr hne)
      rw [natDegree_C] at hle
      exact Nat.eq_zero_of_le_zero hle
    obtain ⟨c, hc⟩ := natDegree_eq_zero.mp hdeg
    have hdvd : c ∣ (a : Ring n) := by
      rw [← hc] at h
      exact (C_dvd_iff_dvd_coeff _ _).mp h 0 |>.trans (by rw [coeff_C_zero])
    obtain ⟨b, hb⟩ := ih (p := embed.symm c) (by rwa [Equiv.apply_symm_apply])
    refine ⟨b, Dense.toPoly_injective (R := Poly n) ?_⟩
    change (toDense p).toPoly = (Dense.constant (ofInt n b)).toPoly
    rw [Dense.toPoly_constant, ← hc, ← hb, Equiv.apply_symm_apply]

/-- The sign of an integer. -/
theorem isNegative_ofInt (n : ℕ) (a : ℤ) :
    GcdRing.isNegative (ofInt n a) = decide (a < 0) := by
  induction n with
  | zero => rfl
  | succ n ih =>
    change GcdRing.isNegative (Dense.constant (ofInt n a)).lead = _
    have hlead : (Dense.constant (ofInt n a)).lead = ofInt n a := by
      apply embed.injective
      rw [Dense.embed_lead, Dense.toPoly_constant, leadingCoeff_C]
    rw [hlead, ih]

/-- Of a polynomial other than zero and its opposite, exactly one is negative. -/
theorem isNegative_neg {n : ℕ} {p : Poly n} (hp : p ≠ 0) :
    GcdRing.isNegative (-p) = !GcdRing.isNegative p := by
  induction n with
  | zero =>
    change ℤ at p
    change decide (-p < 0) = !decide (p < 0)
    have hne : (p : ℤ) ≠ 0 := hp
    rw [← decide_not, decide_eq_decide]
    omega
  | succ n ih =>
    have hlead : (-toDense p).lead = -(toDense p).lead := by
      apply embed.injective
      rw [embed_neg, Dense.embed_lead, Dense.embed_lead, Dense.toPoly_neg, leadingCoeff_neg]
    change GcdRing.isNegative (-toDense p).lead = !GcdRing.isNegative (toDense p).lead
    have hne : (toDense p).lead ≠ 0 := Dense.lead_ne_zero hp
    rw [hlead, ih hne]

end Poly

end Shapeline
