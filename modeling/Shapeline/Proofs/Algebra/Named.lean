import Mathlib.Algebra.MvPolynomial.NoZeroDivisors
import Mathlib.Algebra.MvPolynomial.Supported
import Shapeline.Proofs.Algebra.Poly

/-!
# Polynomials over names

The variables of a polynomial are positions. Given different names they make it a polynomial over
names, which can be compared with one in other variables. Nothing is lost: values, divisibility and
common factors are the same.
-/

namespace Shapeline.Poly

open LawfulGcdRing MvPolynomial

variable {n : ℕ} {names : List String}

/-- The point whose coordinates are the numbers that the names of a list have. -/
def pointAt (names : List String) (ρ : String → ℚ) : ℕ → ℚ := fun i => ρ (names[i]?.getD "")

/-- The polynomial over names that is obtained when the names of a list are put for the variables. -/
noncomputable def named : (names : List String) → Ring names.length →+* MvPolynomial String ℤ
  | [] => Int.castRingHom _
  | name :: rest => Polynomial.eval₂RingHom (named rest) (X name)

/-- Only the coordinates of the variables matter for a value. -/
theorem evalHom_congr {first second : ℕ → ℚ} (h : ∀ i < n, first i = second i) :
    evalHom n first = evalHom n second := by
  induction n generalizing first second with
  | zero => rfl
  | succ n ih =>
    have hrest : evalHom n (fun i => first (i + 1)) = evalHom n fun i => second (i + 1) :=
      ih fun i hi => h (i + 1) (by omega)
    rw [evalHom, evalHom, hrest, h 0 (by omega)]

/-- The names take the values of the variables. -/
theorem aeval_named (ρ : String → ℚ) (p : Ring names.length) :
    aeval ρ (named names p) = evalHom _ (pointAt names ρ) p := by
  induction names with
  | nil => exact map_intCast (aeval ρ).toRingHom p
  | cons name rest ih =>
    change (aeval ρ) (Polynomial.eval₂ (named rest) (X name) p) =
      Polynomial.eval₂ (evalHom _ (pointAt rest ρ)) (ρ name) p
    have hcoeffs : ((aeval ρ).toRingHom.comp (named rest)) = evalHom _ (pointAt rest ρ) :=
      RingHom.ext ih
    have hmap := Polynomial.hom_eval₂ p (named rest) (aeval ρ).toRingHom (X name)
    rw [hcoeffs] at hmap
    exact hmap.trans (congrArg (fun x => Polynomial.eval₂ _ x p) (aeval_X ρ name))

/-- Different polynomials are different over different names. -/
theorem named_injective (hnames : names.Nodup) : Function.Injective (named names) := by
  rw [injective_iff_map_eq_zero]
  intro p hp
  by_contra hne
  obtain ⟨point, hpoint⟩ := exists_evalHom_ne_zero hne
  have hsame : ∀ i < names.length,
      pointAt names (fun name => point (names.idxOf name)) i = point i := by
    intro i hi
    simp only [pointAt]
    rw [List.getElem?_eq_getElem hi, Option.getD_some, hnames.idxOf_getElem i hi]
  have hvalue := aeval_named (fun name => point (names.idxOf name)) p
  rw [hp, map_zero, evalHom_congr hsame] at hvalue
  exact hpoint hvalue.symm

/-- Different polynomials are different over different names. -/
theorem named_eq_zero (hnames : names.Nodup) {p : Ring names.length} :
    named names p = 0 ↔ p = 0 :=
  map_eq_zero_iff _ (named_injective hnames)

/-- Every one of the names is the name of a variable. -/
theorem exists_named_X {name : String} (h : name ∈ names) : ∃ p, named names p = X name := by
  induction names with
  | nil => cases h
  | cons first rest ih =>
    rcases List.mem_cons.mp h with rfl | h
    · exact ⟨Polynomial.X, Polynomial.eval₂_X (named rest) (X name)⟩
    · obtain ⟨p, hp⟩ := ih h
      exact ⟨Polynomial.C p, (Polynomial.eval₂_C (named rest) (X first)).trans hp⟩

/-- The names of a polynomial are those put for its variables. -/
theorem named_mem_supported (p : Ring names.length) :
    named names p ∈ supported ℤ {name | name ∈ names} := by
  induction names with
  | nil => exact intCast_mem _ p
  | cons first rest ih =>
    change Polynomial.eval₂ (named rest) (X first) p ∈ _
    have hrest : supported ℤ {name | name ∈ rest} ≤ supported ℤ {name | name ∈ first :: rest} :=
      supported_mono fun name hname => List.mem_cons_of_mem first hname
    have hfirst : X first ∈ supported ℤ {name | name ∈ first :: rest} :=
      X_mem_supported.mpr List.mem_cons_self
    rw [Polynomial.eval₂_eq_sum_range]
    exact sum_mem fun i _ => mul_mem (hrest (ih _)) (pow_mem hfirst i)

/-- A polynomial in which only some names occur is one in variables with these names. -/
theorem exists_named_of_vars {q : MvPolynomial String ℤ} (h : ∀ name ∈ q.vars, name ∈ names) :
    ∃ p, named names p = q := by
  have hmem : q ∈ supported ℤ {name | name ∈ names} := mem_supported.mpr h
  rw [supported_eq_adjoin_X] at hmem
  clear h
  induction hmem using Algebra.adjoin_induction with
  | mem x hx =>
    obtain ⟨name, hname, rfl⟩ := hx
    exact exists_named_X hname
  | algebraMap a => exact ⟨a, by simp⟩
  | add x y _ _ hx hy =>
    obtain ⟨⟨p, rfl⟩, ⟨r, rfl⟩⟩ := And.intro hx hy
    exact ⟨p + r, map_add _ p r⟩
  | mul x y _ _ hx hy =>
    obtain ⟨⟨p, rfl⟩, ⟨r, rfl⟩⟩ := And.intro hx hy
    exact ⟨p * r, map_mul _ p r⟩

/-- The names that occur in a divisor occur in what it divides. -/
theorem vars_subset_of_dvd {d q : MvPolynomial String ℤ} (hq : q ≠ 0) (h : d ∣ q) :
    d.vars ⊆ q.vars := by
  obtain ⟨c, rfl⟩ := h
  obtain ⟨hd, hc⟩ := mul_ne_zero_iff.mp hq
  rw [vars_def, vars_def, degrees_mul_eq hd hc]
  exact Multiset.toFinset_subset.mpr (Multiset.subset_of_le (Multiset.le_add_right _ _))

variable {p q : Ring names.length}

/-- A divisor of a polynomial over names is one in its variables. -/
theorem exists_named_of_dvd (hnames : names.Nodup) {d : MvPolynomial String ℤ} (hp : p ≠ 0)
    (h : d ∣ named names p) : ∃ e, named names e = d := by
  have hne : named names p ≠ 0 := (named_eq_zero hnames).not.mpr hp
  exact exists_named_of_vars fun name hname =>
    mem_supported.mp (named_mem_supported p) (vars_subset_of_dvd hne h hname)

/-- A polynomial divides another one if it does so over names. -/
theorem dvd_of_named_dvd (hnames : names.Nodup) (h : named names p ∣ named names q) : p ∣ q := by
  by_cases hq : q = 0
  · exact hq ▸ dvd_zero p
  · obtain ⟨c, hc⟩ := h
    obtain ⟨e, rfl⟩ := exists_named_of_dvd hnames hq (Dvd.intro_left _ hc.symm)
    rw [← map_mul] at hc
    exact ⟨e, named_injective hnames hc⟩

/-- Polynomials without a common factor have none over names either. -/
theorem isRelPrime_named (hnames : names.Nodup) (hq : q ≠ 0) (h : IsGcd p q 1) :
    IsRelPrime (named names p) (named names q) := by
  intro d hdp hdq
  obtain ⟨e, rfl⟩ := exists_named_of_dvd hnames hq hdq
  have hone : e ∣ 1 := h.greatest e (dvd_of_named_dvd hnames hdp) (dvd_of_named_dvd hnames hdq)
  exact (isUnit_of_dvd_one hone).map (named names)

end Shapeline.Poly
