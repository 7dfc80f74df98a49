import Mathlib.RingTheory.Polynomial.Content
import Mathlib.Tactic.LinearCombination
import Shapeline.Proofs.Algebra.Dense

/-!
# Division of polynomials by coefficient lists

Exact division finds every quotient that exists, and pseudo-division leaves a remainder that is
shorter than the divisor. By Gauss's lemma a primitive divisor of a constant multiple divides the
polynomial itself, so the remainder sequence of two primitive polynomials ends at their greatest
common divisor.
-/

namespace Shapeline

open Polynomial LawfulGcdRing

section Primitive

variable {S : Type} [CommRing S] [IsDomain S] [IsGCDMonoid S]

/-- Gauss's lemma: a primitive divisor of a constant multiple divides the polynomial. -/
theorem dvd_of_dvd_C_mul {p q : S[X]} {a : S} (hq : q.IsPrimitive) (ha : a ≠ 0)
    (h : q ∣ C a * p) : q ∣ p := by
  have := Classical.arbitrary (NormalizedGCDMonoid S)
  obtain ⟨s, hs⟩ := h
  have hcontent : a ∣ s.content := by
    have hassoc := associated_content_mul q s
    rw [hq.content_eq_one, one_mul, ← hs] at hassoc
    have ha : a ∣ (C a * p).content := dvd_content_iff_C_dvd.mpr (dvd_mul_right _ _)
    exact ha.trans hassoc.dvd
  obtain ⟨t, rfl⟩ := dvd_content_iff_C_dvd.mp hcontent
  refine ⟨t, mul_left_cancel₀ (C_ne_zero.mpr ha) ?_⟩
  rw [hs]
  ring

/-- Greatest common divisors of constants and of primitive polynomials multiply. -/
theorem IsGcd.C_mul {a b c : S} {p q g : S[X]} (hab : IsGcd a b c) (hpq : IsGcd p q g)
    (hp : p.IsPrimitive) (hq : q.IsPrimitive) (ha : a ≠ 0) (hb : b ≠ 0) :
    IsGcd (C a * p) (C b * q) (C c * g) := by
  have := Classical.arbitrary (NormalizedGCDMonoid S)
  refine ⟨mul_dvd_mul (map_dvd C hab.dvd_left) hpq.dvd_left,
    mul_dvd_mul (map_dvd C hab.dvd_right) hpq.dvd_right, fun d hdp hdq => ?_⟩
  have hd : d ≠ 0 := by
    rintro rfl
    rw [zero_dvd_iff, mul_eq_zero, C_eq_zero] at hdp
    exact hdp.elim ha hp.ne_zero
  have content_dvd {e : S} {r : S[X]} (hr : r.IsPrimitive) (h : d ∣ C e * r) :
      d.content ∣ e := by
    have hC : C d.content ∣ C e * r := (C_content_dvd d).trans h
    rw [← dvd_content_iff_C_dvd, (associated_content_C_mul e r).dvd_iff_dvd_right,
      hr.content_eq_one, mul_one] at hC
    exact hC
  have primPart_dvd {e : S} {r : S[X]} (he : e ≠ 0) (h : d ∣ C e * r) : d.primPart ∣ r :=
    dvd_of_dvd_C_mul d.isPrimitive_primPart he (d.primPart_dvd.trans h)
  rw [d.eq_C_content_mul_primPart]
  exact mul_dvd_mul
    (map_dvd C (hab.greatest _ (content_dvd hp hdp) (content_dvd hq hdq)))
    (hpq.greatest _ (primPart_dvd ha hdp) (primPart_dvd hb hdq))

omit [IsDomain S] [IsGCDMonoid S] in
/-- A constant that divides a primitive polynomial is a unit. -/
theorem isUnit_of_natDegree_eq_zero {p d : S[X]} (hp : p.IsPrimitive) (hd : d ∣ p)
    (hdeg : d.natDegree = 0) : IsUnit d := by
  obtain ⟨c, rfl⟩ := natDegree_eq_zero.mp hdeg
  exact (hp c hd).map C

end Primitive

namespace Dense

variable {R : Type} [GcdRing R] [LawfulGcdRing R]

/-- The coefficients of a polynomial divided by a common divisor, times the divisor. -/
theorem C_mul_toPoly_unscale {p : Dense R} {a : R} (ha : a ≠ 0) (h : C (embed a) ∣ p.toPoly) :
    C (embed a) * (p.unscale a).toPoly = p.toPoly := by
  rw [unscale, toPoly_ofList]
  rw [C_dvd_iff_dvd_coeff] at h
  ext i
  rw [coeff_C_mul, coeff_ofCoeffs, coeff_toPoly, List.getElem?_map]
  have hi := h i
  rw [coeff_toPoly] at hi
  cases hget : p.coeffs[i]? with
  | none => simp
  | some b =>
    rw [hget, Option.getD_some] at hi
    rw [Option.map_some, Option.getD_some, Option.getD_some, mul_comm]
    exact embed_quotient ha hi

/-- A constant divides a polynomial if and only if it divides the content. -/
theorem C_dvd_toPoly_iff {p : Dense R} {c : Carrier R} :
    C c ∣ p.toPoly ↔ c ∣ embed p.content := by
  rw [content, dvd_embed_gcdList_iff, C_dvd_iff_dvd_coeff]
  constructor
  · intro h a ha
    obtain ⟨i, hi⟩ := List.mem_iff_getElem?.mp ha
    have hdvd := h i
    rwa [coeff_toPoly, hi, Option.getD_some] at hdvd
  · intro h i
    rw [coeff_toPoly]
    cases hget : p.coeffs[i]? with
    | none => simp
    | some a => exact h a (List.mem_of_getElem? hget)

/-- The content of a polynomial other than zero is not zero. -/
theorem content_ne_zero {p : Dense R} (hp : p ≠ 0) : p.content ≠ 0 := by
  intro h
  have hdvd : C (0 : Carrier R) ∣ p.toPoly := C_dvd_toPoly_iff.mpr (by rw [h, embed_zero])
  rw [C_0, zero_dvd_iff, toPoly_eq_zero] at hdvd
  exact hp hdvd

/-- A polynomial is its content times its primitive part. -/
theorem C_content_mul_primitivePart {p : Dense R} (hp : p ≠ 0) :
    C (embed p.content) * p.primitivePart.toPoly = p.toPoly :=
  C_mul_toPoly_unscale (content_ne_zero hp) (C_dvd_toPoly_iff.mpr dvd_rfl)

/-- The primitive part is primitive. -/
theorem isPrimitive_primitivePart {p : Dense R} (hp : p ≠ 0) :
    p.primitivePart.toPoly.IsPrimitive := by
  intro c hc
  have hmul : C (embed p.content * c) ∣ p.toPoly := by
    rw [← C_content_mul_primitivePart hp, C_mul]
    exact mul_dvd_mul_left _ hc
  rw [C_dvd_toPoly_iff] at hmul
  have hne : embed p.content ≠ 0 := by
    rw [Ne, embed_eq_zero]
    exact content_ne_zero hp
  exact isUnit_of_dvd_one ((mul_dvd_mul_iff_left hne).mp (by rwa [mul_one]))

/-- The primitive part of a polynomial other than zero is not zero and has the same length. -/
theorem length_primitivePart {p : Dense R} (hp : p ≠ 0) :
    p.primitivePart ≠ 0 ∧ p.primitivePart.length = p.length := by
  have hmul := C_content_mul_primitivePart hp
  have hne : p.primitivePart ≠ 0 := by
    intro h
    rw [h, toPoly_zero, mul_zero] at hmul
    exact hp (toPoly_eq_zero.mp hmul.symm)
  have hcontent : embed p.content ≠ 0 := by
    rw [Ne, embed_eq_zero]
    exact content_ne_zero hp
  refine ⟨hne, ?_⟩
  rw [length_eq hne, length_eq hp, ← hmul, natDegree_C_mul hcontent]

/-- Subtracting a polynomial with the same leading term makes a polynomial shorter. -/
theorem length_sub_lt {p r : Dense R} {f : (Carrier R)[X]} {a : Carrier R} (ha : a ≠ 0)
    (hp : p ≠ 0) (hr : r.toPoly = C a * p.toPoly - f)
    (hdeg : f.degree = p.toPoly.degree) (hlead : f.leadingCoeff = a * p.toPoly.leadingCoeff) :
    r.length < p.length := by
  by_cases hr0 : r = 0
  · rw [length_eq_zero.mpr hr0, length_eq hp]
    omega
  · have hmul : (C a * p.toPoly).degree = p.toPoly.degree := degree_C_mul ha
    have hlt : r.toPoly.degree < p.toPoly.degree := by
      rw [hr, ← hmul]
      apply degree_sub_lt_left (hmul.trans hdeg.symm)
      · rw [Ne, mul_eq_zero, C_eq_zero, toPoly_eq_zero, not_or]
        exact ⟨ha, hp⟩
      · rw [leadingCoeff_mul, leadingCoeff_C, hlead]
    rw [length_eq hr0, length_eq hp]
    have hnat := natDegree_lt_natDegree (by rwa [Ne, toPoly_eq_zero]) hlt
    omega

/-- The degree of a divisor raised to that of the dividend. -/
theorem degree_X_pow_mul {p d : Dense R} (hp : p ≠ 0) (hd : d ≠ 0) (hle : d.length ≤ p.length) :
    (X ^ (p.length - d.length) * d.toPoly).degree = p.toPoly.degree := by
  have hd' : d.toPoly ≠ 0 := by rwa [Ne, toPoly_eq_zero]
  have hp' : p.toPoly ≠ 0 := by rwa [Ne, toPoly_eq_zero]
  rw [degree_mul, degree_X_pow, degree_eq_natDegree hd', degree_eq_natDegree hp', ← Nat.cast_add]
  have hlenp := length_eq hp
  have hlend := length_eq hd
  congr 1
  omega

/-- Cancelling the leading term subtracts a multiple of the divisor from a constant multiple. -/
theorem toPoly_cancelLead (p d : Dense R) :
    (p.cancelLead d).toPoly = C (embed d.lead) * p.toPoly -
      C (embed p.lead) * (X ^ (p.length - d.length) * d.toPoly) := by
  rw [cancelLead, toPoly_add, toPoly_neg, toPoly_scale, toPoly_shift, toPoly_scale]
  ring

/-- Cancelling the leading term makes a polynomial shorter. -/
theorem length_cancelLead_lt {p d : Dense R} (hp : p ≠ 0) (hd : d ≠ 0)
    (hle : d.length ≤ p.length) : (p.cancelLead d).length < p.length := by
  have hdlead : embed d.lead ≠ 0 := by
    rw [Ne, embed_eq_zero]
    exact lead_ne_zero hd
  have hplead : embed p.lead ≠ 0 := by
    rw [Ne, embed_eq_zero]
    exact lead_ne_zero hp
  apply length_sub_lt hdlead hp (toPoly_cancelLead p d)
  · rw [degree_C_mul hplead, degree_X_pow_mul hp hd hle]
  · rw [leadingCoeff_mul, leadingCoeff_C, leadingCoeff_mul, leadingCoeff_X_pow, one_mul,
      embed_lead, embed_lead, mul_comm]

/-- Pseudo-division: a constant multiple of the dividend is a multiple of the divisor and the
remainder, which is shorter than the divisor. -/
theorem pseudoRemainder_spec {rounds : ℕ} {p d : Dense R} (hd : d ≠ 0)
    (hrounds : p.length ≤ rounds) :
    ∃ a s, a ≠ 0 ∧
      C a * p.toPoly = s * d.toPoly + (pseudoRemainder rounds p d).toPoly ∧
      (pseudoRemainder rounds p d).length < d.length := by
  have hdpos : 0 < d.length := Nat.pos_of_ne_zero fun h => hd (length_eq_zero.mp h)
  induction rounds generalizing p with
  | zero => exact ⟨1, 0, one_ne_zero, by simp [pseudoRemainder], by rw [pseudoRemainder]; omega⟩
  | succ rounds ih =>
    rw [pseudoRemainder]
    split
    · rename_i hlt
      exact ⟨1, 0, one_ne_zero, by simp, hlt⟩
    · rename_i hge
      have hle : d.length ≤ p.length := Nat.le_of_not_lt hge
      have hp : p ≠ 0 := by
        rintro rfl
        rw [length_eq_zero.mpr rfl] at hle
        omega
      have hlt := length_cancelLead_lt hp hd hle
      obtain ⟨a, s, ha, heq, hlen⟩ := ih (p := p.cancelLead d) (by omega)
      have hdlead : embed d.lead ≠ 0 := by
        rw [Ne, embed_eq_zero]
        exact lead_ne_zero hd
      refine ⟨a * embed d.lead,
        s + C a * (C (embed p.lead) * X ^ (p.length - d.length)), mul_ne_zero ha hdlead, ?_, hlen⟩
      rw [toPoly_cancelLead] at heq
      rw [C_mul]
      linear_combination heq

/-- A quotient that is found is one. -/
theorem quotientFrom?_sound {rounds : ℕ} {p d q : Dense R}
    (h : quotientFrom? rounds p d = some q) : q.toPoly * d.toPoly = p.toPoly := by
  induction rounds generalizing p q with
  | zero =>
    simp only [quotientFrom?, Option.ite_none_right_eq_some, Option.some.injEq] at h
    obtain ⟨rfl, rfl⟩ := h
    simp
  | succ rounds ih =>
    rw [quotientFrom?] at h
    split at h
    · rename_i hp
      rw [Option.some.injEq] at h
      rw [← h, hp, toPoly_zero, zero_mul]
    · split at h
      · exact absurd h (by simp)
      · simp only [bind, Option.bind_eq_some_iff, pure, Option.some.injEq] at h
        obtain ⟨factor, _, rest, hrest, rfl⟩ := h
        have hmul := ih hrest
        rw [toPoly_add, toPoly_neg, toPoly_shift, toPoly_scale] at hmul
        rw [toPoly_add, toPoly_shift, toPoly_constant]
        linear_combination hmul

/-- The quotient by a divisor that is not zero is found. -/
theorem quotientFrom?_isSome {rounds : ℕ} {p d : Dense R} (hd : d ≠ 0)
    (hrounds : p.length ≤ rounds) (hdvd : d.toPoly ∣ p.toPoly) :
    (quotientFrom? rounds p d).isSome := by
  induction rounds generalizing p with
  | zero =>
    have hp : p = 0 := length_eq_zero.mp (Nat.le_zero.mp hrounds)
    simp [quotientFrom?, hp]
  | succ rounds ih =>
    rw [quotientFrom?]
    split
    · rfl
    · rename_i hp
      have hp' : p.toPoly ≠ 0 := by rwa [Ne, toPoly_eq_zero]
      have hle : d.length ≤ p.length := by
        rw [length_eq hp, length_eq hd]
        have := natDegree_le_of_dvd hdvd hp'
        omega
      rw [if_neg (Nat.not_lt.mpr hle)]
      have hlead : embed d.lead ∣ embed p.lead := by
        rw [embed_lead, embed_lead]
        obtain ⟨s, hs⟩ := hdvd
        rw [hs, leadingCoeff_mul]
        exact dvd_mul_right _ _
      obtain ⟨factor, hfactor⟩ :=
        Option.isSome_iff_exists.mp (quotient?_isSome (lead_ne_zero hd) hlead)
      have hmul := quotient?_sound hfactor
      have hfne : embed factor ≠ 0 := by
        intro h
        rw [h, zero_mul, eq_comm, embed_eq_zero] at hmul
        exact lead_ne_zero hp hmul
      have hnext : (p + -((d.scale factor).shift (p.length - d.length))).toPoly =
          C 1 * p.toPoly - C (embed factor) * (X ^ (p.length - d.length) * d.toPoly) := by
        rw [toPoly_add, toPoly_neg, toPoly_shift, toPoly_scale, C_1]
        ring
      have hlt := length_sub_lt one_ne_zero hp hnext
        (by rw [degree_C_mul hfne, degree_X_pow_mul hp hd hle])
        (by rw [leadingCoeff_mul, leadingCoeff_C, leadingCoeff_mul, leadingCoeff_X_pow, one_mul,
              one_mul, ← embed_lead, ← embed_lead, hmul])
      have hrest := ih (p := p + -((d.scale factor).shift (p.length - d.length))) (by omega) (by
        rw [hnext, C_1, one_mul]
        exact dvd_sub hdvd ((dvd_mul_left _ _).mul_left _))
      obtain ⟨rest, hrest⟩ := Option.isSome_iff_exists.mp hrest
      simp [hfactor, hrest]

/-- A quotient that is found is one. -/
theorem quotient?_sound' {p d q : Dense R} (h : p.quotient? d = some q) :
    q.toPoly * d.toPoly = p.toPoly := by
  rw [quotient?] at h
  split at h
  · rename_i hd
    rw [Option.some.injEq] at h
    rw [h, hd, toPoly_one, mul_one]
  · exact quotientFrom?_sound h

/-- The quotient by a divisor that is not zero is found. -/
theorem quotient?_isSome' {p d : Dense R} (hd : d ≠ 0) (hdvd : d.toPoly ∣ p.toPoly) :
    (p.quotient? d).isSome := by
  rw [quotient?]
  split
  · rfl
  · exact quotientFrom?_isSome hd le_rfl hdvd

/-- The remainder sequence of two primitive polynomials ends at their greatest common divisor. -/
theorem isGcd_primitiveGcd {rounds : ℕ} {p q : Dense R} (hp : p.toPoly.IsPrimitive)
    (hq : q.toPoly.IsPrimitive) (hq0 : q ≠ 0) (hrounds : q.length ≤ rounds) :
    IsGcd p.toPoly q.toPoly (primitiveGcd rounds p q).toPoly := by
  induction rounds generalizing p q with
  | zero => exact absurd (length_eq_zero.mp (Nat.le_zero.mp hrounds)) hq0
  | succ rounds ih =>
    obtain ⟨a, s, ha, heq, hlen⟩ := pseudoRemainder_spec (p := p) hq0 le_rfl
    simp only [primitiveGcd]
    generalize pseudoRemainder p.length p q = r at heq hlen ⊢
    split
    · rename_i hr
      rw [hr, toPoly_zero, add_zero] at heq
      have hdvd : q.toPoly ∣ p.toPoly :=
        dvd_of_dvd_C_mul hq ha (heq ▸ dvd_mul_left _ _)
      exact ⟨hdvd, dvd_rfl, fun _ _ h => h⟩
    · rename_i hr
      have hdvd_r {d : (Carrier R)[X]} (hdp : d ∣ p.toPoly) (hdq : d ∣ q.toPoly) :
          d ∣ r.toPoly := by
        have hsub : r.toPoly = C a * p.toPoly - s * q.toPoly := by rw [heq]; ring
        rw [hsub]
        exact dvd_sub (hdp.mul_left _) (hdq.mul_left _)
      split
      · rename_i hone
        refine ⟨by simp, by simp, fun d hdp hdq => ?_⟩
        have hdeg : d.natDegree = 0 := by
          have hle := natDegree_le_of_dvd (hdvd_r hdp hdq) (by rwa [Ne, toPoly_eq_zero])
          rw [length_eq hr] at hone
          omega
        rw [toPoly_one]
        exact (isUnit_of_natDegree_eq_zero hq hdq hdeg).dvd
      · obtain ⟨hpp0, hpplen⟩ := length_primitivePart hr
        have hpp := isPrimitive_primitivePart hr
        have hgcd := ih hq hpp hpp0 (by omega)
        have hcontent : embed r.content ≠ 0 := by
          rw [Ne, embed_eq_zero]
          exact content_ne_zero hr
        have hr_eq := C_content_mul_primitivePart hr
        refine ⟨?_, hgcd.dvd_left, fun d hdp hdq => ?_⟩
        · apply dvd_of_dvd_C_mul (isPrimitive_of_dvd hq hgcd.dvd_left) ha
          rw [heq, ← hr_eq]
          exact dvd_add (hgcd.dvd_left.mul_left _) (hgcd.dvd_right.mul_left _)
        · apply hgcd.greatest d hdq
          apply dvd_of_dvd_C_mul (isPrimitive_of_dvd hq hdq) hcontent
          rw [hr_eq]
          exact hdvd_r hdp hdq

/-- If two polynomials have constants in common only, the greatest common divisor of their
coefficients is theirs. -/
theorem isGcd_constant {p q : Dense R} {g : R}
    (hconst : ∀ d, d ∣ p.toPoly → d ∣ q.toPoly → d.natDegree = 0)
    (hg : IsGcd (embed p.content) (embed q.content) (embed g)) :
    IsGcd p.toPoly q.toPoly (constant g).toPoly := by
  rw [toPoly_constant]
  refine ⟨C_dvd_toPoly_iff.mpr hg.dvd_left, C_dvd_toPoly_iff.mpr hg.dvd_right, fun d hp hq => ?_⟩
  obtain ⟨c, rfl⟩ := natDegree_eq_zero.mp (hconst d hp hq)
  rw [C_dvd_toPoly_iff] at hp hq
  exact map_dvd C (hg.greatest c hp hq)

/-- A divisor of a polynomial with one coefficient is constant. -/
theorem natDegree_eq_zero_of_dvd {p : Dense R} (hp : p.length = 1) {d : (Carrier R)[X]}
    (h : d ∣ p.toPoly) : d.natDegree = 0 := by
  obtain ⟨a, ha, rfl⟩ := length_eq_one_iff.mp hp
  rw [toPoly_constant] at h
  have hne : C (embed a) ≠ 0 := by rwa [Ne, C_eq_zero, embed_eq_zero]
  have hle := natDegree_le_of_dvd h hne
  rwa [natDegree_C, Nat.le_zero] at hle

/-- Division alone finds the greatest common divisor of two polynomials other than zero. -/
theorem isGcd_divisionGcd {p q : Dense R} (hp : p ≠ 0) (hq : q ≠ 0) :
    IsGcd p.toPoly q.toPoly (divisionGcd p q).toPoly := by
  have hcontent := isGcd_gcd p.content q.content
  simp only [divisionGcd]
  split
  · rename_i hone
    refine isGcd_constant (fun d hdp hdq => ?_) hcontent
    rcases hone with hone | hone
    · exact natDegree_eq_zero_of_dvd hone hdp
    · exact natDegree_eq_zero_of_dvd hone hdq
  · have hpp := isPrimitive_primitivePart hp
    have hqq := isPrimitive_primitivePart hq
    obtain ⟨hqq0, hlen⟩ := length_primitivePart hq
    have hprim := isGcd_primitiveGcd hpp hqq hqq0 hlen.le
    have hmul := hcontent.C_mul hprim hpp hqq
      (by rw [Ne, embed_eq_zero]; exact content_ne_zero hp)
      (by rw [Ne, embed_eq_zero]; exact content_ne_zero hq)
    rw [C_content_mul_primitivePart hp, C_content_mul_primitivePart hq] at hmul
    rw [toPoly_scale]
    exact hmul

end Dense

end Shapeline
