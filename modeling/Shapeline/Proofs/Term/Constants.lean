import Shapeline.Proofs.Term.Comparison
import Shapeline.Proofs.Term.NormalForm

/-!
# Constants

A term is constant if it has one value wherever it has any, whatever symbols are written in it.
Cancelling removes all of them, in however many variables: the normal form of such a term is the
number in lowest terms. Under a substitution a term may become constant that is none as it stands.
-/

namespace Shapeline.Term

open MvPolynomial

variable {t u : Term} {σ : Substitution} {q : ℚ}

/-- A number in lowest terms as a fraction without symbols. -/
def NamedFraction.ofNumber (q : ℚ) : NamedFraction :=
  ⟨if q = 0 then [] else [⟨q.num, []⟩], [⟨q.den, []⟩]⟩

/-- An integer is a polynomial without symbols. -/
theorem polynomialOf_integer (c : ℤ) : polynomialOf [⟨c, []⟩] = C c := by
  rw [polynomialOf, List.map_singleton, List.sum_singleton]
  rfl

/-- An integer other than zero is written as it is. -/
theorem writtenOut_integer {c : ℤ} (hc : c ≠ 0) : WrittenOut [⟨c, []⟩] where
  descending := List.pairwise_singleton _ _
  coefficient_ne_zero := List.forall_mem_singleton.mpr hc
  tidy := List.forall_mem_singleton.mpr ⟨List.Pairwise.nil, List.forall_mem_nil _⟩

namespace NamedFraction

/-- The numerator of a number. -/
theorem polynomialOf_num_ofNumber (q : ℚ) : polynomialOf (ofNumber q).num = C q.num := by
  unfold ofNumber
  split
  · rename_i hzero
    rw [hzero, Rat.num_zero, map_zero]
    rfl
  · exact polynomialOf_integer q.num

/-- The denominator of a number. -/
theorem polynomialOf_den_ofNumber (q : ℚ) : polynomialOf (ofNumber q).den = C (q.den : ℤ) :=
  polynomialOf_integer q.den

/-- The values of the numerator and the denominator make up the number. -/
theorem aeval_ofNumber (q : ℚ) (ρ : String → ℚ) :
    aeval ρ (polynomialOf (ofNumber q).num) / aeval ρ (polynomialOf (ofNumber q).den) = q := by
  rw [polynomialOf_num_ofNumber, polynomialOf_den_ofNumber, aeval_C, aeval_C]
  exact q.num_div_den

/-- The denominator of a number is nowhere zero. -/
theorem aeval_den_ofNumber_ne_zero (q : ℚ) (ρ : String → ℚ) :
    aeval ρ (polynomialOf (ofNumber q).den) ≠ 0 := by
  rw [polynomialOf_den_ofNumber, aeval_C]
  exact Int.cast_ne_zero.mpr (Int.natCast_ne_zero.mpr q.den_ne_zero)

/-- A number in lowest terms is a normal form of itself. -/
theorem ofNumber_normalizes (q : ℚ) : (ofNumber q).Normalizes (ofRat q) where
  num_writtenOut := by
    unfold ofNumber
    split
    · exact ⟨List.Pairwise.nil, List.forall_mem_nil _, List.forall_mem_nil _⟩
    · rename_i hzero
      exact writtenOut_integer (Rat.num_ne_zero.mpr hzero)
  den_writtenOut := writtenOut_integer (Int.natCast_ne_zero.mpr q.den_ne_zero)
  den_ne_zero hzero := aeval_den_ofNumber_ne_zero q 0 (by rw [hzero, map_zero])
  coprime := by
    rw [polynomialOf_num_ofNumber, polynomialOf_den_ofNumber]
    have hcoprime : IsCoprime q.num (q.den : ℤ) := Int.isCoprime_iff_gcd_eq_one.mpr q.reduced
    exact (hcoprime.map C).isRelPrime
  positive m hm := by
    obtain rfl := Option.some.inj hm
    exact Int.natCast_pos.mpr q.den_pos
  value_eq ρ x hx _ := by
    rw [valueAt_ofRat, Option.some_inj] at hx
    rw [aeval_ofNumber, hx]

/-- A number in lowest terms represents itself. -/
theorem ofNumber_represents (q : ℚ) : (ofRat q).Represents (polynomialOf (ofNumber q).num)
    (polynomialOf (ofNumber q).den) where
  den_ne_zero := (ofNumber_normalizes q).den_ne_zero
  takesValue ρ x hx := by
    rw [valueAt_ofRat, Option.some_inj] at hx
    exact ⟨_, _, aeval_den_ofNumber_ne_zero q ρ, rfl, by rw [aeval_ofNumber, hx]⟩
  generic := ⟨1, one_ne_zero, fun ρ _ => ⟨q, valueAt_ofRat _ q⟩⟩

end NamedFraction

/-- In the normal form of a constant no symbol is left. -/
theorem concreteValue_eq_ok_iff_writtenForm :
    t.concreteValue = .ok q ↔ t.writtenForm = .ok (.ofNumber q) := by
  have hiff (hlow : t.Lowers) :
      (∀ ρ x, t.valueAt ρ = some x → x = q) ↔ t.writtenForm = .ok (.ofNumber q) := by
    obtain ⟨f, hf, hnormal, hrepresents⟩ := hlow.exists_writtenForm
    rw [← agrees_ofRat_iff, hf, Except.ok.injEq, eq_iff_agrees hnormal
      (NamedFraction.ofNumber_normalizes q) hrepresents (NamedFraction.ofNumber_represents q)]
  rw [concreteValue_eq_ok_iff]
  constructor
  · exact fun ⟨hlow, hvalue⟩ => (hiff hlow).mp hvalue
  · intro hwritten
    obtain ⟨f, hf, -⟩ := bind_eq_ok_iff.mp hwritten
    exact ⟨⟨f, hf⟩, (hiff ⟨f, hf⟩).mpr hwritten⟩

/-- A term that lowers has one value at most exactly if its values are the same wherever all symbols
have numbers. -/
theorem Lowers.exists_value_iff (ht : t.Lowers) :
    (∃ q, ∀ ρ x, t.valueAt ρ = some x → x = q) ↔
      ∀ (ρ θ : String → ℚ) (x y : ℚ),
        t.valueAt (.total ρ) = some x → t.valueAt (.total θ) = some y → x = y := by
  constructor
  · rintro ⟨q, hq⟩ ρ θ x y hx hy
    rw [hq _ x hx, hq _ y hy]
  · intro h
    obtain ⟨θ, q, hq⟩ := lowers_iff_exists_valueAt.mp ht
    exact ⟨q, fun ρ x hx => h _ _ x q (valueAt_total hx) (valueAt_total hq)⟩

/-- A term that is not constant has no number. -/
theorem concreteValue_of_isConcrete (h : t.isConcrete = .ok false) :
    t.concreteValue = .error .notConstant := by
  obtain ⟨f, hf, h⟩ := bind_eq_ok_iff.mp h
  have hnone : f.constant? = none := by simpa using pure_eq_ok_iff.mp h
  simp only [concreteValue, hf, bind, Except.bind, hnone]
  rfl

/-- **Constants are recognised exactly.** A term that lowers is found to be constant if and only if
it has the same value at all numbers for its symbols at which it has any. Then it is found to be
that value, an integer or a fraction in lowest terms, which is what is left of it as its normal
form. Otherwise it is found to be no number. -/
theorem constants_recognised (ht : t.Lowers) :
    (t.isConcrete = .ok true ↔ ∀ (ρ θ : String → ℚ) (x y : ℚ),
      t.valueAt (.total ρ) = some x → t.valueAt (.total θ) = some y → x = y) ∧
    (t.isConcrete = .ok true → ∃ q, t.concreteValue = .ok q ∧
      (∀ (ρ : String → ℚ) (x : ℚ), t.valueAt (.total ρ) = some x → x = q) ∧
      (∃ ρ : String → ℚ, t.valueAt (.total ρ) = some q) ∧
      t.writtenForm = .ok (.ofNumber q) ∧ q.num.natAbs.Coprime q.den ∧
      (q.den = 1 ↔ ∃ n : ℤ, q = n)) ∧
    (t.isConcrete ≠ .ok true →
      t.isConcrete = .ok false ∧ t.concreteValue = .error .notConstant) := by
  have htrue : t.isConcrete = .ok true ↔ ∃ q, ∀ ρ x, t.valueAt ρ = some x → x = q := by
    simp [isConcrete_eq_ok_iff, ht]
  refine ⟨htrue.trans ht.exists_value_iff, fun hconcrete => ?_, fun hnot => ?_⟩
  · obtain ⟨q, hq⟩ := exists_concreteValue hconcrete
    obtain ⟨-, hvalue⟩ := concreteValue_eq_ok_iff.mp hq
    obtain ⟨ρ, x, hx⟩ := lowers_iff_exists_valueAt.mp ht
    refine ⟨q, hq, fun ρ x => hvalue _ x, ⟨_, hvalue ρ x hx ▸ valueAt_total hx⟩,
      concreteValue_eq_ok_iff_writtenForm.mp hq, q.reduced, fun hden => ⟨q.num, ?_⟩, ?_⟩
    · exact ((Rat.den_eq_one_iff q).mp hden).symm
    · rintro ⟨n, rfl⟩
      exact Rat.den_intCast n
  · have hfalse : t.isConcrete = .ok false :=
      isConcrete_eq_ok_iff.mpr ⟨ht, iff_of_false Bool.false_ne_true (mt htrue.mpr hnot)⟩
    exact ⟨hfalse, concreteValue_of_isConcrete hfalse⟩

/-- The term `(H * H - 1) / (H - 1) - H` is the number one, though `H` is written in it. -/
theorem cancelled_constant_recognised :
    let t := op .sub (op .div (op .sub (op .mul (sym "H") (sym "H")) (const 1))
      (op .sub (sym "H") (const 1))) (sym "H")
    t.Lowers ∧ t.isConcrete = .ok true ∧ t.concreteValue = .ok 1 ∧
      (∀ (ρ : String → ℚ) (x : ℚ), t.valueAt (.total ρ) = some x → x = 1) ∧
      t.writtenForm = .ok (.ofNumber 1) := by
  intro t
  have ht : t.Lowers := by decide +kernel
  have hone : t.concreteValue.toOption = some 1 := by decide +kernel
  rw [toOption_eq_some_iff] at hone
  have hconcrete := isConcrete_of_concreteValue hone
  obtain ⟨q, hq, hvalue, -, hwritten, -⟩ := (constants_recognised ht).2.1 hconcrete
  obtain rfl := Except.ok.inj (hone.symm.trans hq)
  exact ⟨ht, hconcrete, hone, hvalue, hwritten⟩

/-- Under a substitution a term has no other value than a number. -/
def ConstantUnder (σ : Substitution) (t : Term) (q : ℚ) : Prop :=
  ∀ (ρ : Instantiation) (x : ℚ), t.valueAt (ρ.under σ) = some x → x = q

/-- A term that has a value under a substitution is constant with one number at most. -/
theorem ConstantUnder.unique {q' : ℚ} (h : t.ConstantUnder σ q) (h' : t.ConstantUnder σ q')
    (ht : t.DefinedUnder σ) : q = q' := by
  obtain ⟨ρ, x, hx⟩ := ht
  rw [← h ρ x hx, ← h' ρ x hx]

/-- Once symbols are replaced in a term, either it is found to be the number that it is under the
substitution, or it is found not to be constant. -/
theorem DefinedUnder.exists_constant (ht : t.DefinedUnder σ) :
    ∃ u, t.substitute σ = .ok u ∧
      ((∃ q, t.ConstantUnder σ q ∧ u.isConcrete = .ok true ∧ u.concreteValue = .ok q) ∨
        (∀ q, ¬ t.ConstantUnder σ q) ∧ u.isConcrete = .ok false) := by
  obtain ⟨u, hu, hlow⟩ := ht.exists_substitute
  have hconstant (q : ℚ) : (∀ ρ x, u.valueAt ρ = some x → x = q) ↔ t.ConstantUnder σ q := by
    simp only [ConstantUnder, valueAt_of_substitute hu]
  refine ⟨u, hu, ?_⟩
  by_cases h : ∃ q, t.ConstantUnder σ q
  · obtain ⟨q, hq⟩ := h
    have hvalue := concreteValue_eq_ok_iff.mpr ⟨hlow, (hconstant q).mpr hq⟩
    exact Or.inl ⟨q, hq, isConcrete_of_concreteValue hvalue, hvalue⟩
  · refine Or.inr ⟨not_exists.mp h, isConcrete_eq_ok_iff.mpr ⟨hlow, ?_⟩⟩
    simp only [hconstant]
    exact iff_of_false Bool.false_ne_true h

end Shapeline.Term
