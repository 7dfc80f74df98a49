import Mathlib.Tactic.NormNum
import Shapeline.Proofs.Outcome
import Shapeline.Proofs.Term.Meaning

/-!
# Deciding equivalence

The tests on terms decide what the terms mean. A term that lowers is found to be zero exactly if it
vanishes and to be a number exactly if it has no other value, an operator lowers exactly if its
operands do and its divisor does not vanish, and two terms that lower are found equivalent exactly
if they have equal values wherever both have values.
-/

namespace Shapeline

namespace Term

variable {a b left right t : Term} {o : Operator}

/-- Whether a term that lowers vanishes is decided. -/
theorem isZero_eq_ok_iff {r : Bool} :
    t.isZero = .ok r ↔ t.Lowers ∧ (r = true ↔ t.Vanishes) := by
  cases hf : t.normalForm with
  | error e => simp [isZero, Lowers, hf, bind, Except.bind]
  | ok f =>
    have hlow : t.Lowers := ⟨f, hf⟩
    rw [vanishes_iff_isZero (fun _ h => h) hf, isZero, hf]
    simp only [bind, Except.bind, pure, Except.pure, Except.ok.injEq, hlow, true_and]
    cases f.isZero <;> cases r <;> simp

/-- A term is found not to be the zero function if it lowers and does not vanish. -/
theorem isZero_eq_false_iff : t.isZero = .ok false ↔ t.Lowers ∧ ¬ t.Vanishes := by
  simp [isZero_eq_ok_iff]

/-- A term that is found to be a number is found to be constant. -/
theorem isConcrete_of_concreteValue {x : ℚ} (h : t.concreteValue = .ok x) :
    t.isConcrete = .ok true := by
  obtain ⟨f, hf, h⟩ := bind_eq_ok_iff.mp h
  refine bind_eq_ok_iff.mpr ⟨f, hf, ?_⟩
  cases hconstant : f.constant? with
  | none =>
    rw [hconstant] at h
    cases h
  | some y => rfl

/-- A number as a term. -/
def ofRat (q : ℚ) : Term := op .div (const q.num) (const q.den)

/-- The term has the value of the number. -/
theorem valueAt_ofRat (ρ : Instantiation) (q : ℚ) : (ofRat q).valueAt ρ = some q := by
  have hden : ((q.den : ℤ) : ℚ) ≠ 0 := Int.cast_ne_zero.mpr (Int.natCast_ne_zero.mpr q.den_ne_zero)
  refine valueAt_op_eq_some_iff.mpr ⟨q.num, (q.den : ℤ), rfl, rfl, ?_⟩
  rw [Operator.onNumbers, if_neg hden, Int.cast_natCast, Rat.num_div_den]

/-- A term agrees with a number if it has no other value. -/
theorem agrees_ofRat_iff {q : ℚ} :
    t.Agrees (ofRat q) ↔ ∀ ρ x, t.valueAt ρ = some x → x = q := by
  refine ⟨fun h ρ x hx => h ρ x q hx (valueAt_ofRat ρ q), fun h ρ x y hx hy => ?_⟩
  rw [valueAt_ofRat, Option.some_inj] at hy
  rw [h ρ x hx, hy]

/-- The fraction of a number is the quotient of its numerator and its denominator. -/
theorem fraction_ofRat (names : List String) (q : ℚ) :
    ∃ f, (ofRat q).fraction names = .ok f ∧
      f.toField =
        (Fraction.ofInt names.length q.num).toField / (Fraction.ofInt _ q.den).toField := by
  have hzero : (Fraction.ofInt names.length q.den).isZero = false := by
    rw [Fraction.isZero, decide_eq_false_iff_not, Fraction.ofInt, ← Poly.ofInt_zero, Poly.ofInt_inj]
    exact Int.natCast_ne_zero.mpr q.den_ne_zero
  exact ⟨_, fraction_op_eq_ok_iff.mpr ⟨_, _, rfl, rfl, fun _ => hzero, rfl⟩,
    (Fraction.toField_div LawfulGcdRing.one_ne_zero' hzero).1⟩

/-- The normal form of a term is a number exactly if the term has no other value. -/
theorem constant?_normalForm {f : Fraction t.symbols.length} (hf : t.normalForm = .ok f) {q : ℚ} :
    f.constant? = some q ↔ ∀ ρ x, t.valueAt ρ = some x → x = q := by
  obtain ⟨g, hg, hfield⟩ := fraction_ofRat t.symbols q
  have hsymbols : ∀ name ∈ (ofRat q).symbols, name ∈ t.symbols := by
    simp [ofRat, symbols, Names.union]
  rw [(fraction_reduced (fun _ h => h) hf).constant?_eq_some_iff, ← hfield, ← agrees_ofRat_iff,
    agrees_iff_toField_eq (fun _ h => h) hsymbols hf hg]

/-- A term is found to be a number exactly if it lowers and has no other value. -/
theorem concreteValue_eq_ok_iff {q : ℚ} :
    t.concreteValue = .ok q ↔ t.Lowers ∧ ∀ ρ x, t.valueAt ρ = some x → x = q := by
  cases hf : t.normalForm with
  | error e => simp [concreteValue, Lowers, hf, bind, Except.bind]
  | ok f =>
    have hlow : t.Lowers := ⟨f, hf⟩
    rw [← constant?_normalForm hf, concreteValue, hf]
    cases hvalue : f.constant? <;>
      simp [hlow, hvalue, bind, Except.bind, pure, Except.pure, throw, throwThe,
        MonadExceptOf.throw]

/-- Whether a term that lowers has one value only is decided. -/
theorem isConcrete_eq_ok_iff {r : Bool} :
    t.isConcrete = .ok r ↔
      t.Lowers ∧ (r = true ↔ ∃ q, ∀ ρ x, t.valueAt ρ = some x → x = q) := by
  cases hf : t.normalForm with
  | error e => simp [isConcrete, Lowers, hf, bind, Except.bind]
  | ok f =>
    have hlow : t.Lowers := ⟨f, hf⟩
    simp only [← constant?_normalForm hf, ← Option.isSome_iff_exists]
    rw [isConcrete, hf]
    cases hvalue : f.constant? <;> cases r <;>
      simp [hlow, hvalue, bind, Except.bind, pure, Except.pure]

/-- A term that is found to be constant is found to be a number. -/
theorem exists_concreteValue (h : t.isConcrete = .ok true) : ∃ q, t.concreteValue = .ok q := by
  obtain ⟨hlow, hvalue⟩ := isConcrete_eq_ok_iff.mp h
  obtain ⟨q, hq⟩ := hvalue.mp rfl
  exact ⟨q, concreteValue_eq_ok_iff.mpr ⟨hlow, hq⟩⟩

/-- A term that vanishes is found to be the constant zero. -/
theorem Vanishes.concreteValue_eq (hlow : t.Lowers) (h : t.Vanishes) :
    t.isConcrete = .ok true ∧ t.concreteValue = .ok 0 :=
  ⟨isConcrete_eq_ok_iff.mpr ⟨hlow, iff_of_true rfl ⟨0, h⟩⟩, concreteValue_eq_ok_iff.mpr ⟨hlow, h⟩⟩

/-- Terms that agree are found to be the same number. -/
theorem Agrees.concreteValue_eq {q : ℚ} (h : a.Agrees b) (hb : b.Lowers)
    (ha : a.concreteValue = .ok q) : b.concreteValue = .ok q := by
  obtain ⟨hlow, hvalue⟩ := concreteValue_eq_ok_iff.mp ha
  exact concreteValue_eq_ok_iff.mpr
    ⟨hb, agrees_ofRat_iff.mp (h.symm.trans hlow (agrees_ofRat_iff.mpr hvalue))⟩

/-- Terms that agree are found to be constant together. -/
theorem Agrees.isConcrete_eq {r : Bool} (h : a.Agrees b) (hb : b.Lowers)
    (ha : a.isConcrete = .ok r) : b.isConcrete = .ok r := by
  obtain ⟨hlow, hvalue⟩ := isConcrete_eq_ok_iff.mp ha
  refine isConcrete_eq_ok_iff.mpr ⟨hb, hvalue.trans (exists_congr fun q => ?_)⟩
  rw [← agrees_ofRat_iff, ← agrees_ofRat_iff]
  exact ⟨h.symm.trans hlow, h.trans hb⟩

/-- An operator lowers if its operands do and the divisor does not vanish. -/
theorem lowers_op_iff :
    (op o left right).Lowers ↔
      left.Lowers ∧ right.Lowers ∧ (o = .div → ¬ right.Vanishes) := by
  constructor
  · intro h
    obtain ⟨ρ, z, hz⟩ := lowers_iff_exists_valueAt.mp h
    obtain ⟨x, y, hx, hy, hop⟩ := valueAt_op_eq_some_iff.mp hz
    refine ⟨lowers_of_valueAt hx, lowers_of_valueAt hy, fun ho hvanish => ?_⟩
    exact Operator.onNumbers_isSome_iff.mp (by rw [hop]; rfl) ho (hvanish ρ y hy)
  · rintro ⟨hl, hr, hzero⟩
    let names := (op o left right).symbols
    have hnl (name : String) (h : name ∈ left.symbols) : name ∈ names :=
      Names.mem_union.mpr (Or.inl h)
    have hnr (name : String) (h : name ∈ right.symbols) : name ∈ names :=
      Names.mem_union.mpr (Or.inr h)
    obtain ⟨f, hf⟩ := hl.exists_fraction hnl
    obtain ⟨g, hg⟩ := hr.exists_fraction hnr
    refine ⟨_, fraction_op_eq_ok_iff.mpr ⟨f, g, hf, hg, fun ho => ?_, rfl⟩⟩
    rw [← Bool.not_eq_true, ← vanishes_iff_isZero hnr hg]
    exact hzero ho

/-- A quotient exists if the divisor lowers and does not vanish. -/
theorem divide_eq_ok_iff :
    left.divide right = .ok t ↔ right.Lowers ∧ ¬ right.Vanishes ∧ t = op .div left right := by
  rw [← and_assoc, ← isZero_eq_false_iff]
  cases hzero : right.isZero with
  | error e => simp [divide, hzero, bind, Except.bind]
  | ok r => cases r <;> simp [divide, hzero, bind, Except.bind, pure, Except.pure, throw,
      throwThe, MonadExceptOf.throw, @eq_comm _ t]

/-- An operator with a checked divisor exists if it is no division or the divisor lowers and does
not vanish. -/
theorem apply_eq_ok_iff :
    apply o left right = .ok t ↔
      (o = .div → right.Lowers ∧ ¬ right.Vanishes) ∧ t = op o left right := by
  cases o with
  | div => simp [apply, divide_eq_ok_iff, and_assoc]
  | _ => simp [apply, pure, Except.pure, @eq_comm _ t]

/-- An operator with a checked divisor lowers if its operands do. -/
theorem Lowers.apply (hl : left.Lowers) (hr : right.Lowers) (h : apply o left right = .ok t) :
    t.Lowers := by
  obtain ⟨hdiv, rfl⟩ := apply_eq_ok_iff.mp h
  exact lowers_op_iff.mpr ⟨hl, hr, fun ho => (hdiv ho).2⟩

/-- Whether two terms that lower agree is decided. -/
theorem equivalent_eq_ok_iff (ha : a.Lowers) (hb : b.Lowers) {r : Bool} :
    a.equivalent b = .ok r ↔ (r = true ↔ a.Agrees b) := by
  by_cases hab : a = b
  · subst hab
    simp [equivalent, pure, Except.pure, Agrees.refl a, eq_comm]
  · have hna (name : String) (h : name ∈ a.symbols) : name ∈ Names.union a.symbols b.symbols :=
      Names.mem_union.mpr (Or.inl h)
    have hnb (name : String) (h : name ∈ b.symbols) : name ∈ Names.union a.symbols b.symbols :=
      Names.mem_union.mpr (Or.inr h)
    obtain ⟨f, hf⟩ := ha.exists_fraction hna
    obtain ⟨g, hg⟩ := hb.exists_fraction hnb
    obtain ⟨hsub, hden⟩ := Fraction.toField_sub (fraction_denotes hna hf).den_ne_zero
      (fraction_denotes hnb hg).den_ne_zero
    have hiff : (f - g).isZero = true ↔ a.Agrees b := by
      rw [Fraction.isZero_eq_true_iff hden, hsub, sub_eq_zero,
        agrees_iff_toField_eq hna hnb hf hg]
    rw [← hiff, equivalent, if_neg hab]
    simp only [hf, hg, bind, Except.bind, pure, Except.pure, Except.ok.injEq]
    cases (f - g).isZero <;> cases r <;> simp

/-- Terms that are found equivalent agree, whether or not they lower. -/
theorem agrees_of_equivalent (h : a.equivalent b = .ok true) : a.Agrees b := by
  by_cases hab : a = b
  · subst hab
    exact Agrees.refl a
  · have hlow : a.Lowers ∧ b.Lowers := by
      rw [equivalent, if_neg hab] at h
      simp only [bind, Except.bind] at h
      split at h
      · cases h
      · rename_i f hf
        split at h
        · cases h
        · rename_i g hg
          have hna (name : String) (h : name ∈ a.symbols) :
              name ∈ Names.union a.symbols b.symbols := Names.mem_union.mpr (Or.inl h)
          have hnb (name : String) (h : name ∈ b.symbols) :
              name ∈ Names.union a.symbols b.symbols := Names.mem_union.mpr (Or.inr h)
          exact ⟨lowers_iff_exists_valueAt.mpr ((exists_fraction_iff hna).mp ⟨f, hf⟩),
            lowers_iff_exists_valueAt.mpr ((exists_fraction_iff hnb).mp ⟨g, hg⟩)⟩
    exact (equivalent_eq_ok_iff hlow.1 hlow.2).mp h |>.mp rfl

/-- Which of two terms that are found equivalent is the first does not matter. -/
theorem equivalent_symm (h : a.equivalent b = .ok true) : b.equivalent a = .ok true := by
  by_cases hab : a = b
  · exact hab ▸ h
  have hagrees := agrees_of_equivalent h
  rw [equivalent, if_neg hab] at h
  obtain ⟨l, hl, h⟩ := bind_eq_ok_iff.mp h
  obtain ⟨r, hr, -⟩ := bind_eq_ok_iff.mp h
  have hlowa := lowers_iff_exists_valueAt.mpr ((exists_fraction_iff fun name hname =>
    Names.mem_union.mpr (Or.inl hname)).mp ⟨l, hl⟩)
  have hlowb := lowers_iff_exists_valueAt.mpr ((exists_fraction_iff fun name hname =>
    Names.mem_union.mpr (Or.inr hname)).mp ⟨r, hr⟩)
  exact (equivalent_eq_ok_iff hlowb hlowa).mpr (iff_of_true rfl hagrees.symm)

/-- **Equivalence is equality of rational functions.** For terms that lower the test has an answer,
and the answer is yes if and only if the terms have equal values under every choice of rational
numbers for the symbols at which both have a value. -/
theorem equivalent_iff_equal_values (ha : a.Lowers) (hb : b.Lowers) :
    (∃ r, a.equivalent b = .ok r) ∧
      (a.equivalent b = .ok true ↔ ∀ (ρ : String → ℚ) (x y : ℚ),
        a.valueAt (.total ρ) = some x → b.valueAt (.total ρ) = some y → x = y) := by
  constructor
  · by_cases h : a.Agrees b
    · exact ⟨true, (equivalent_eq_ok_iff ha hb).mpr (by simp [h])⟩
    · exact ⟨false, (equivalent_eq_ok_iff ha hb).mpr (by simp [h])⟩
  · rw [equivalent_eq_ok_iff ha hb, agrees_iff_total]
    simp

/-- Terms can be equivalent without having values at the same places: `(H * H - 1) / (H - 1)` has
none where `H` is one. -/
theorem cancelled_quotient_equivalent :
    let a := op .div (op .sub (op .mul (sym "H") (sym "H")) (const 1)) (op .sub (sym "H") (const 1))
    let b := op .add (sym "H") (const 1)
    a.Lowers ∧ b.Lowers ∧ a.equivalent b = .ok true := by
  intro a b
  have ha : a.Lowers := lowers_of_valueAt (ρ := .total fun _ => 2) (x := 3)
    (by norm_num [a, valueAt, Operator.onNumbers, Instantiation.total])
  have hb : b.Lowers := lowers_of_valueAt (ρ := .total fun _ => 2) (x := 3)
    (by norm_num [b, valueAt, Operator.onNumbers, Instantiation.total])
  refine ⟨ha, hb, (equivalent_iff_equal_values ha hb).2.mpr fun ρ x y hx hy => ?_⟩
  simp only [a, valueAt, Operator.onNumbers, Instantiation.total, bind, Option.bind_some,
    Option.ite_none_left_eq_some, Option.some.injEq, Int.cast_one] at hx
  simp only [b, valueAt, Operator.onNumbers, Instantiation.total, bind, Option.bind_some,
    Option.some.injEq, Int.cast_one] at hy
  obtain ⟨hne, rfl⟩ := hx
  rw [← hy, div_eq_iff hne]
  ring

end Term

end Shapeline
