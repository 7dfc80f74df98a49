import Mathlib.Data.Int.ModEq
import Shapeline.Proofs.Parameters
import Shapeline.Proofs.Term.Equivalence
import Shapeline.Rule

/-!
# Axes

A value stands for an integer if it is that integer or a term that has no other value. It selects an
axis of a shape if the integer counts one from the front or, below zero, from the end. The axis that
is made out is the same one counted from the front.
-/

namespace Shapeline

/-- The integer that a value stands for where an axis is wanted. -/
def Value.StandsFor : Value → ℤ → Prop
  | .int m, n => m = n
  | .dim t, n => t.Lowers ∧ ∀ ρ x, t.valueAt ρ = some x → x = n
  | _, _ => False

/-- A value selects an axis of a shape with the given number of axes. -/
def Value.Selects (v : Value) (rank : ℤ) : Prop := ∃ n, v.StandsFor n ∧ -rank ≤ n ∧ n < rank

/-- The place of an axis counted from the front. -/
def axisPosition (rank n : ℤ) : ℤ := if n < 0 then n + rank else n

variable {v : Value} {rank m n position : ℤ}

/-- A value stands for one integer at most. -/
theorem Value.StandsFor.unique (hm : v.StandsFor m) (hn : v.StandsFor n) : m = n := by
  cases v with
  | int k => exact (Eq.symm hm).trans hn
  | dim t =>
    obtain ⟨⟨ρ, x, hx⟩, hm⟩ := hm.imp_left Term.lowers_iff_exists_valueAt.mp
    exact_mod_cast (hm ρ x hx).symm.trans (hn.2 ρ x hx)
  | _ => exact hm.elim

/-- A value stands for what its term denotes. -/
theorem Value.StandsFor.eq_of_valueAt {t : Term} {ρ : Instantiation} {x : ℚ} (h : v.StandsFor n)
    (ht : v.toTerm? = some t) (hx : t.valueAt ρ = some x) : x = n := by
  cases v with
  | int m =>
    obtain rfl := Option.some.inj ht
    obtain rfl : m = n := h
    exact (Option.some.inj hx).symm
  | dim u =>
    obtain rfl := Option.some.inj ht
    exact h.2 ρ x hx
  | _ => cases ht

/-- An axis counted from the front lies in the shape exactly if the axis does. -/
theorem axisPosition_mem_iff :
    (0 ≤ axisPosition rank n ∧ axisPosition rank n < rank) ↔ -rank ≤ n ∧ n < rank := by
  unfold axisPosition
  split <;> omega

/-- Counting from the front does not change the axis modulo the number of axes. -/
theorem axisPosition_modEq (rank n : ℤ) : axisPosition rank n ≡ n [ZMOD rank] := by
  unfold axisPosition
  split
  · exact Int.add_modEq_right
  · rfl

/-- The axis of a value that stands for an integer is made out from the integer. -/
theorem resolveAxis_of_standsFor (h : v.StandsFor n) (rank : ℤ) :
    resolveAxis v rank =
      .ok (if 0 ≤ axisPosition rank n ∧ axisPosition rank n < rank
        then some (axisPosition rank n) else none) := by
  cases v with
  | int k =>
    obtain rfl : k = n := h
    rfl
  | dim t =>
    have hvalue : t.concreteValue = .ok (n : ℚ) := Term.concreteValue_eq_ok_iff.mpr h
    simp only [resolveAxis, Term.isConcrete_of_concreteValue hvalue, hvalue, bind, Except.bind,
      pure, Except.pure, Rat.den_intCast, Rat.num_intCast, if_true]
    rfl
  | _ => exact h.elim

/-- A value that stands for no integer selects no axis. -/
theorem resolveAxis_of_not_standsFor (h : ∀ n, ¬ v.StandsFor n) (hv : v.TermsSatisfy Term.Lowers)
    (rank : ℤ) : resolveAxis v rank = .ok none := by
  cases v with
  | int k => exact absurd rfl (h k)
  | dim t =>
    have hlow : t.Lowers := hv t rfl
    by_cases hconstant : ∃ q : ℚ, ∀ ρ x, t.valueAt ρ = some x → x = q
    · obtain ⟨q, hq⟩ := hconstant
      have hvalue := Term.concreteValue_eq_ok_iff.mpr ⟨hlow, hq⟩
      have hden : q.den ≠ 1 := fun hden => h q.num
        ⟨hlow, fun ρ x hx => (hq ρ x hx).trans (Rat.den_eq_one_iff q |>.mp hden).symm⟩
      simp [resolveAxis, Term.isConcrete_of_concreteValue hvalue, hvalue, hden, bind, Except.bind,
        pure, Except.pure]
    · have hconcrete : t.isConcrete = .ok false :=
        Term.isConcrete_eq_ok_iff.mpr ⟨hlow, iff_of_false Bool.false_ne_true hconstant⟩
      simp [resolveAxis, hconcrete, bind, Except.bind, pure, Except.pure]
  | _ => rfl

/-- The terms of a value whose axis can be made out lower. -/
theorem lowers_of_resolveAxis {selected : Option ℤ} (h : resolveAxis v rank = .ok selected) :
    v.TermsSatisfy Term.Lowers := by
  intro t ht
  cases v with
  | int k => exact Option.some.inj ht ▸ ⟨_, rfl⟩
  | dim u =>
    cases hconcrete : u.isConcrete with
    | ok concrete => exact Option.some.inj ht ▸ (Term.isConcrete_eq_ok_iff.mp hconcrete).1
    | error e => simp [resolveAxis, hconcrete, bind, Except.bind] at h
  | _ => cases ht

/-- The axis that is made out is the one that the value selects, counted from the front. -/
theorem resolveAxis_eq_some_iff :
    resolveAxis v rank = .ok (some position) ↔
      ∃ n, v.StandsFor n ∧ -rank ≤ n ∧ n < rank ∧ position = axisPosition rank n := by
  constructor
  · intro h
    by_cases hstands : ∃ n, v.StandsFor n
    · obtain ⟨n, hn⟩ := hstands
      have hposition := Except.ok.inj ((resolveAxis_of_standsFor hn rank).symm.trans h)
      obtain ⟨hmem, hposition⟩ := Option.ite_none_right_eq_some.mp hposition
      obtain ⟨hlow, hhigh⟩ := axisPosition_mem_iff.mp hmem
      exact ⟨n, hn, hlow, hhigh, (Option.some.inj hposition).symm⟩
    · have hnone := resolveAxis_of_not_standsFor (not_exists.mp hstands) (lowers_of_resolveAxis h)
      cases (hnone rank).symm.trans h
  · rintro ⟨n, hn, hlow, hhigh, rfl⟩
    rw [resolveAxis_of_standsFor hn, if_pos (axisPosition_mem_iff.mpr ⟨hlow, hhigh⟩)]

/-- No axis is made out exactly if the value selects none. -/
theorem resolveAxis_eq_none_iff (hv : v.TermsSatisfy Term.Lowers) :
    resolveAxis v rank = .ok none ↔ ¬ v.Selects rank := by
  by_cases hstands : ∃ n, v.StandsFor n
  · obtain ⟨n, hn⟩ := hstands
    have hselects : v.Selects rank ↔ -rank ≤ n ∧ n < rank :=
      ⟨fun ⟨m, hm, hrange⟩ => hm.unique hn ▸ hrange, fun hrange => ⟨n, hn, hrange⟩⟩
    rw [resolveAxis_of_standsFor hn, hselects, ← axisPosition_mem_iff, Except.ok.injEq]
    simp
  · have hnone : ¬ v.Selects rank := fun ⟨n, hn, _⟩ => hstands ⟨n, hn⟩
    exact iff_of_true (resolveAxis_of_not_standsFor (not_exists.mp hstands) hv rank) hnone

/-- A value selects an axis or it does not, and either is made out. -/
theorem resolveAxis_cases (hv : v.TermsSatisfy Term.Lowers) (rank : ℤ) :
    (v.Selects rank ∧ ∃ position, resolveAxis v rank = .ok (some position)) ∨
      ¬ v.Selects rank ∧ resolveAxis v rank = .ok none := by
  by_cases hselects : v.Selects rank
  · obtain ⟨n, hn, hlow, hhigh⟩ := hselects
    exact Or.inl ⟨⟨n, hn, hlow, hhigh⟩, _, resolveAxis_eq_some_iff.mpr ⟨n, hn, hlow, hhigh, rfl⟩⟩
  · exact Or.inr ⟨hselects, (resolveAxis_eq_none_iff hv).mpr hselects⟩

end Shapeline
