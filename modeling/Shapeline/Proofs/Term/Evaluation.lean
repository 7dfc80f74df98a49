import Shapeline.Proofs.Divisors
import Shapeline.Proofs.Term.NormalForm

/-!
# Exact evaluation

Evaluation never walks a term with numbers: it replaces the symbols and reads a number off the normal
form of what is left. The answer is still the one of arithmetic on the tree, node by node, because a
substituted term has one value at most, whatever the numbers of further symbols are. A divisor that
is zero at the given numbers is found too, by the substitution if a symbol is replaced in the
quotient and by the normal form otherwise.
-/

namespace Shapeline

/-- The numbers of the names that have an integer. -/
def Instantiation.ofIntegers (numbers : Dictionary ℤ) : Instantiation := fun name =>
  (numbers.get? name).map fun n : ℤ => (n : ℚ)

/-- The replacement of names by integers. -/
def Substitution.ofIntegers (numbers : Dictionary ℤ) : Substitution :=
  .ofTerms (numbers.map fun _ n => .const n)

namespace Term

variable {numbers : Dictionary ℤ} {ρ : Instantiation} {t u : Term} {name : String} {q : ℚ}

/-- What replaces a name that has an integer. -/
theorem ofIntegers_eq :
    Substitution.ofIntegers numbers name = (numbers.get? name).map fun n => .ok (const n) := by
  rw [Substitution.ofIntegers, Substitution.ofTerms, Dictionary.get?_map, Option.map_map]
  rfl

/-- A name is replaced if it has an integer. -/
theorem isSome_ofIntegers :
    (Substitution.ofIntegers numbers name).isSome = numbers.contains name := by
  rw [ofIntegers_eq, Option.isSome_map, Bool.eq_iff_iff, Dictionary.contains_iff,
    Option.isSome_iff_exists]

/-- If all symbols of a term have integers, the numbers of other symbols do not matter. -/
theorem valueAt_under_ofIntegers (hbound : ∀ name ∈ t.symbols, numbers.contains name = true) :
    t.valueAt (ρ.under (.ofIntegers numbers)) = t.valueAt (.ofIntegers numbers) := by
  refine valueAt_congr fun name hname => ?_
  obtain ⟨n, hn⟩ := Dictionary.contains_iff.mp (hbound name hname)
  simp [Instantiation.under, Instantiation.ofIntegers, ofIntegers_eq, hn, valueAt]

/-- Replacing all symbols by integers raises an arithmetic diagnostic or leaves a term that has the
same value everywhere, if it has one. -/
theorem guarded_substitute_ofIntegers (hbound : ∀ name ∈ t.symbols, numbers.contains name = true) :
    Guarded (fun u => ∀ ρ, u.valueAt ρ = t.valueAt (.ofIntegers numbers))
      (t.substitute (.ofIntegers numbers)) := by
  have hterms (name : String) (r : Outcome Term)
      (hr : Substitution.ofIntegers numbers name = some r) : ∃ u, r = .ok u := by
    obtain ⟨u, _, rfl⟩ := Substitution.ofTerms_eq_some_iff.mp hr
    exact ⟨u, rfl⟩
  refine .of_divisions (fails_substitute hterms) fun u hu ρ => ?_
  rw [valueAt_of_substitute hu, valueAt_under_ofIntegers hbound]

/-- A term that has a value everywhere, the same one, is that number. -/
theorem concreteValue_of_valueAt (h : ∀ ρ, u.valueAt ρ = some q) : u.concreteValue = .ok q := by
  refine concreteValue_eq_ok_iff.mpr ⟨lowers_of_valueAt (h (.total fun _ => 0)), fun ρ x hx => ?_⟩
  exact Option.some.inj (hx.symm.trans (h ρ))

/-- A term that has a value nowhere is refused. -/
theorem raisesArithmetic_concreteValue (h : ∀ ρ, u.valueAt ρ = none) :
    RaisesArithmetic u.concreteValue := by
  cases hform : u.normalForm with
  | ok f =>
    obtain ⟨ρ, x, hx⟩ := lowers_iff_exists_valueAt.mp ⟨f, hform⟩
    rw [h ρ] at hx
    cases hx
  | error failure =>
    obtain ⟨d, rfl, hd⟩ := Fails.exists_problem fails_fraction hform
    exact ⟨d, bind_eq_error_iff.mpr (Or.inl hform), hd.isArithmetic⟩

/-- A term without a value at numbers for all its symbols has a divisor that is zero there. -/
theorem valueAt_eq_none_iff (hbound : ∀ name ∈ t.symbols, (ρ name).isSome) :
    t.valueAt ρ = none ↔ ∃ d ∈ t.divisors, d.valueAt ρ = some 0 := by
  have hleaf {name : String} (hname : (ρ name).isSome) : ρ name = none ↔ False :=
    iff_of_false (Option.isSome_iff_ne_none.mp hname) not_false
  induction t with
  | const n => simp [valueAt, divisors]
  | sym name => simpa [valueAt, divisors] using (hleaf (hbound name (by simp [symbols]))).mp
  | hole p => simpa [valueAt, divisors] using (hleaf (hbound p.name (by simp [symbols]))).mp
  | op o left right ihl ihr =>
    have hleft : left.valueAt ρ = none ↔ ∃ d ∈ left.divisors, d.valueAt ρ = some 0 :=
      ihl fun name hname => hbound name (Names.mem_union.mpr (Or.inl hname))
    have hright : right.valueAt ρ = none ↔ ∃ d ∈ right.divisors, d.valueAt ρ = some 0 :=
      ihr fun name hname => hbound name (Names.mem_union.mpr (Or.inr hname))
    have hparts : (op o left right).valueAt ρ = none ↔
        left.valueAt ρ = none ∨ right.valueAt ρ = none ∨ o = .div ∧ right.valueAt ρ = some 0 := by
      rw [valueAt]
      cases left.valueAt ρ with
      | none => simp
      | some x =>
        cases right.valueAt ρ with
        | none => simp
        | some y => cases o <;> simp [Operator.onNumbers]
    rw [hparts, hleft, hright, divisors]
    by_cases ho : o = .div <;> simp [ho, or_and_right, exists_or]

/-- The least symbol that is not replaced is reported. -/
theorem evaluate_missing {σ : Substitution} (h : ∃ name ∈ t.symbols, σ name = none) :
    ∃ name ∈ t.symbols, σ name = none ∧ (∀ other ∈ t.symbols, σ other = none → name ≤ other) ∧
      t.evaluate σ = .error (.problem (.undeclaredSymbol name none)) := by
  have hmem {name : String} : name ∈ t.symbols.filter (fun name => (σ name).isNone) ↔
      name ∈ t.symbols ∧ σ name = none := by
    rw [List.mem_filter, Option.isNone_iff_eq_none]
  have hsorted := (pairwise_symbols t).filter fun name => (σ name).isNone
  unfold evaluate
  cases hmissing : t.symbols.filter fun name => (σ name).isNone with
  | nil =>
    obtain ⟨name, hname, hnone⟩ := h
    have hin := hmem.mpr ⟨hname, hnone⟩
    rw [hmissing] at hin
    cases hin
  | cons least rest =>
    rw [hmissing] at hmem hsorted
    obtain ⟨hleast, hnone⟩ := hmem.mp List.mem_cons_self
    refine ⟨least, hleast, hnone, fun other hother hfree => ?_, rfl⟩
    rcases List.mem_cons.mp (hmem.mpr ⟨hother, hfree⟩) with rfl | hrest
    · exact le_rfl
    · exact le_of_lt ((List.pairwise_cons.mp hsorted).1 other hrest)

/-- If every symbol is replaced, the number of the substituted term is told. -/
theorem evaluate_of_isSome {σ : Substitution} (h : ∀ name ∈ t.symbols, (σ name).isSome) :
    t.evaluate σ = t.substitute σ >>= concreteValue := by
  have hmissing : t.symbols.filter (fun name => (σ name).isNone) = [] := by
    rw [List.filter_eq_nil_iff]
    intro name hname
    simp [Option.isNone_eq_false_iff.mpr (h name hname)]
  rw [evaluate, hmissing]

/-- **Evaluation is exact arithmetic on the tree.** Of the symbols without an integer the least is
reported. If there is none, but a divisor in the term is zero at the integers, an arithmetic
diagnostic is raised. Otherwise the answer is the value of the tree, in lowest terms, and an integer
if and only if the value is one. -/
theorem evaluate_exact (t : Term) (numbers : Dictionary ℤ) :
    (∃ name ∈ t.symbols, numbers.contains name = false ∧
      (∀ other ∈ t.symbols, numbers.contains other = false → name ≤ other) ∧
      t.evaluate (.ofIntegers numbers) = .error (.problem (.undeclaredSymbol name none))) ∨
    (∀ name ∈ t.symbols, numbers.contains name = true) ∧
      ((∃ d ∈ t.divisors, d.valueAt (.ofIntegers numbers) = some 0) ∧
          RaisesArithmetic (t.evaluate (.ofIntegers numbers)) ∨
        (∀ d ∈ t.divisors, d.valueAt (.ofIntegers numbers) ≠ some 0) ∧
          ∃ q, t.valueAt (.ofIntegers numbers) = some q ∧
            t.evaluate (.ofIntegers numbers) = .ok q ∧
            (q.den = 1 ↔ ∃ n : ℤ, q = n) ∧ q.num.natAbs.Coprime q.den) := by
  have hnone {name : String} : Substitution.ofIntegers numbers name = none ↔
      numbers.contains name = false := by
    rw [← isSome_ofIntegers, Option.isSome_eq_false_iff, Option.isNone_iff_eq_none]
  by_cases hbound : ∀ name ∈ t.symbols, numbers.contains name = true
  · refine Or.inr ⟨hbound, ?_⟩
    have hsome (name : String) (hname : name ∈ t.symbols) :
        (Instantiation.ofIntegers numbers name).isSome := by
      rw [Instantiation.ofIntegers, Option.isSome_map, Option.isSome_iff_exists]
      exact Dictionary.contains_iff.mp (hbound name hname)
    have hevaluate : t.evaluate (.ofIntegers numbers) =
        t.substitute (.ofIntegers numbers) >>= concreteValue :=
      evaluate_of_isSome fun name hname => isSome_ofIntegers.trans (hbound name hname)
    rw [hevaluate]
    cases hvalue : t.valueAt (.ofIntegers numbers) with
    | none =>
      refine Or.inl ⟨(valueAt_eq_none_iff hsome).mp hvalue, ?_⟩
      rcases guarded_substitute_ofIntegers hbound with ⟨d, hd, hdiv⟩ | ⟨u, hu, hsame⟩
      · exact ⟨d, bind_eq_error_iff.mpr (Or.inl hd), hdiv⟩
      · obtain ⟨d, hd, hdiv⟩ := raisesArithmetic_concreteValue fun ρ => (hsame ρ).trans hvalue
        exact ⟨d, bind_eq_error_iff.mpr (Or.inr ⟨u, hu, hd⟩), hdiv⟩
    | some q =>
      have hdefined : ¬ ∃ d ∈ t.divisors, d.valueAt (.ofIntegers numbers) = some 0 := by
        rw [← valueAt_eq_none_iff hsome, hvalue]
        exact Option.some_ne_none q
      obtain ⟨u, hu⟩ := exists_substitute ((valueAt_under_ofIntegers (ρ := .total fun _ => 0)
        hbound).trans hvalue)
      have hsame (ρ : Instantiation) : u.valueAt ρ = some q := by
        rw [valueAt_of_substitute hu, valueAt_under_ofIntegers hbound, hvalue]
      refine Or.inr ⟨fun d hd hzero => hdefined ⟨d, hd, hzero⟩, q, rfl,
        bind_eq_ok_iff.mpr ⟨u, hu, concreteValue_of_valueAt hsame⟩, ?_, q.reduced⟩
      exact ⟨fun hden => ⟨q.num, (Rat.den_eq_one_iff q).mp hden |>.symm⟩,
        fun ⟨n, hn⟩ => hn ▸ Rat.den_intCast n⟩
  · push Not at hbound
    obtain ⟨name, hname, hfree⟩ := hbound
    obtain ⟨least, hleast, hmissing, hleq, hraises⟩ :=
      evaluate_missing ⟨name, hname, hnone.mpr (Bool.not_eq_true _ ▸ hfree)⟩
    exact Or.inl ⟨least, hleast, hnone.mp hmissing,
      fun other hother hfree => hleq other hother (hnone.mpr hfree), hraises⟩

end Term

end Shapeline
