import Shapeline.Proofs.Term.Substitution

/-!
# Simplification keeps values

Wherever a term has a value, it can be simplified and the result has the same value there. The
converse fails, because dropping an operand can drop a division; but where a simplified quotient has
a value, its divisor is not zero. Only terms that lower can be simplified, and simplifying twice is
simplifying once.
-/

namespace Shapeline

namespace Term

variable {ρ : Instantiation} {t u left right : Term} {o : Operator} {name : String} {x y z : ℚ}

/-- A term that is an integer as written. -/
theorem const?_eq_some_iff {n : Int} : t.const? = some n ↔ t = const n := by
  cases t <;> simp [const?]

/-- Two integers are combined into an integer or not at all. -/
theorem foldConstants_onNumbers {a b : Int} (h : o.onNumbers a b = some z) :
    ∃ r, foldConstants o a b = .ok r ∧ ∀ n, r = some n → (n : ℚ) = z := by
  cases o with
  | add => exact ⟨_, rfl, fun n hn => by
      rw [← Option.some.inj hn, ← Option.some.inj h, Int.cast_add]⟩
  | sub => exact ⟨_, rfl, fun n hn => by
      rw [← Option.some.inj hn, ← Option.some.inj h, Int.cast_sub]⟩
  | mul => exact ⟨_, rfl, fun n hn => by
      rw [← Option.some.inj hn, ← Option.some.inj h, Int.cast_mul]⟩
  | div =>
    rw [Operator.onNumbers, Option.ite_none_left_eq_some, Int.cast_eq_zero] at h
    obtain ⟨hb, hz⟩ := h
    refine ⟨if a % b = 0 then some (a / b) else none, by simp [foldConstants, hb, pure,
      Except.pure], fun n hn => ?_⟩
    split at hn
    · rename_i hmod
      rw [← Option.some.inj hn, ← Option.some.inj hz,
        Int.cast_div (Int.dvd_of_emod_eq_zero hmod) (Int.cast_ne_zero.mpr hb)]
    · cases hn

/-- Combining two terms keeps the value of the operator. -/
theorem combine_valueAt (hx : left.valueAt ρ = some x) (hy : right.valueAt ρ = some y)
    (hz : o.onNumbers x y = some z) :
    ∃ u, combine o left right = .ok u ∧ u.valueAt ρ = some z := by
  have hop : (op o left right).valueAt ρ = some z :=
    valueAt_op_eq_some_iff.mpr ⟨x, y, hx, hy, hz⟩
  have hl {n : Int} (h : left.const? = some n) : x = n := by
    rw [const?_eq_some_iff] at h
    subst h
    exact (Option.some.inj hx).symm
  have hr {n : Int} (h : right.const? = some n) : y = n := by
    rw [const?_eq_some_iff] at h
    subst h
    exact (Option.some.inj hy).symm
  unfold combine
  split
  · rename_i a b ha hb
    rw [hl ha, hr hb] at hz
    obtain ⟨r, hfold, hvalue⟩ := foldConstants_onNumbers hz
    cases r with
    | some n => exact ⟨const n, by rw [hfold]; rfl, by rw [valueAt, hvalue n rfl]⟩
    | none => exact ⟨op o left right, by rw [hfold]; rfl, hop⟩
  · cases o with
    | add =>
      obtain rfl := Option.some.inj hz
      dsimp only
      split
      · rename_i h
        exact ⟨right, rfl, by rw [hy, hl h, Int.cast_zero, zero_add]⟩
      · split
        · rename_i h
          exact ⟨left, rfl, by rw [hx, hr h, Int.cast_zero, add_zero]⟩
        · exact ⟨_, rfl, hop⟩
    | sub =>
      obtain rfl := Option.some.inj hz
      dsimp only
      split
      · rename_i h
        exact ⟨left, rfl, by rw [hx, hr h, Int.cast_zero, sub_zero]⟩
      · exact ⟨_, rfl, hop⟩
    | mul =>
      obtain rfl := Option.some.inj hz
      dsimp only
      split
      · rename_i h
        refine ⟨const 0, rfl, ?_⟩
        rcases h with h | h
        · rw [hl h, Int.cast_zero, zero_mul]; rfl
        · rw [hr h, Int.cast_zero, mul_zero]; rfl
      · split
        · rename_i h
          exact ⟨right, rfl, by rw [hy, hl h, Int.cast_one, one_mul]⟩
        · split
          · rename_i h
            exact ⟨left, rfl, by rw [hx, hr h, Int.cast_one, mul_one]⟩
          · exact ⟨_, rfl, hop⟩
    | div =>
      dsimp only
      split
      · rename_i h
        rw [Operator.onNumbers, Option.ite_none_left_eq_some] at hz
        exact ⟨left, rfl, by rw [hx, ← hz.2, hr h, Int.cast_one, div_one]⟩
      · have hne : y ≠ 0 := Operator.onNumbers_isSome_iff.mp (by rw [hz]; rfl) rfl
        refine ⟨_, divide_eq_ok_iff.mpr ⟨lowers_of_valueAt hy, fun hvanish => ?_, rfl⟩, hop⟩
        exact hne (hvanish ρ y hy)

/-- A term with a value can be simplified and keeps the value. -/
theorem simplify_valueAt (hx : t.valueAt ρ = some x) :
    ∃ u, t.simplify = .ok u ∧ u.valueAt ρ = some x := by
  induction t generalizing x with
  | op o left right ihl ihr =>
    obtain ⟨y, z, hy, hz, hop⟩ := valueAt_op_eq_some_iff.mp hx
    obtain ⟨l, hl, hly⟩ := ihl hy
    obtain ⟨r, hr, hrz⟩ := ihr hz
    obtain ⟨u, hu, hux⟩ := combine_valueAt hly hrz hop
    exact ⟨u, bind_eq_ok_iff.mpr ⟨l, hl, bind_eq_ok_iff.mpr ⟨r, hr, hu⟩⟩, hux⟩
  | _ => exact ⟨_, rfl, hx⟩

/-- A simplified term agrees with the term. -/
theorem agrees_simplify (h : t.simplify = .ok u) : u.Agrees t := by
  intro ρ x y hx hy
  obtain ⟨v, hv, hvy⟩ := simplify_valueAt hy
  obtain rfl := Except.ok.inj (h.symm.trans hv)
  rw [hx] at hvy
  exact Option.some.inj hvy

/-- A term that lowers can be simplified, and the result lowers. -/
theorem Lowers.simplify (ht : t.Lowers) : ∃ u, t.simplify = .ok u ∧ u.Lowers := by
  obtain ⟨ρ, x, hx⟩ := lowers_iff_exists_valueAt.mp ht
  obtain ⟨u, hu, hux⟩ := simplify_valueAt hx
  exact ⟨u, hu, lowers_of_valueAt hux⟩

/-- What combining two terms can yield. -/
inductive Combines (o : Operator) (left right : Term) : Term → Prop
  /-- Two integers are folded. -/
  | folded {a b n : Int} : left = const a → right = const b →
    foldConstants o a b = .ok (some n) → Combines o left right (const n)
  /-- A product with zero is zero. -/
  | zero : o = .mul → left = const 0 ∨ right = const 0 → Combines o left right (const 0)
  /-- The second operand is dropped beside a term that is no integer. -/
  | keepsLeft : left.const? = none → Combines o left right left
  /-- The first operand is dropped beside a term that is no integer. -/
  | keepsRight : right.const? = none → Combines o left right right
  /-- The operator is applied. -/
  | applied : Combines o left right (op o left right)

/-- Combining two terms yields nothing else. -/
theorem combines_of_combine (h : combine o left right = .ok u) : Combines o left right u := by
  have hpure {v : Term} (hv : Combines o left right v) (h : (pure v : Outcome Term) = .ok u) :
      Combines o left right u := (pure_eq_ok_iff.mp h) ▸ hv
  unfold combine at h
  split at h
  · rename_i a b ha hb
    obtain ⟨r, hfold, h⟩ := bind_eq_ok_iff.mp h
    cases r with
    | some n => exact hpure (.folded (const?_eq_some_iff.mp ha) (const?_eq_some_iff.mp hb) hfold) h
    | none => exact hpure .applied h
  · rename_i hboth
    have hleft {n : Int} (hright : right.const? = some n) : Combines o left right left :=
      .keepsLeft (Option.eq_none_iff_forall_ne_some.mpr fun m hm => hboth m n hm hright)
    have hright {n : Int} (hleft : left.const? = some n) : Combines o left right right :=
      .keepsRight (Option.eq_none_iff_forall_ne_some.mpr fun m hm => hboth n m hleft hm)
    cases o with
    | add =>
      dsimp only at h
      split at h
      · exact hpure (hright ‹_›) h
      · split at h
        · exact hpure (hleft ‹_›) h
        · exact hpure .applied h
    | sub =>
      dsimp only at h
      split at h
      · exact hpure (hleft ‹_›) h
      · exact hpure .applied h
    | mul =>
      dsimp only at h
      split at h
      · rename_i hzero
        rw [const?_eq_some_iff, const?_eq_some_iff] at hzero
        exact hpure (.zero rfl hzero) h
      · split at h
        · exact hpure (hright ‹_›) h
        · split at h
          · exact hpure (hleft ‹_›) h
          · exact hpure .applied h
    | div =>
      dsimp only at h
      split at h
      · exact hpure (hleft ‹_›) h
      · exact (divide_eq_ok_iff.mp h).2.2 ▸ .applied

/-- Combining two terms yields an integer, one of the terms, or the operator applied to them. -/
theorem combine_eq_ok (h : combine o left right = .ok u) :
    (∃ n, u = const n) ∨ u = left ∨ u = right ∨ u = op o left right := by
  cases combines_of_combine h with
  | folded _ _ _ => exact Or.inl ⟨_, rfl⟩
  | zero _ _ => exact Or.inl ⟨0, rfl⟩
  | keepsLeft _ => exact Or.inr (Or.inl rfl)
  | keepsRight _ => exact Or.inr (Or.inr (Or.inl rfl))
  | applied => exact Or.inr (Or.inr (Or.inr rfl))

/-- The leaves of a simplified term are leaves of the term. -/
theorem LeavesSatisfy.simplify {onSymbol : String → Prop} {onHole : Placeholder → Prop}
    (ht : t.LeavesSatisfy onSymbol onHole) (h : t.simplify = .ok u) :
    u.LeavesSatisfy onSymbol onHole := by
  induction t generalizing u with
  | op o left right ihl ihr =>
    obtain ⟨l, hl, h⟩ := bind_eq_ok_iff.mp h
    obtain ⟨r, hr, h⟩ := bind_eq_ok_iff.mp h
    rcases combine_eq_ok h with ⟨n, rfl⟩ | rfl | rfl | rfl
    · trivial
    · exact ihl ht.1 hl
    · exact ihr ht.2 hr
    · exact ⟨ihl ht.1 hl, ihr ht.2 hr⟩
  | _ => exact pure_eq_ok_iff.mp h ▸ ht

/-- The symbols of a simplified term are symbols of the term. -/
theorem mem_symbols_of_simplify (h : t.simplify = .ok u) (hname : name ∈ u.symbols) :
    name ∈ t.symbols :=
  leavesSatisfy_iff_symbols.mp
    ((leavesSatisfy_iff_symbols.mpr fun _ hmem => hmem).simplify h) name hname

/-- A simplified term is not simplified further. -/
theorem simplify_simplify (h : t.simplify = .ok u) : u.simplify = .ok u := by
  induction t generalizing u with
  | const n => exact Except.ok.inj h ▸ rfl
  | sym other => exact Except.ok.inj h ▸ rfl
  | hole q => exact Except.ok.inj h ▸ rfl
  | op o left right ihl ihr =>
    obtain ⟨l, hl, h⟩ := bind_eq_ok_iff.mp h
    obtain ⟨r, hr, h⟩ := bind_eq_ok_iff.mp h
    rcases combine_eq_ok h with ⟨n, rfl⟩ | rfl | rfl | rfl
    · rfl
    · exact ihl hl
    · exact ihr hr
    · exact bind_eq_ok_iff.mpr ⟨l, ihl hl, bind_eq_ok_iff.mpr ⟨r, ihr hr, h⟩⟩

/-- Two terms are combined to a quotient only if the divisor is a constant other than zero or they
can be divided. -/
theorem combine_div_eq_ok (h : combine .div left right = .ok u) :
    (∃ n : Int, right = const n ∧ n ≠ 0) ∨ left.divide right = .ok u := by
  unfold combine at h
  split at h
  · rename_i a b ha hb
    obtain ⟨r, hfold, _⟩ := bind_eq_ok_iff.mp h
    refine Or.inl ⟨b, const?_eq_some_iff.mp hb, ?_⟩
    rintro rfl
    simp [foldConstants, throw, throwThe, MonadExceptOf.throw] at hfold
  · dsimp only at h
    split at h
    · rename_i hone
      exact Or.inl ⟨1, const?_eq_some_iff.mp hone, one_ne_zero⟩
    · exact Or.inr h

/-- Two terms are combined to a quotient only if the divisor does not vanish. -/
theorem not_vanishes_of_combine_div (h : combine .div left right = .ok u) : ¬ right.Vanishes := by
  rcases combine_div_eq_ok h with ⟨n, rfl, hn⟩ | hdivide
  · exact fun hvanish => hn (Int.cast_eq_zero.mp (hvanish (.total fun _ => 0) n rfl))
  · exact (divide_eq_ok_iff.mp hdivide).2.1

/-- Only a term that lowers can be simplified: a simplified divisor agrees with the divisor as
written, so they vanish together. -/
theorem lowers_of_simplify (h : t.simplify = .ok u) : t.Lowers := by
  induction t generalizing u with
  | op o left right ihl ihr =>
    obtain ⟨l, hl, h⟩ := bind_eq_ok_iff.mp h
    obtain ⟨r, hr, h⟩ := bind_eq_ok_iff.mp h
    refine lowers_op_iff.mpr ⟨ihl hl, ihr hr, ?_⟩
    rintro rfl hvanish
    have hzero : r.Agrees (const 0) :=
      (agrees_simplify hr).trans (ihr hr) (vanishes_iff_agrees_zero.mp hvanish)
    exact not_vanishes_of_combine_div h (vanishes_iff_agrees_zero.mpr hzero)
  | _ => exact ⟨_, rfl⟩

/-- Where a combined quotient has a value, the divisor is not zero. -/
theorem ne_zero_of_combine_div (h : combine .div left right = .ok u) (hu : u.valueAt ρ = some z)
    (hy : right.valueAt ρ = some y) : y ≠ 0 := by
  rcases combine_div_eq_ok h with ⟨n, rfl, hn⟩ | hdivide
  · obtain rfl := Option.some.inj hy
    exact Int.cast_ne_zero.mpr hn
  · obtain ⟨_, _, rfl⟩ := divide_eq_ok_iff.mp hdivide
    obtain ⟨x, w, _, hw, hop⟩ := valueAt_op_eq_some_iff.mp hu
    obtain rfl := Option.some.inj (hy.symm.trans hw)
    exact Operator.onNumbers_isSome_iff.mp (by rw [hop]; rfl) rfl

/-- Where a simplified quotient has a value, the divisor is not zero. -/
theorem ne_zero_of_simplify_div (h : (op .div left right).simplify = .ok u)
    (hu : u.valueAt ρ = some z) (hy : right.valueAt ρ = some y) : y ≠ 0 := by
  obtain ⟨l, _, h⟩ := bind_eq_ok_iff.mp h
  obtain ⟨r, hr, h⟩ := bind_eq_ok_iff.mp h
  obtain ⟨r', hr', hry⟩ := simplify_valueAt hy
  obtain rfl := Except.ok.inj (hr.symm.trans hr')
  exact ne_zero_of_combine_div h hu hry

end Term

end Shapeline
