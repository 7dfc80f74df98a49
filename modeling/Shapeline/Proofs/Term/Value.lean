import Mathlib.Algebra.Order.Ring.Rat
import Shapeline.Term.Simplify

/-!
# Values of terms

An instantiation gives rational numbers to some symbols. A term has a value at an instantiation if
all its symbols have one and no divisor in it has the value zero. A placeholder has the value of its
name, so it is the same symbol as an author's symbol of that name.
-/

namespace Shapeline

/-- Rational numbers for some of the symbols. -/
abbrev Instantiation := String → Option ℚ

/-- The instantiation that gives every symbol a number. -/
def Instantiation.total (ρ : String → ℚ) : Instantiation := fun name => some (ρ name)

/-- An operator applied to two numbers. Division by zero has no result. -/
def Operator.onNumbers : Operator → ℚ → ℚ → Option ℚ
  | .add, x, y => some (x + y)
  | .sub, x, y => some (x - y)
  | .mul, x, y => some (x * y)
  | .div, x, y => if y = 0 then none else some (x / y)

/-- Only division by zero has no result. -/
theorem Operator.onNumbers_isSome_iff {o : Operator} {x y : ℚ} :
    (o.onNumbers x y).isSome ↔ (o = .div → y ≠ 0) := by
  cases o <;> simp [onNumbers]

namespace Term

/-- The value of a term at an instantiation. -/
def valueAt (ρ : Instantiation) : Term → Option ℚ
  | const n => some n
  | sym name => ρ name
  | hole p => ρ p.name
  | op o left right => do o.onNumbers (← left.valueAt ρ) (← right.valueAt ρ)

/-- An operator has a value if its operands do and it has a result on them. -/
theorem valueAt_op_eq_some_iff {ρ : Instantiation} {o : Operator} {left right : Term} {z : ℚ} :
    (op o left right).valueAt ρ = some z ↔
      ∃ x y, left.valueAt ρ = some x ∧ right.valueAt ρ = some y ∧ o.onNumbers x y = some z := by
  simp only [valueAt, bind, Option.bind_eq_some_iff]
  constructor
  · rintro ⟨x, hx, y, hy, hz⟩
    exact ⟨x, y, hx, hy, hz⟩
  · rintro ⟨x, y, hx, hy, hz⟩
    exact ⟨x, hx, y, hy, hz⟩

/-- A term with a value keeps it when more symbols get numbers, and only the symbols of the term
matter. -/
theorem valueAt_mono {ρ θ : Instantiation} {t : Term} {x : ℚ}
    (h : ∀ name ∈ t.symbols, ∀ y, ρ name = some y → θ name = some y)
    (hx : t.valueAt ρ = some x) : t.valueAt θ = some x := by
  induction t generalizing x with
  | const n => exact hx
  | sym name => exact h name (by simp [symbols]) x hx
  | hole p => exact h p.name (by simp [symbols]) x hx
  | op o left right ihl ihr =>
    obtain ⟨y, z, hy, hz, hop⟩ := valueAt_op_eq_some_iff.mp hx
    have hleft := ihl (fun name hname => h name (Names.mem_union.mpr (Or.inl hname))) hy
    have hright := ihr (fun name hname => h name (Names.mem_union.mpr (Or.inr hname))) hz
    exact valueAt_op_eq_some_iff.mpr ⟨y, z, hleft, hright, hop⟩

/-- Only the symbols of a term matter for its value. -/
theorem valueAt_congr {ρ θ : Instantiation} {t : Term} (h : ∀ name ∈ t.symbols, ρ name = θ name) :
    t.valueAt ρ = t.valueAt θ := by
  apply Option.ext
  intro x
  constructor
  · exact valueAt_mono fun name hname y hy => by rwa [← h name hname]
  · exact valueAt_mono fun name hname y hy => by rwa [h name hname]

/-- A term with a value keeps it when all other symbols get the number zero. -/
theorem valueAt_total {ρ : Instantiation} {t : Term} {x : ℚ} (hx : t.valueAt ρ = some x) :
    t.valueAt (.total fun name => (ρ name).getD 0) = some x :=
  valueAt_mono (fun name _ y hy => by rw [Instantiation.total, hy, Option.getD_some]) hx

/-- Two terms agree: wherever both have values, these are equal. -/
def Agrees (a b : Term) : Prop :=
  ∀ ρ x y, a.valueAt ρ = some x → b.valueAt ρ = some y → x = y

/-- A term vanishes: wherever it has a value, that is zero. -/
def Vanishes (t : Term) : Prop := ∀ ρ x, t.valueAt ρ = some x → x = 0

/-- A term agrees with itself. -/
@[refl] theorem Agrees.refl (t : Term) : t.Agrees t := by
  intro ρ x y hx hy
  rw [hx] at hy
  exact Option.some.inj hy

/-- Agreement is symmetric. -/
theorem Agrees.symm {a b : Term} (h : a.Agrees b) : b.Agrees a :=
  fun ρ x y hx hy => (h ρ y x hy hx).symm

/-- Agreement at the instantiations that give every symbol a number is enough. -/
theorem agrees_iff_total {a b : Term} :
    a.Agrees b ↔ ∀ (ρ : String → ℚ) (x y : ℚ),
      a.valueAt (.total ρ) = some x → b.valueAt (.total ρ) = some y → x = y := by
  constructor
  · exact fun h ρ => h (.total ρ)
  · exact fun h ρ x y hx hy => h _ x y (valueAt_total hx) (valueAt_total hy)

/-- A term vanishes if it agrees with zero. -/
theorem vanishes_iff_agrees_zero {t : Term} : t.Vanishes ↔ t.Agrees (const 0) := by
  constructor
  · intro h ρ x y hx hy
    rw [h ρ x hx, ← Option.some.inj hy, Int.cast_zero]
  · intro h ρ x hx
    exact h ρ x 0 hx (by simp [valueAt])

end Term

end Shapeline
