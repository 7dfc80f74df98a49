import Shapeline.Algebra.Poly

/-!
# Reduced fractions of polynomials

The arithmetic of rational functions. Every operation reduces its result: numerator and denominator
have no common factor, integers included, and the leading coefficient of the denominator is
positive. Two rational functions are then equal exactly when their fractions are.
-/

namespace Shapeline

/-- A quotient of two polynomials in `n` variables. -/
structure Fraction (n : Nat) where
  /-- The polynomial above the bar. -/
  num : Poly n
  /-- The polynomial below the bar. -/
  den : Poly n
  deriving DecidableEq

namespace Fraction

variable {n : Nat}

/-- Cancel the greatest common divisor and make the denominator's leading coefficient positive. -/
def reduce (num den : Poly n) : Fraction n :=
  let common := GcdRing.gcd num den
  let num := GcdRing.quotient num common
  let den := GcdRing.quotient den common
  if GcdRing.isNegative den then ⟨-num, -den⟩ else ⟨num, den⟩

/-- The fraction of a constant integer. -/
def ofInt (n : Nat) (a : Int) : Fraction n := ⟨Poly.ofInt n a, 1⟩

/-- The fraction of the variable at a position. -/
def indeterminate (n : Nat) (i : Nat) : Fraction n := ⟨Poly.indeterminate n i, 1⟩

/-- Whether the fraction is the zero function. -/
def isZero (a : Fraction n) : Bool := decide (a.num = 0)

instance : Add (Fraction n) := ⟨fun a b => reduce (a.num * b.den + b.num * a.den) (a.den * b.den)⟩
instance : Neg (Fraction n) := ⟨fun a => ⟨-a.num, a.den⟩⟩
instance : Sub (Fraction n) := ⟨fun a b => a + -b⟩
instance : Mul (Fraction n) := ⟨fun a b => reduce (a.num * b.num) (a.den * b.den)⟩

/-- The quotient of two fractions, of which the second is not zero. -/
instance : Div (Fraction n) := ⟨fun a b => reduce (a.num * b.den) (a.den * b.num)⟩

/-- The number that a fraction without variables is, if it is one. -/
def constant? (a : Fraction n) : Option Rat := do
  let num ← Poly.constant? n a.num
  let den ← Poly.constant? n a.den
  pure (mkRat num den.toNat)

end Fraction

end Shapeline
