import Shapeline.Algebra.Sample

/-!
# Rings with exact division and greatest common divisors

The normal form of a dimension term is a reduced fraction of polynomials with integer
coefficients. Everything that reduction needs of its coefficients is collected here: the ring
operations, the quotient by a divisor, a greatest common divisor and a sign. The integers are the
base case; polynomials over such a ring form such a ring again. Every element is in the end made of
integers and variables, so it also has a value at a point, and that too is part of the class.
-/

namespace Shapeline

/-- The operations that reducing a fraction needs. The class holds operations only; their laws are
those of each instance. -/
class GcdRing (R : Type) extends Zero R, One R, Add R, Neg R, Mul R where
  /-- The quotient of an element by another one, if that divides it. -/
  quotient? : R → R → Option R
  /-- A greatest common divisor, zero only for two zeros. -/
  gcd : R → R → R
  /-- Whether the leading integer of the element is below zero. -/
  isNegative : R → Bool
  /-- Equality of elements can be decided. -/
  decEq : DecidableEq R
  /-- The element that is an integer. -/
  ofInt : Int → R
  /-- The value at a point. A variable without a coordinate is put to zero. -/
  value : List Nat → R → Int
  /-- The element whose coefficients are the digits of an integer. -/
  ofDigits : List Place → Int → R
  /-- The integers that the element is made of. -/
  integers : R → List Int
  /-- The degree in each variable, the outermost one first. -/
  degrees : R → List Nat

namespace GcdRing

instance {R : Type} [GcdRing R] : DecidableEq R := GcdRing.decEq

/-- The quotient of an element by one of its divisors. -/
def quotient {R : Type} [GcdRing R] (a b : R) : R := (quotient? a b).getD 0

/-- A greatest common divisor of the elements of a list. -/
def gcdList {R : Type} [GcdRing R] (elements : List R) : R := elements.foldl gcd 0

/-- The integers, with the nonnegative greatest common divisor. -/
instance : GcdRing Int where
  zero := 0
  one := 1
  quotient? a b := if b ≠ 0 ∧ a % b = 0 then some (a / b) else none
  gcd a b := Int.gcd a b
  isNegative a := decide (a < 0)
  decEq := inferInstance
  ofInt a := a
  value _ a := a
  ofDigits _ a := a
  integers a := [a]
  degrees _ := []

end GcdRing

end Shapeline
