/-!
# Points and digits

A polynomial with integer coefficients can be read back from its value at a single point, if the
integers put for its variables are large beside the coefficients: the value is then written in
balanced digits, first in the base put for the first variable, each digit in turn in the base put
for the second, and so on. The modules on greatest common divisors use this to guess a common factor
from one greatest common divisor of integers. A guess is always checked, so nothing here has to be
proved for the result to be right.
-/

namespace Shapeline

/-- What is put for one variable when a polynomial is sampled. -/
structure Place where
  /-- The integer put for the variable, and the base of the digits that are read back. -/
  base : Nat
  /-- The number of digits to read back, one for each power of the variable. -/
  digits : Nat
  deriving DecidableEq

namespace Place

/-- The digits of an integer in a base, that of the constant power first. A digit lies between minus
half the base and half the base, so a negative coefficient is a negative digit. -/
def balancedDigits : Nat → Nat → Int → List Int
  | 0, _, _ => []
  | count + 1, base, a => a.bmod base :: balancedDigits count base (a.bdiv base)

/-- The places for variables of the given degrees, together with a bound on the values that arise.
The innermost variable gets the smallest base, and every further base exceeds what the variables
inside it can make of coefficients within the bound. The margin leaves room for an integer that the
values have in common beyond those of the common factor. -/
def choose (margin bound : Nat) : List Nat → List Place × Nat
  | [] => ([], bound)
  | degree :: rest =>
    let (inner, bound) := choose margin bound rest
    let base := (2 * bound + 29) * margin + 2
    (⟨base, degree + 1⟩ :: inner, (bound + 1) * Nat.pow base degree)

end Place

/-- A point with small irregular coordinates, one for each of a number of variables, and another
point for each trial. -/
def smallPoint (trial count : Nat) : List Nat :=
  (List.range count).map fun i => 1009 + 211 * trial + 113 * i + 17 * i * i

/-- The larger entry at each position of two lists; the rest of the longer list is kept. -/
def pointwiseMax : List Nat → List Nat → List Nat
  | [], ys => ys
  | x :: xs, [] => x :: xs
  | x :: xs, y :: ys => max x y :: pointwiseMax xs ys

end Shapeline
