import Shapeline.Algebra.Gcd

/-!
# Polynomials in several variables

A polynomial in `n + 1` variables is a polynomial in the first variable whose coefficients are
polynomials in the other `n`; without variables it is an integer. The first variable is therefore
the heaviest one of the lexicographic order, and the leading coefficient of the outermost
polynomial, followed inward, ends at the coefficient of the leading monomial.
-/

namespace Shapeline

/-- The polynomials in a number of variables, together with their ring operations. -/
def polyRing : Nat → (R : Type) × GcdRing R
  | 0 => ⟨Int, inferInstance⟩
  | n + 1 =>
    letI := (polyRing n).2
    ⟨Dense (polyRing n).1, inferInstance⟩

/-- Polynomials with integer coefficients in `n` variables. -/
def Poly (n : Nat) : Type := (polyRing n).1

namespace Poly

instance (n : Nat) : GcdRing (Poly n) := (polyRing n).2

/-- A polynomial in the first variable, whose coefficients are polynomials in the others. -/
def ofDense {n : Nat} (p : Dense (Poly n)) : Poly (n + 1) := p

/-- A polynomial seen as one in its first variable only. -/
def toDense {n : Nat} (p : Poly (n + 1)) : Dense (Poly n) := p

/-- The polynomial that is a constant integer. -/
def ofInt (n : Nat) (a : Int) : Poly n := GcdRing.ofInt a

/-- The polynomial that is the variable at a position; a position past the last variable has the
zero polynomial. -/
def indeterminate : (n : Nat) → Nat → Poly n
  | 0, _ => (0 : Int)
  | _ + 1, 0 => ofDense .indeterminate
  | n + 1, i + 1 => ofDense (.constant (indeterminate n i))

/-- The integer that a polynomial without variables is, if it is one. -/
def constant? : (n : Nat) → Poly n → Option Int
  | 0, a => some a
  | n + 1, p =>
    match (toDense p).coeffs with
    | [] => some 0
    | [a] => constant? n a
    | _ => none

/-- One term of a polynomial written out: an integer times a power of each variable. -/
structure Monomial where
  /-- The integer factor, never zero. -/
  coefficient : Int
  /-- The exponent of each variable, in the order of the variables. -/
  exponents : List Nat
  deriving DecidableEq

/-- The monomials of a polynomial, in descending lexicographic order of their exponents. -/
def monomials : (n : Nat) → Poly n → List Monomial
  | 0, (a : Int) => if a = 0 then [] else [⟨a, []⟩]
  | n + 1, p =>
    ((toDense p).coeffs.zipIdx.reverse).flatMap fun (coefficient, exponent) =>
      (monomials n coefficient).map fun m => ⟨m.coefficient, exponent :: m.exponents⟩

end Poly

end Shapeline
