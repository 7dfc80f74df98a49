import Shapeline.Algebra.GcdRing

/-!
# Univariate polynomials

A polynomial is its list of coefficients from the constant term upward, without trailing zeros, so
that equal polynomials are equal lists. A greatest common divisor is found by pseudo-division:
contents are split off, and the remainders are kept primitive, so that no fractions of coefficients
ever arise.
-/

namespace Shapeline

/-- Drop the zeros at the end of a coefficient list. -/
def trimZeros {R : Type} [GcdRing R] : List R → List R
  | [] => []
  | a :: rest =>
    match trimZeros rest with
    | [] => if a = 0 then [] else [a]
    | b :: tail => a :: b :: tail

/-- A trimmed list does not end in zero. -/
theorem getLast?_trimZeros {R : Type} [GcdRing R] (coeffs : List R) :
    (trimZeros coeffs).getLast? ≠ some 0 := by
  induction coeffs with
  | nil => simp [trimZeros]
  | cons a rest ih =>
    rw [trimZeros]
    split
    · split <;> simp_all
    · rename_i b tail h
      rw [h] at ih
      simpa using ih

/-- A univariate polynomial over a ring of coefficients. -/
structure Dense (R : Type) [GcdRing R] where
  /-- The coefficients, that of the constant term first. -/
  coeffs : List R
  /-- The last coefficient, if any, is not zero. -/
  trimmed : coeffs.getLast? ≠ some 0
  deriving DecidableEq

namespace Dense

variable {R : Type} [GcdRing R]

/-- The polynomial with the given coefficients, that of the constant term first. -/
def ofList (coeffs : List R) : Dense R := ⟨trimZeros coeffs, getLast?_trimZeros coeffs⟩

/-- The polynomial that is constant. -/
def constant (a : R) : Dense R := ofList [a]

/-- The polynomial that is the variable itself. -/
def indeterminate : Dense R := ofList [0, 1]

/-- One more than the degree, and zero for the zero polynomial. -/
def length (p : Dense R) : Nat := p.coeffs.length

/-- The leading coefficient, and zero for the zero polynomial. -/
def lead (p : Dense R) : R := p.coeffs.getLastD 0

/-- Coefficientwise sum of two coefficient lists. -/
def addCoeffs : List R → List R → List R
  | [], q => q
  | a :: p, [] => a :: p
  | a :: p, b :: q => (a + b) :: addCoeffs p q

/-- Product of two coefficient lists, by Horner's scheme on the first. -/
def mulCoeffs : List R → List R → List R
  | [], _ => []
  | a :: p, q =>
    let rest := 0 :: mulCoeffs p q
    if a = 0 then rest else addCoeffs (q.map (a * ·)) rest

instance : Zero (Dense R) := ⟨ofList []⟩
instance : One (Dense R) := ⟨constant 1⟩
instance : Add (Dense R) := ⟨fun p q => ofList (addCoeffs p.coeffs q.coeffs)⟩
instance : Neg (Dense R) := ⟨fun p => ofList (p.coeffs.map (- ·))⟩
instance : Mul (Dense R) := ⟨fun p q => ofList (mulCoeffs p.coeffs q.coeffs)⟩

/-- Multiply every coefficient by the same factor. -/
def scale (a : R) (p : Dense R) : Dense R := ofList (p.coeffs.map (a * ·))

/-- Multiply by a power of the variable. -/
def shift (k : Nat) (p : Dense R) : Dense R := ofList (List.replicate k 0 ++ p.coeffs)

/-- Divide every coefficient by a common divisor. -/
def unscale (p : Dense R) (a : R) : Dense R := ofList (p.coeffs.map (GcdRing.quotient · a))

/-- The greatest common divisor of the coefficients. -/
def content (p : Dense R) : R := GcdRing.gcdList p.coeffs

/-- The polynomial divided by its content. -/
def primitivePart (p : Dense R) : Dense R := p.unscale p.content

/-- Multiply `p` by the leading coefficient of `d` and cancel its leading term with a multiple
of `d`. -/
def cancelLead (p d : Dense R) : Dense R :=
  p.scale d.lead + -((d.scale p.lead).shift (p.length - d.length))

/-- Cancel leading terms until the polynomial is shorter than the divisor. Each round makes it
shorter, so its length bounds the number of rounds. -/
def pseudoRemainder : Nat → Dense R → Dense R → Dense R
  | 0, p, _ => p
  | rounds + 1, p, d =>
    if p.length < d.length then p else pseudoRemainder rounds (p.cancelLead d) d

/-- The quotient of a polynomial by a divisor, from the leading term down, if nothing remains. Each
round makes the polynomial shorter, so its length bounds the number of rounds. -/
def quotientFrom? : Nat → Dense R → Dense R → Option (Dense R)
  | 0, p, _ => if p = 0 then some 0 else none
  | rounds + 1, p, d =>
    if p = 0 then some 0
    else if p.length < d.length then none
    else do
      let factor ← GcdRing.quotient? p.lead d.lead
      let distance := p.length - d.length
      let rest ← quotientFrom? rounds (p + -((d.scale factor).shift distance)) d
      pure ((constant factor).shift distance + rest)

/-- The quotient of a polynomial by another one, if that divides it. -/
def quotient? (p d : Dense R) : Option (Dense R) :=
  if d = 1 then some p else quotientFrom? p.length p d

/-- The greatest common divisor of two primitive polynomials that are not constant. The remainder is
shorter than the divisor, so the length of the second argument bounds the number of rounds. A
remainder that is constant leaves no common factor. -/
def primitiveGcd : Nat → Dense R → Dense R → Dense R
  | 0, p, _ => p
  | rounds + 1, p, q =>
    let remainder := pseudoRemainder p.length p q
    if remainder = 0 then q
    else if remainder.length = 1 then 1
    else primitiveGcd rounds q remainder.primitivePart

/-- The greatest common divisor of two polynomials that are not zero, by division alone: that of the
contents, times that of the primitive parts unless one of the polynomials is constant. -/
def divisionGcd (p q : Dense R) : Dense R :=
  let contentP := p.content
  let contentQ := q.content
  let common := GcdRing.gcd contentP contentQ
  if p.length = 1 ∨ q.length = 1 then constant common
  else (primitiveGcd q.length (p.unscale contentP) (q.unscale contentQ)).scale common

end Dense

end Shapeline
