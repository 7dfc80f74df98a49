import Shapeline.Algebra.Dense

/-!
# Greatest common divisors of polynomials

Division alone finds every greatest common divisor, but in several variables its remainders grow
beyond reach. Two quick steps come before it, and both are certain whatever they meet.

A common factor of two polynomials keeps its degree when all other variables are put to integers, as
long as one leading coefficient does not become zero. If the polynomials in one variable that remain
have only constants in common, the greatest common divisor is therefore that of all coefficients.

Otherwise a common factor is guessed from the values of the polynomials at one large point. If the
guess divides both, it is split off, and the cofactors are treated in the same way; if it does not,
it is dropped. Division alone is the last resort.
-/

namespace Shapeline.Dense

variable {R : Type} [GcdRing R]

/-- The polynomial in one variable that is left when every other variable is put to an integer. -/
def image (point : List Nat) (p : Dense R) : Dense Int :=
  ofList (p.coeffs.map (GcdRing.value point))

/-- Whether the images at a point show that two polynomials have no common factor in which the
variable occurs: one of them keeps its degree, and the images share constants only. -/
def coprimeAt (point : List Nat) (p q : Dense R) : Bool :=
  let imageP := p.image point
  let imageQ := q.image point
  decide ((imageP.length = p.length ∨ imageQ.length = q.length) ∧
    imageP ≠ 0 ∧ imageQ ≠ 0 ∧ (divisionGcd imageP imageQ).length = 1)

/-- The value at a point, by Horner's scheme on the variable. -/
def value (point : List Nat) (p : Dense R) : Int :=
  p.coeffs.foldr (fun a rest => GcdRing.value point.tail a + point.headD 0 * rest) 0

/-- The polynomial whose coefficients are the digits of an integer in the base of the first place,
each spread out over the other places. -/
def ofDigits (places : List Place) (a : Int) : Dense R :=
  match places with
  | [] => constant (GcdRing.ofDigits [] a)
  | place :: inner =>
    ofList ((Place.balancedDigits place.digits place.base a).map (GcdRing.ofDigits inner))

/-- The integers that a polynomial is made of. -/
def integers (p : Dense R) : List Int := p.coeffs.flatMap GcdRing.integers

/-- The degree in each variable, the outermost one first. -/
def degrees (p : Dense R) : List Nat :=
  (p.length - 1) :: (p.coeffs.map GcdRing.degrees).foldl pointwiseMax []

/-- The largest of the integers that a polynomial is made of, signs aside. -/
def height (p : Dense R) : Nat := p.integers.foldl (fun bound a => max bound a.natAbs) 0

/-- A guess at a common factor, without an integer factor: the greatest common divisor of the values
at a large point, read back as a polynomial. Later trials leave more room for an integer that the
values happen to share. -/
def guessFactor (trial : Nat) (p q : Dense R) : Dense R :=
  let places := (Place.choose (Nat.pow 1009 (trial + 1)) (min p.height q.height)
    (List.zipWith min p.degrees q.degrees)).1
  let point := places.map Place.base
  let guess : Dense R := ofDigits places (Int.gcd (p.value point) (q.value point))
  let scale := GcdRing.gcdList guess.integers
  guess.unscale (GcdRing.ofInt scale)

/-- Split a guessed common factor off two polynomials: the factor and the two cofactors, if the
guess is one. -/
def splitFactor? (trial : Nat) (p q : Dense R) : Option (Dense R × Dense R × Dense R) := do
  let factor := guessFactor trial p q
  let cofactorP ← p.quotient? factor
  let cofactorQ ← q.quotient? factor
  pure (factor, cofactorP, cofactorQ)

/-- The greatest common divisor of two polynomials that are not zero, by the quick steps of the
given trials. -/
def gcdWithin : List Nat → Dense R → Dense R → Dense R
  | [], p, q => divisionGcd p q
  | trial :: trials, p, q =>
    if p = 1 ∨ q = 1 then 1
    else if p.length = 1 ∨ q.length = 1 ∨
        p.coprimeAt (smallPoint trial (p.degrees.length - 1)) q then
      constant (GcdRing.gcdList (p.coeffs ++ q.coeffs))
    else
      match splitFactor? trial p q with
      | some (factor, cofactorP, cofactorQ) => gcdWithin trials cofactorP cofactorQ * factor
      | none => gcdWithin trials p q

/-- The number of zero coefficients below the first that is not zero. -/
def order (p : Dense R) : Nat := (p.coeffs.takeWhile fun a => decide (a = 0)).length

/-- Divide by a power of the variable that occurs in every term. -/
def unshift (p : Dense R) (k : Nat) : Dense R := ofList (p.coeffs.drop k)

/-- The greatest common divisor of two polynomials. The power of the variable that both contain is
split off first. -/
def gcd (p q : Dense R) : Dense R :=
  if p = 0 then q
  else if q = 0 then p
  else
    let common := min p.order q.order
    (gcdWithin (List.range 5) (p.unshift common) (q.unshift common)).shift common

instance : GcdRing (Dense R) where
  quotient? := quotient?
  gcd := gcd
  isNegative p := GcdRing.isNegative p.lead
  decEq := inferInstance
  ofInt a := constant (GcdRing.ofInt a)
  value := value
  ofDigits := ofDigits
  integers := integers
  degrees := degrees

end Shapeline.Dense
