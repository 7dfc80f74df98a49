import Shapeline.Algebra.Fraction
import Shapeline.Failure
import Shapeline.Term.Printing

/-!
# Normal forms

A term denotes a rational function of its symbols. Its normal form is the reduced fraction of
polynomials over those symbols in ascending order. A division is defined only if the divisor is not
the zero function; a divisor such as `x - x` is therefore as illegal as the integer zero. Two terms
are equivalent when they denote the same function.
-/

namespace Shapeline.Term

/-- The fraction that a term denotes over a list of names. The names of the list are the variables
of the fraction, and the list holds every symbol of the term. -/
def fraction (names : List String) : Term → Outcome (Fraction names.length)
  | const n => pure (.ofInt _ n)
  | sym name => pure (.indeterminate _ (names.idxOf name))
  | hole p => pure (.indeterminate _ (names.idxOf p.name))
  | op o left right => do
    let l ← left.fraction names
    let r ← right.fraction names
    match o with
    | .add => pure (l + r)
    | .sub => pure (l - r)
    | .mul => pure (l * r)
    | .div =>
      if r.isZero then throw (.problem (.divisionByZero (op .div left right).text))
      else pure (l / r)

/-- The normal form of a term, over its own symbols. -/
def normalForm (t : Term) : Outcome (Fraction t.symbols.length) := t.fraction t.symbols

/-- Whether a term denotes the zero function. -/
def isZero (t : Term) : Outcome Bool := do return (← t.normalForm).isZero

/-- The quotient of two terms, which exists unless the divisor denotes the zero function. -/
def divide (left right : Term) : Outcome Term := do
  if ← right.isZero then
    throw (.problem (.divisionByZero (left.text ++ " / " ++ right.text)))
  else pure (op .div left right)

/-- An operator applied to two terms, with the divisor checked. -/
def apply (o : Operator) (left right : Term) : Outcome Term :=
  match o with
  | .div => divide left right
  | o => pure (op o left right)

/-- Whether two terms denote the same function. -/
def equivalent (a b : Term) : Outcome Bool :=
  if a = b then pure true
  else do
    let names := Names.union a.symbols b.symbols
    let l ← a.fraction names
    let r ← b.fraction names
    pure (l - r).isZero

/-- Whether a term denotes a constant function. -/
def isConcrete (t : Term) : Outcome Bool := do return (← t.normalForm).constant?.isSome

/-- The number that a constant term denotes. -/
def concreteValue (t : Term) : Outcome Rat := do
  match (← t.normalForm).constant? with
  | some value => pure value
  | none => throw .notConstant

/-- One term of a polynomial over named symbols: its factor and its powers of symbols. -/
structure NamedMonomial where
  /-- The integer factor. -/
  coefficient : Int
  /-- The symbols that occur, in ascending order, each with its exponent. -/
  powers : List (String × Nat)
  deriving DecidableEq

/-- The monomials of a polynomial over named symbols, in descending lexicographic order. -/
def namedMonomials (names : List String) (p : Poly names.length) : List NamedMonomial :=
  (Poly.monomials _ p).map fun m =>
    ⟨m.coefficient, (names.zip m.exponents).filter fun (_, exponent) => decide (exponent ≠ 0)⟩

/-- A fraction of polynomials over named symbols. -/
structure NamedFraction where
  /-- The monomials above the bar. -/
  num : List NamedMonomial
  /-- The monomials below the bar. -/
  den : List NamedMonomial
  deriving DecidableEq

/-- The normal form of a term, written out. Unlike a fraction it can be compared with that of a term
with other symbols. -/
def writtenForm (t : Term) : Outcome NamedFraction := do
  let f ← t.normalForm
  return ⟨namedMonomials t.symbols f.num, namedMonomials t.symbols f.den⟩

end Shapeline.Term
