import Shapeline.Numeric.Binary64

/-!
# The shortest decimal numeral

A floating-point number is written with the fewest decimal digits that read back as the same number,
and of those with the digits nearest to it. The numbers that round to a given one form an interval
whose ends lie half way to its neighbours; the ends belong to it exactly when the mantissa is even.
For each count of digits the two decimals around the number are tried against that interval.
-/

namespace Shapeline

/-- A decimal fraction `digits * 10 ^ exponent`. -/
structure Decimal where
  /-- The digits, read as one whole number. -/
  digits : Nat
  /-- The power of ten. -/
  exponent : Int
  deriving DecidableEq

namespace Shortest

/-- The interval of numbers that round to a floating-point number, in units so small that the number
and both ends are whole. -/
structure Interval where
  /-- The lower end. -/
  low : Nat
  /-- The number itself. -/
  value : Nat
  /-- The upper end. -/
  high : Nat
  /-- Whether the ends round to the number too. -/
  closed : Bool
  /-- The number of units in one. -/
  unit : Nat

/-- The interval around `mantissa * 2 ^ exponent`. Below a power of two the neighbours lie closer
together. -/
def interval (mantissa : Nat) (exponent : Int) : Interval :=
  let factor := twoTo exponent.toNat
  let lower := if mantissa = twoTo 52 ∧ Binary64.minExponent < exponent then 1 else 2
  { low := (4 * mantissa - lower) * factor
    value := 4 * mantissa * factor
    high := (4 * mantissa + 2) * factor
    closed := mantissa % 2 = 0
    unit := 4 * twoTo (-exponent).toNat }

/-- Whether a multiple of a grid's step, both counted in units, lies in the interval. -/
def Interval.admits (i : Interval) (point : Nat) : Bool :=
  if i.closed then decide (i.low ≤ point ∧ point ≤ i.high)
  else decide (i.low < point ∧ point < i.high)

/-- The largest power of ten that is not above `num / den`, searched downward from a bound. -/
def magnitudeFrom (num den : Nat) : Nat → Int → Int
  | 0, power => power
  | rounds + 1, power =>
    let fits :=
      if 0 ≤ power then decide (den * tenTo power.toNat ≤ num)
      else decide (den ≤ num * tenTo (-power).toNat)
    if fits then power else magnitudeFrom num den rounds (power - 1)

/-- The exponent of the leading decimal digit of a positive ratio. -/
def magnitude (num den : Nat) : Int :=
  let bound : Int := (Binary64.digitCount num : Int) - Binary64.digitCount den
  magnitudeFrom num den 2 bound

/-- The decimal nearest to the number among the two around it with the given power of ten, if it
lies in the interval. -/
def candidate? (i : Interval) (power : Int) : Option Decimal :=
  let factor := tenTo (-power).toNat
  let step := i.unit * tenTo power.toNat
  let scaled : Interval :=
    { i with low := i.low * factor, value := i.value * factor, high := i.high * factor }
  let below := scaled.value / step
  let above := below + 1
  let gapBelow := scaled.value - below * step
  let gapAbove := above * step - scaled.value
  match scaled.admits (below * step), scaled.admits (above * step) with
  | true, false => some ⟨below, power⟩
  | false, true => some ⟨above, power⟩
  | true, true =>
    if gapBelow < gapAbove ∨ (gapBelow = gapAbove ∧ below % 2 = 0) then some ⟨below, power⟩
    else some ⟨above, power⟩
  | false, false => none

/-- The first candidate as the number of digits grows. -/
def search (i : Interval) : Nat → Int → Decimal
  | 0, power => ⟨i.value / i.unit, power⟩
  | rounds + 1, power =>
    match candidate? i power with
    | some decimal => decimal
    | none => search i rounds (power - 1)

/-- The shortest decimal that reads back as the positive number `mantissa * 2 ^ exponent`. Seventeen
digits always suffice. -/
def decimal (mantissa : Nat) (exponent : Int) : Decimal :=
  let i := interval mantissa exponent
  search i 18 (magnitude i.value i.unit)

end Shortest

/-- The choices that lay out a numeral. -/
structure NumeralLayout where
  /-- The smallest exponent of a leading digit that is written without a power of ten. -/
  leastPositional : Int
  /-- The first exponent that is too large to be written without a power of ten. -/
  positionalLimit : Int
  /-- The least number of digits of a written power of ten. -/
  exponentWidth : Nat
  /-- What follows the point of a whole number. -/
  emptyFraction : String
  /-- The name of infinity. -/
  infinity : String
  /-- The name of the missing value. -/
  missing : String

/-- Numbers from `1e-04` up to `1e+16` are written without a power of ten, whole ones end in `.0`,
and a power of ten has a sign and two digits or more. -/
def NumeralLayout.standard : NumeralLayout where
  leastPositional := -4
  positionalLimit := 16
  exponentWidth := 2
  emptyFraction := "0"
  infinity := "inf"
  missing := "nan"

namespace NumeralLayout

/-- The digits of a decimal, whose leading digit stands for the given power of ten, with a point. -/
def positional (layout : NumeralLayout) (digits : List Char) (exponent : Int) : List Char :=
  if exponent < 0 then
    '0' :: '.' :: List.replicate (-exponent - 1).toNat '0' ++ digits
  else
    let whole := exponent.toNat + 1
    let fraction := digits.drop whole
    digits.take whole ++ List.replicate (whole - digits.length) '0' ++ '.' ::
      (if fraction = [] then layout.emptyFraction.toList else fraction)

/-- The digits of a decimal with a power of ten written behind them. -/
def scientific (layout : NumeralLayout) (digits : List Char) (exponent : Int) : List Char :=
  let power := Nat.toDigits 10 exponent.natAbs
  let mantissa :=
    match digits with
    | first :: second :: rest => first :: '.' :: second :: rest
    | short => short
  mantissa ++ 'e' :: (if exponent < 0 then '-' else '+') ::
    (List.replicate (layout.exponentWidth - power.length) '0' ++ power)

/-- The digits without the zeros that end them; the first digit stays. -/
def significant (digits : List Char) : List Char :=
  match (digits.reverse.dropWhile (· = '0')).reverse with
  | [] => digits.take 1
  | kept => kept

/-- The numeral of a decimal. -/
def ofDecimal (layout : NumeralLayout) (d : Decimal) : List Char :=
  let written := Nat.toDigits 10 d.digits
  let exponent := d.exponent + written.length - 1
  let digits := significant written
  if layout.leastPositional ≤ exponent ∧ exponent < layout.positionalLimit then
    layout.positional digits exponent
  else layout.scientific digits exponent

end NumeralLayout

/-- The shortest numeral of a floating-point number. -/
def Binary64.text : Binary64 → String
  | .nan => NumeralLayout.standard.missing
  | .infinite negative => signed negative NumeralLayout.standard.infinity.toList
  | .finite negative mantissa exponent =>
    signed negative (NumeralLayout.standard.ofDecimal
      (if mantissa = 0 then ⟨0, 0⟩ else Shortest.decimal mantissa exponent))
where
  signed (negative : Bool) (digits : List Char) : String :=
    String.ofList (if negative then '-' :: digits else digits)

end Shapeline
