import Shapeline.Settings.Basic
import Shapeline.Settings.Flaw

/-!
# Scalars of settings documents

A scalar is a value written in a single piece. If it does not stand in quotes, its form decides what
it is: nothing or a tilde is no value, certain words are truth values, numerals are numbers, figures
in the form of a day or a time are one, and everything else is a text.
-/

namespace Shapeline.Scalar

/-- The words for a missing value. -/
def nullWords : List String := ["", "~", "null", "Null", "NULL"]

/-- The words for what is true. -/
def trueWords : List String :=
  ["yes", "Yes", "YES", "true", "True", "TRUE", "on", "On", "ON"]

/-- The words for what is false. -/
def falseWords : List String :=
  ["no", "No", "NO", "false", "False", "FALSE", "off", "Off", "OFF"]

/-- The words of the format that stand for no value of their own. -/
def reservedWords : List String := ["=", "<<"]

/-- The value of a hexadecimal digit, if the character is one. -/
def hexValue? (c : Char) : Option Nat :=
  if c.isDigit then some (c.toNat - '0'.toNat)
  else if 'a' ≤ c ∧ c ≤ 'f' then some (c.toNat - 'a'.toNat + 10)
  else if 'A' ≤ c ∧ c ≤ 'F' then some (c.toNat - 'A'.toNat + 10)
  else none

/-- The number that digits to a base denote. Underscores between them only group the digits. -/
def digitsToBase? (base : Nat) (digits : List Char) : Option Nat :=
  if digits = [] then none
  else
    (digits.filter (· ≠ '_')).foldlM (fun value c => do
      let digit ← hexValue? c
      if digit < base then some (base * value + digit) else none) 0

/-- The integer that an unsigned numeral denotes. A leading zero tells the base: eight, two with the
letter `b`, sixteen with the letter `x`. -/
def unsignedInteger? : List Char → Option Nat
  | ['0'] => some 0
  | '0' :: 'b' :: digits => digitsToBase? 2 digits
  | '0' :: 'x' :: digits => digitsToBase? 16 digits
  | '0' :: digits => digitsToBase? 8 digits
  | '_' :: _ => none
  | digits => digitsToBase? 10 digits

/-- The integer that a numeral denotes. -/
def integer? (word : List Char) : Option Int :=
  let (negative, digits) := Binary64.splitSign word
  (unsignedInteger? digits).map fun n => if negative then -(n : Int) else n

/-- Whether a numeral to base two or sixteen has no digits, but underscores in their place. -/
def lacksDigits (word : List Char) : Bool :=
  match (Binary64.splitSign word).2 with
  | '0' :: base :: rest => (base == 'b' || base == 'x') && !rest.isEmpty && rest.all (· == '_')
  | _ => false

/-- Whether a character may stand in a run of decimal digits. -/
def isGroupedDigit (c : Char) : Bool := c.isDigit || c == '_'

/-- Whether a text is an exponent: nothing, or the letter `e`, a sign and digits. -/
def isExponent : List Char → Bool
  | [] => true
  | e :: sign :: digits =>
    e.toLower == 'e' && (sign == '+' || sign == '-') && !digits.isEmpty && digits.all Char.isDigit
  | _ => false

/-- Whether an unsigned text is a decimal numeral with a point. Digits before the point are needed
if there is a sign. -/
def isPointed (signed : Bool) (digits : List Char) : Bool :=
  let whole := digits.takeWhile isGroupedDigit
  match digits.dropWhile isGroupedDigit with
  | '.' :: rest =>
    let fraction := rest.takeWhile isGroupedDigit
    let leads := (whole.head?.map Char.isDigit).getD
      (!signed && (fraction.head?.map Char.isDigit).getD false)
    leads && isExponent (rest.dropWhile isGroupedDigit)
  | _ => false

/-- The floating-point number that a numeral denotes. -/
def real? (word : List Char) : Option Binary64 :=
  let (negative, digits) := Binary64.splitSign word
  let signed := decide (digits.length < word.length)
  if [".inf", ".Inf", ".INF"].contains (String.ofList digits) then some (.infinite negative)
  else if [".nan", ".NaN", ".NAN"].contains (String.ofList word) then some .nan
  else if isPointed signed digits then
    Binary64.ofText? (String.ofList (word.filter (· ≠ '_')))
  else none

/-- Whether a text is a numeral below sixty. -/
def isSixtieth : List Char → Bool
  | [c] => c.isDigit
  | [tens, ones] => decide (tens < '6') && tens.isDigit && ones.isDigit
  | _ => false

/-- The parts of an unsigned numeral to base sixty, which are separated by colons: a run of decimal
digits, and one or more numerals below sixty, of which the last may have a point. -/
def sixtyParts? (digits : List Char) : Option (List (List Char)) :=
  let parts := ((String.ofList digits).splitOn ":").map String.toList
  match parts with
  | first :: second :: rest =>
    let whole := (second :: rest).map fun part => part.takeWhile (· != '.')
    let suits := first.head?.any Char.isDigit && first.all isGroupedDigit && whole.all isSixtieth
    if suits then some (parts.map (·.filter (· ≠ '_'))) else none
  | _ => none

/-- The integer that a numeral to base sixty denotes. -/
def sixtyInteger? (word : List Char) : Option Int := do
  let (negative, digits) := Binary64.splitSign word
  let parts ← sixtyParts? digits
  if digits.head? = some '0' ∨ parts.any (·.contains '.') then none
  else
    let n := parts.foldl (fun value part => 60 * value + Binary64.digitsValue part) 0
    some (if negative then -(n : Int) else n)

/-- The nonnegative number that a finite one denotes. -/
def magnitude (x : Binary64) : Rat := (x.toRat?.getD 0).abs

/-- The number nearest to a nonnegative one. -/
def nearest (x : Rat) : Binary64 := .ofRatio false x.num.natAbs x.den

/-- The sum of numbers times rising powers of sixty. Every product and every sum is rounded. -/
def sixtySum : Nat → Binary64 → List Binary64 → Binary64
  | _, sum, [] => sum
  | weight, sum, x :: rest =>
    let product := nearest (magnitude x * weight)
    sixtySum (60 * weight) (nearest (magnitude sum + magnitude product)) rest

/-- The floating-point number that a numeral to base sixty with a point at its last part denotes. -/
def sixtyReal? (word : List Char) : Option Binary64 := do
  let (negative, digits) := Binary64.splitSign word
  let parts ← sixtyParts? digits
  let last := parts.getLastD []
  let fraction := (last.dropWhile (· != '.')).drop 1
  if parts.dropLast.any (·.contains '.') ∨ !last.contains '.' ∨ !fraction.all Char.isDigit then none
  else
    let numbers ← parts.mapM fun part => Binary64.ofText? (String.ofList part)
    let sum := sixtySum 1 (nearest 0) numbers.reverse
    some (if negative then sum.negate else sum)

/-- The number that a run of decimal digits denotes at the start of a text, and what comes after it.
The run is as long as possible within bounds. -/
def figures? (least most : Nat) (text : List Char) : Option (Nat × List Char) :=
  let digits := (text.take most).takeWhile Char.isDigit
  if digits.length < least then none
  else some (Binary64.digitsValue digits, text.drop digits.length)

/-- The text behind a certain character. -/
def behind? (c : Char) : List Char → Option (List Char)
  | [] => none
  | d :: rest => if d = c then some rest else none

/-- The distance from universal time that ends a time: none, the letter `Z`, or a sign, hours and
perhaps minutes. -/
def zone? (text : List Char) : Option (Option Int) :=
  match text.dropWhile (· == ' ') with
  | [] => if text = [] then some none else none
  | ['Z'] => some (some 0)
  | sign :: rest => do
    if sign ≠ '+' ∧ sign ≠ '-' then none
    let (hours, rest) ← figures? 1 2 rest
    let minutes ←
      match rest with
      | [] => some 0
      | rest => do
        let (minutes, rest) ← figures? 2 2 (← behind? ':' rest)
        if rest = [] then some minutes else none
    let distance : Int := 60 * hours + minutes
    some (some (if sign = '-' then -distance else distance))

/-- The millionths that the digits behind a point denote. Further digits are dropped. -/
def millionths (digits : List Char) : Nat :=
  Binary64.digitsValue ((digits ++ List.replicate 6 '0').take 6)

/-- The day or the time that figures of the right form denote. The day stands first; a time follows
behind the letter `t` or blanks, in hours, minutes and seconds. The result is missing if the form is
another one, and holds nothing if the calendar or the clock does not have it. -/
def moment? (word : List Char) : Option (Option Setting) := do
  let (year, rest) ← figures? 4 4 word
  let (month, rest) ← figures? 1 2 (← behind? '-' rest)
  let (day, rest) ← figures? 1 2 (← behind? '-' rest)
  if rest = [] then
    if word.length = 10 then some ((Date.of? year month day).map Setting.date) else none
  else
    let blanks := rest.takeWhile (· == ' ')
    let rest ←
      if blanks ≠ [] then some (rest.drop blanks.length)
      else if rest.head? = some 't' ∨ rest.head? = some 'T' then some (rest.drop 1)
      else none
    let (hour, rest) ← figures? 1 2 rest
    let (minute, rest) ← figures? 2 2 (← behind? ':' rest)
    let (second, rest) ← figures? 2 2 (← behind? ':' rest)
    let pointed := decide (rest.head? = some '.')
    let fraction := if pointed then (rest.drop 1).takeWhile Char.isDigit else []
    let ahead ← zone? (rest.drop (pointed.toNat + fraction.length))
    some do
      let date ← Date.of? year month day
      (Moment.of? date hour minute second (millionths fraction) ahead).map Setting.moment

/-- The value of a scalar without quotes. -/
def plain (word : List Char) : Except DocumentFlaw Setting :=
  let text := String.ofList word
  if nullWords.contains text then pure .null
  else if trueWords.contains text then pure (.bool true)
  else if falseWords.contains text then pure (.bool false)
  else if reservedWords.contains text then throw .word
  else if lacksDigits word then throw .range
  else
    match integer? word <|> sixtyInteger? word, real? word <|> sixtyReal? word, moment? word with
    | some n, _, _ => pure (.int n)
    | none, some x, _ => pure (.real x)
    | none, none, some (some value) => pure value
    | none, none, some none => throw .range
    | none, none, none => pure (.text text)

end Shapeline.Scalar
