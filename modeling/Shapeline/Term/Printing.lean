import Shapeline.Term.Basic
import Shapeline.Text.Quoted

/-!
# Printing terms

A term is printed with as few parentheses as its reading needs: multiplication and division bind
tighter than addition and subtraction, and operators of equal strength group to the left. A negative
integer on the right of an operator stands in parentheses.
-/

namespace Shapeline.Term

/-- Whether a term needs parentheses as the left operand of an operator. -/
def needsParensLeft (outer : Operator) : Term → Bool
  | op inner _ _ => decide (inner.precedence < outer.precedence)
  | _ => false

/-- Whether a term needs parentheses as the right operand of an operator. -/
def needsParensRight (outer : Operator) : Term → Bool
  | const n => decide (n < 0)
  | op inner _ _ =>
    decide (inner.precedence < outer.precedence) ||
      (decide (inner.precedence = outer.precedence) && decide (outer = .sub ∨ outer = .div))
  | _ => false

/-- Put a text in parentheses if a condition holds. -/
def parenthesize (needed : Bool) (text : String) : String :=
  if needed then "(" ++ text ++ ")" else text

/-- A term as it is written. -/
def text : Term → String
  | const n => toString n
  | sym name => name
  | hole p => p.name
  | op o left right =>
    parenthesize (left.needsParensLeft o) left.text ++ " " ++ o.symbol ++ " " ++
      parenthesize (right.needsParensRight o) right.text

/-- The number of digits that an integer may have where the length of numbers is limited. -/
def maxDigits : Nat := 4300

/-- Whether a term can be written where the length of numbers is limited. -/
def isWritable : Term → Bool
  | const n => decide (n.natAbs < 10 ^ maxDigits)
  | sym _ => true
  | hole _ => true
  | op _ left right => left.isWritable && right.isWritable

/-- A term as nested constructor applications, for inspection. -/
def inspect : Term → String
  | const n => s!"ConcreteDimValue({n})"
  | sym name => "Dim(" ++ Text.quoted name ++ ")"
  | hole p => "Placeholder(" ++ Text.quoted p.name ++ ")"
  | op o left right =>
    "DimExpr(" ++ Text.quoted o.symbol ++ ", " ++ left.inspect ++ ", " ++ right.inspect ++ ")"

end Shapeline.Term
