import Shapeline.Names

/-!
# Dimension terms

The extent of an axis is a term over integers and named symbols. Terms keep the form in which the
author wrote them: two terms are equal only if they are the same tree. A placeholder stands for the
value of a layer parameter that nobody has set; it is a symbol like any other, but also tells where
it comes from.
-/

namespace Shapeline

/-- The operators of terms. -/
inductive Operator
  | add
  | sub
  | mul
  | div
  deriving DecidableEq

namespace Operator

/-- The operator as it is written. -/
def symbol : Operator → String
  | add => "+"
  | sub => "-"
  | mul => "*"
  | div => "/"

/-- The operator that is written in a certain way. -/
def ofSymbol? (symbol : String) : Option Operator :=
  [add, sub, mul, div].find? (·.symbol = symbol)

/-- How tightly an operator binds. -/
def precedence : Operator → Nat
  | add => 1
  | sub => 1
  | mul => 2
  | div => 2

end Operator

/-- A symbol for the value of a layer parameter that nobody has set. -/
structure Placeholder where
  /-- The name of the symbol. -/
  name : String
  /-- The number of the node where the parameter is missing. -/
  node : Int
  /-- The layer type that the parameter belongs to. -/
  layer : String
  /-- The name of the parameter. -/
  parameter : String
  deriving DecidableEq

/-- A term over integers and symbols. -/
inductive Term
  /-- An integer. -/
  | const (value : Int)
  /-- A symbol of the author. -/
  | sym (name : String)
  /-- A symbol for a parameter that nobody has set. -/
  | hole (placeholder : Placeholder)
  /-- An operator applied to two terms. -/
  | op (operator : Operator) (left right : Term)
  deriving DecidableEq

namespace Term

/-- The names of the symbols of a term. A placeholder counts by its name. -/
def symbols : Term → List String
  | const _ => []
  | sym name => [name]
  | hole p => [p.name]
  | op _ left right => Names.union left.symbols right.symbols

/-- The placeholders of a term from left to right, with repetitions. -/
def placeholders : Term → List Placeholder
  | const _ => []
  | sym _ => []
  | hole p => [p]
  | op _ left right => left.placeholders ++ right.placeholders

/-- The opposite of a term. An integer is replaced by its opposite, every other term is subtracted
from zero. -/
def negate : Term → Term
  | const n => const (-n)
  | t => op .sub (const 0) t

/-- The integer that a term is, if it is one as written. -/
def const? : Term → Option Int
  | const n => some n
  | _ => none

end Term

end Shapeline
