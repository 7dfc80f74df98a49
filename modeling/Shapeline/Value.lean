import Shapeline.Numeric.Shortest
import Shapeline.Term.Simplify

/-!
# Parameter values

A layer parameter or a variable of a model holds a plain value or a dimension term. A plain integer
may stand wherever a dimension is wanted; no other plain value may.
-/

namespace Shapeline

/-- The value of a parameter or a variable. -/
inductive Value
  /-- No value. -/
  | absent
  /-- A truth value. -/
  | bool (value : Bool)
  /-- A plain integer. -/
  | int (value : Int)
  /-- A floating-point number. -/
  | real (value : Binary64)
  /-- A text. -/
  | text (value : String)
  /-- A dimension term. -/
  | dim (term : Term)
  /-- A list, which no parameter takes. -/
  | list (items : List Value)

namespace Value

/-- The word for the kind of a plain value that is no dimension. -/
def kind : Value → String
  | absent => "NoneType"
  | bool _ => "bool"
  | int _ => "int"
  | real _ => "float"
  | text _ => "str"
  | dim _ => "dimension"
  | list _ => "list"

mutual

/-- A value as it is written in a program, with text in quotes and terms taken apart. -/
def literal : Value → String
  | absent => "None"
  | bool value => if value then "True" else "False"
  | int value => toString value
  | real value => value.text
  | text value => Text.quoted value
  | dim term => term.inspect
  | list items => "[" ++ ", ".intercalate (literals items) ++ "]"

/-- The items of a list as they are written. -/
def literals : List Value → List String
  | [] => []
  | item :: rest => item.literal :: literals rest

end

/-- A value as it is shown: text without quotes and terms as they are written. -/
def display : Value → String
  | text value => value
  | dim term => term.text
  | value => value.literal

/-- The dimension term that a value is, if it is one. -/
def toTerm? : Value → Option Term
  | int value => some (.const value)
  | dim term => some term
  | _ => none

/-- The dimension term that a value is. -/
def toTerm (v : Value) : Outcome Term :=
  match v.toTerm? with
  | some term => pure term
  | none => throw (.notADimension v.kind)

/-- Whether a value may stand for a dimension. -/
def isDimension (v : Value) : Bool := v.toTerm?.isSome

/-- The exact number that a truth value or a plain number is; floating-point numbers without a
finite value have none. -/
def number? : Value → Option Rat
  | bool value => some (if value then 1 else 0)
  | int value => some value
  | real value => value.toRat?
  | _ => none

mutual

/-- Whether two values are equal. Numbers and truth values are compared by their exact numbers,
terms as trees, and a term never equals a plain value. -/
def equals : Value → Value → Bool
  | absent, absent => true
  | text a, text b => decide (a = b)
  | dim a, dim b => decide (a = b)
  | list a, list b => equalLists a b
  | real (.infinite a), real (.infinite b) => decide (a = b)
  | a, b =>
    match a.number?, b.number? with
    | some x, some y => decide (x = y)
    | _, _ => false

/-- Whether two lists have equal items at equal places. -/
def equalLists : List Value → List Value → Bool
  | [], [] => true
  | a :: as, b :: bs => equals a b && equalLists as bs
  | _, _ => false

end

end Value

/-- The substitution that a dictionary of values describes. A value that is no dimension is only
noticed where it is used. -/
def Substitution.ofValues (values : Dictionary Value) : Substitution := fun name =>
  (values.get? name).map Value.toTerm

/-- The entries that are dimensions, with the references between them replaced. -/
def resolveBindings (values : Dictionary Value) : Outcome (Dictionary Term) :=
  resolveReferences (values.filterMap fun _ value => value.toTerm?)

/-- The kinds of values that a parameter may be declared to hold. -/
inductive ValueKind
  /-- No default value; any value is accepted. -/
  | required
  | bool
  | int
  /-- An integer that is not negative. -/
  | uint
  | real
  /-- A dimension term. -/
  | dim
  | str
  deriving DecidableEq

namespace ValueKind

/-- All kinds in their order. -/
def all : List ValueKind := [required, bool, int, uint, real, dim, str]

/-- The name of a kind. -/
def name : ValueKind → String
  | required => "required"
  | bool => "bool"
  | int => "int"
  | uint => "uint"
  | real => "real"
  | dim => "dim"
  | str => "str"

/-- The kind with a certain name. -/
def ofName? (name : String) : Option ValueKind := all.find? (·.name = name)

/-- The kind of an integer. -/
def ofInt (n : Int) : ValueKind := if 0 ≤ n then uint else int

/-- The kind of a value. A term that is an integer as written counts as that integer. -/
def ofValue : Value → Outcome ValueKind
  | .absent => pure required
  | .bool _ => pure bool
  | .int n => pure (ofInt n)
  | .real _ => pure real
  | .text _ => pure str
  | .dim (.const n) => pure (ofInt n)
  | .dim _ => pure dim
  | .list items => throw (.unsupportedValue (Value.list items).literal)

/-- Whether a parameter of one kind accepts a value of another. Integers and dimensions may stand
for each other, as far as their signs allow, and integers for real numbers. -/
def accepts : ValueKind → ValueKind → Bool
  | required, _ => true
  | bool, given => decide (given = bool)
  | int, given => decide (given = int ∨ given = uint ∨ given = dim)
  | uint, given => decide (given = uint ∨ given = dim)
  | real, given => decide (given = real ∨ given = uint ∨ given = int)
  | dim, given => decide (given = dim ∨ given = uint ∨ given = int)
  | str, given => decide (given = str)

end ValueKind

end Shapeline
