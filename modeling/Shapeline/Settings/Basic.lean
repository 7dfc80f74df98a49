import Shapeline.Numeric.Shortest
import Shapeline.Settings.Moment
import Shapeline.Text.Quoted

/-!
# Settings

The values that a settings document holds: plain values, lists of values, and mappings from values
to values in the order of the document. What a mapping means is decided where it is used.
-/

namespace Shapeline

/-- A value of a settings document. -/
inductive Setting
  /-- No value. -/
  | null
  /-- A truth value. -/
  | bool (value : Bool)
  /-- An integer. -/
  | int (value : Int)
  /-- A floating-point number. -/
  | real (value : Binary64)
  /-- A day. -/
  | date (value : Date)
  /-- A time on a day. -/
  | moment (value : Moment)
  /-- A text. -/
  | text (value : String)
  /-- A list. -/
  | list (items : List Setting)
  /-- A mapping, given by its keys and their values. -/
  | mapping (entries : List (Setting × Setting))

instance : Inhabited Setting := ⟨.null⟩

namespace Setting

/-- The word for the kind of a value. -/
def kind : Setting → String
  | null => "NoneType"
  | bool _ => "bool"
  | int _ => "int"
  | real _ => "float"
  | date _ => "date"
  | moment _ => "datetime"
  | text _ => "str"
  | list _ => "list"
  | mapping _ => "dict"

mutual

/-- A value as it is written in messages, with text in quotes. -/
def literal : Setting → String
  | null => "None"
  | bool value => if value then "True" else "False"
  | int value => toString value
  | real value => value.text
  | date value => value.literal
  | moment value => value.literal
  | text value => Text.quoted value
  | list items => "[" ++ ", ".intercalate (literals items) ++ "]"
  | mapping entries => "\x7b" ++ ", ".intercalate (entryLiterals entries) ++ "\x7d"

/-- The items of a list as they are written. -/
def literals : List Setting → List String
  | [] => []
  | item :: rest => item.literal :: literals rest

/-- The entries of a mapping as they are written. -/
def entryLiterals : List (Setting × Setting) → List String
  | [] => []
  | (key, value) :: rest => (key.literal ++ ": " ++ value.literal) :: entryLiterals rest

end

/-- A value as it is shown: text without quotes, a day or a time in figures, everything else as it
is written. -/
def display : Setting → String
  | date value => value.text
  | moment value => value.text
  | text value => value
  | value => value.literal

/-- The text that a value is, if it is one. -/
def text? : Setting → Option String
  | text value => some value
  | _ => none

/-- Whether a value says nothing: no value, a false one, the number zero, an empty text, an empty
list or an empty mapping. -/
def isVoid : Setting → Bool
  | null => true
  | bool value => !value
  | int value => decide (value = 0)
  | real value => decide (value.toRat? = some 0)
  | date _ => false
  | moment _ => false
  | text value => decide (value = "")
  | list items => items.isEmpty
  | mapping entries => entries.isEmpty

/-- The number that a value stands for among keys, if it is finite. The truth values stand for one
and zero. -/
def number? : Setting → Option Rat
  | bool value => some (if value then 1 else 0)
  | int value => some value
  | real value => value.toRat?
  | _ => none

/-- Whether two values are the same key of a mapping. Numbers of different kinds are compared by
value; lists and mappings are no keys. -/
def sameKey : Setting → Setting → Bool
  | null, null => true
  | text a, text b => decide (a = b)
  | date a, date b => decide (a = b)
  | moment a, moment b => a.same b
  | real a, real b => decide (a = b ∨ a.toRat?.isSome ∧ a.toRat? = b.toRat?)
  | a, b => decide (a.number?.isSome ∧ a.number? = b.number?)

/-- Whether a value can be a key of a mapping. -/
def isKey : Setting → Bool
  | list _ => false
  | mapping _ => false
  | _ => true

/-- The entries of a mapping with a further one. If the key occurs already, its value is replaced
and it keeps its place. -/
def insert (key value : Setting) : List (Setting × Setting) → List (Setting × Setting)
  | [] => [(key, value)]
  | (k, v) :: rest =>
    if k.sameKey key then (k, value) :: rest else (k, v) :: insert key value rest

/-- The value of the last entry of a mapping that has a text as its key. -/
def entry? (entries : List (Setting × Setting)) (name : String) : Option Setting :=
  (entries.reverse.find? fun (key, _) => decide (key.text? = some name)).map Prod.snd

end Setting

end Shapeline
