import Shapeline.Shape

/-!
# Parameters

The parameters of a layer: values by name, in the order in which they were first set.
-/

namespace Shapeline

/-- Parameter values by name. -/
abbrev Parameters := Dictionary Value

namespace Parameters

/-- A value inside the printed form of parameters: terms as they are written, everything else as in
a program. -/
def entryText : Value → String
  | .dim term => term.text
  | value => value.literal

/-- Parameters with the name of their kind, for inspection. -/
def inspect (p : Parameters) : String :=
  "ParameterSet(\x7b" ++
    ", ".intercalate (p.entries.map fun (name, value) =>
      Text.quoted name ++ ": " ++ entryText value) ++
    "\x7d)"

/-- The parameters with some values set or replaced. -/
def merged (p overrides : Parameters) : Parameters := p.insertAll overrides.entries

/-- Replace the symbols of every value that is a term. -/
def substitute (σ : Substitution) (p : Parameters) : Outcome Parameters :=
  p.traverse fun _ value =>
    match value with
    | .dim term => do return .dim (← term.substitute σ)
    | value => pure value

/-- A parameter as a dimension term. A parameter without a value gives none, and the default stands
for one that is not there at all. -/
def dimension (p : Parameters) (name : String) (default : Value) : Outcome (Option Term) :=
  match (p.get? name).getD default with
  | .absent => pure none
  | value => do return some (← value.toTerm)

/-- A parameter that has a value. -/
def given? (p : Parameters) (name : String) : Option Value :=
  match p.get? name with
  | some .absent => none
  | value => value

/-- The parameters with their terms written out. -/
def plain (p : Parameters) : Parameters := p.map fun _ value => value.plain

end Parameters

end Shapeline
