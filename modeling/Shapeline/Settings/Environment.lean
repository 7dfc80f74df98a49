import Shapeline.Settings.Basic

/-!
# References to the environment

A text among the settings may refer to variables of the environment. A reference is a dollar sign
with a name in braces; the name is everything up to the next closing brace. A reference to a
variable that is not set stays as it is, and the values put in are not searched for further
references.
-/

namespace Shapeline

/-- The variables of the environment with their values. -/
abbrev Environment := String → Option String

/-- A part of a text. -/
inductive Fragment
  /-- A character that stands for itself. -/
  | plain (c : Char)
  /-- A reference to a variable. -/
  | reference (name : String)

/-- The parts of a text. -/
def fragments : List Char → List Fragment
  | [] => []
  | '$' :: '\x7b' :: rest =>
    let name := rest.takeWhile (· != '\x7d')
    let after := rest.dropWhile (· != '\x7d')
    if name = [] ∨ after = [] then .plain '$' :: .plain '\x7b' :: fragments rest
    else .reference (String.ofList name) :: fragments (after.drop 1)
  | c :: rest => .plain c :: fragments rest
termination_by text => text.length
decreasing_by
  · simp only [List.length_cons]
    omega
  · have hlength := (List.dropWhile_sublist (· != '\x7d') (l := rest)).length_le
    simp only [List.length_drop, List.length_cons]
    omega
  · simp only [List.length_cons]
    omega

namespace Fragment

/-- A part with the value of its variable put in, if the variable is set. -/
def expand (env : Environment) : Fragment → String
  | plain c => c.toString
  | reference name => (env name).getD ("$\x7b" ++ name ++ "\x7d")

/-- The variable that a part refers to although it is not set. -/
def missing? (env : Environment) : Fragment → Option String
  | plain _ => none
  | reference name => if (env name).isSome then none else some name

end Fragment

namespace Setting

mutual

/-- A value with the variables put in everywhere except in the keys of mappings. -/
def expand (env : Environment) : Setting → Setting
  | text value => text (String.join ((fragments value.toList).map (·.expand env)))
  | list items => list (expandItems env items)
  | mapping entries => mapping (expandEntries env entries)
  | value => value

/-- The items of a list with the variables put in. -/
def expandItems (env : Environment) : List Setting → List Setting
  | [] => []
  | item :: rest => item.expand env :: expandItems env rest

/-- The entries of a mapping with the variables put in. -/
def expandEntries (env : Environment) : List (Setting × Setting) → List (Setting × Setting)
  | [] => []
  | (key, value) :: rest => (key, value.expand env) :: expandEntries env rest

end

mutual

/-- The variables that a value refers to although they are not set, in order. -/
def missing (env : Environment) : Setting → List String
  | text value => (fragments value.toList).filterMap (·.missing? env)
  | list items => missingItems env items
  | mapping entries => missingEntries env entries
  | _ => []

/-- The variables that the items of a list miss. -/
def missingItems (env : Environment) : List Setting → List String
  | [] => []
  | item :: rest => item.missing env ++ missingItems env rest

/-- The variables that the entries of a mapping miss. -/
def missingEntries (env : Environment) : List (Setting × Setting) → List String
  | [] => []
  | (_, value) :: rest => value.missing env ++ missingEntries env rest

end

end Setting

end Shapeline
