/-!
# Sets of names

A finite set of names is kept as a list in ascending order of code points without repetitions, so
that two sets with the same members are equal lists and the least member comes first.
-/

namespace Shapeline.Names

/-- Add a name to an ascending list, unless it is there already. -/
def insert (name : String) : List String → List String
  | [] => [name]
  | first :: rest =>
    if name < first then name :: first :: rest
    else if name = first then first :: rest
    else first :: insert name rest

/-- The members of a list of names, in ascending order. -/
def ofList (names : List String) : List String := names.foldr insert []

/-- The names that belong to one of two sets. -/
def union (left right : List String) : List String := left.foldr insert right

/-- Put a name into an ascending list, also if it is there already. -/
def place (name : String) : List String → List String
  | [] => [name]
  | first :: rest => if name < first then name :: first :: rest else first :: place name rest

/-- A list of names in ascending order, with its repetitions. -/
def sort (names : List String) : List String := names.foldr place []

/-- The names of a set that a list does not hold. -/
def diff (names excluded : List String) : List String := names.filter (!excluded.contains ·)

/-- Insertion adds exactly the given name. -/
theorem mem_insert {name other : String} {names : List String} :
    other ∈ insert name names ↔ other = name ∨ other ∈ names := by
  induction names with
  | nil => simp [insert]
  | cons first rest ih =>
    rw [insert]
    split
    · simp
    · split
      · rename_i h
        subst h
        simp
      · simp only [List.mem_cons, ih]
        constructor
        · rintro (h | h | h) <;> simp [h]
        · rintro (h | h | h) <;> simp [h]

/-- A set made from a list has the members of the list. -/
theorem mem_ofList {name : String} {names : List String} :
    name ∈ ofList names ↔ name ∈ names := by
  induction names with
  | nil => simp [ofList]
  | cons first rest ih =>
    rw [show ofList (first :: rest) = insert first (ofList rest) from rfl, mem_insert, ih]
    simp

/-- A union has the members of both sets. -/
theorem mem_union {name : String} {left right : List String} :
    name ∈ union left right ↔ name ∈ left ∨ name ∈ right := by
  induction left with
  | nil => simp [union]
  | cons first rest ih =>
    rw [show union (first :: rest) right = insert first (union rest right) from rfl, mem_insert, ih]
    simp [or_assoc]

end Shapeline.Names
