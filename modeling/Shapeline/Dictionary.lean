/-!
# Dictionaries

A dictionary maps finitely many names to values and remembers the order in which the names were
first given a value. Giving a name a second value replaces the first one in place.
-/

namespace Shapeline

/-- Replace the value of a name where it stands, or append the name. -/
def replaceOrAppend {α : Type} (name : String) (value : α) :
    List (String × α) → List (String × α)
  | [] => [(name, value)]
  | (other, old) :: rest =>
    if other = name then (name, value) :: rest
    else (other, old) :: replaceOrAppend name value rest

/-- The names after giving a name a value: the same as before, or one more at the end. -/
theorem map_fst_replaceOrAppend {α : Type} (name : String) (value : α)
    (entries : List (String × α)) :
    (replaceOrAppend name value entries).map Prod.fst =
      if name ∈ entries.map Prod.fst then entries.map Prod.fst
      else entries.map Prod.fst ++ [name] := by
  induction entries with
  | nil => simp [replaceOrAppend]
  | cons entry rest ih =>
    obtain ⟨other, old⟩ := entry
    by_cases h : other = name
    · simp [replaceOrAppend, h]
    · have h' : ¬ name = other := fun e => h e.symm
      rw [replaceOrAppend, if_neg h, List.map_cons, ih]
      simp only [List.map_cons, List.mem_cons, h', false_or]
      split <;> simp

/-- A finite map from names to values, in the order in which the names came. -/
structure Dictionary (α : Type) where
  /-- The names with their values. -/
  entries : List (String × α)
  /-- No name occurs twice. -/
  distinct : (entries.map Prod.fst).Nodup
  deriving DecidableEq

namespace Dictionary

variable {α β : Type}

/-- The dictionary without names. -/
def empty : Dictionary α := ⟨[], by simp⟩

instance : Inhabited (Dictionary α) := ⟨empty⟩

/-- The names, in order. -/
def keys (d : Dictionary α) : List String := d.entries.map Prod.fst

/-- The values, in the order of their names. -/
def values (d : Dictionary α) : List α := d.entries.map Prod.snd

/-- The value of a name, if it has one. -/
def get? (d : Dictionary α) (name : String) : Option α := d.entries.lookup name

/-- Whether a name has a value. -/
def contains (d : Dictionary α) (name : String) : Bool := d.keys.contains name

/-- Give a name a value. -/
def insert (d : Dictionary α) (name : String) (value : α) : Dictionary α where
  entries := replaceOrAppend name value d.entries
  distinct := by
    have h := d.distinct
    rw [map_fst_replaceOrAppend]
    split
    · exact h
    · rename_i hname
      rw [List.nodup_append]
      refine ⟨h, by simp, ?_⟩
      intro a ha b hb hab
      simp only [List.mem_singleton] at hb
      exact hname (hb ▸ hab ▸ ha)

/-- Give several names their values, one after another. -/
def insertAll (d : Dictionary α) (entries : List (String × α)) : Dictionary α :=
  entries.foldl (fun d (name, value) => d.insert name value) d

/-- The dictionary that a list of names and values describes; of two values for one name the later
one counts. -/
def ofList (entries : List (String × α)) : Dictionary α := empty.insertAll entries

/-- Give a name a value unless it has one. -/
def insertNew (d : Dictionary α) (name : String) (value : α) : Dictionary α :=
  if d.contains name then d else d.insert name value

/-- Apply a function to every value. -/
def map (f : String → α → β) (d : Dictionary α) : Dictionary β where
  entries := d.entries.map fun (name, value) => (name, f name value)
  distinct := by
    have h := d.distinct
    rw [List.map_map]
    exact h

/-- Apply a function that may fail to every value, in order, and stop at the first failure. -/
def traverse {ε : Type} (f : String → α → Except ε β) (d : Dictionary α) :
    Except ε (Dictionary β) := do
  let entries ← d.entries.mapM fun (name, value) => do pure (name, ← f name value)
  pure (ofList entries)

/-- Keep the values on which a function is defined. -/
def filterMap (f : String → α → Option β) (d : Dictionary α) : Dictionary β :=
  ofList (d.entries.filterMap fun (name, value) => (f name value).map (name, ·))

/-- The number of names. -/
def size (d : Dictionary α) : Nat := d.entries.length

/-- The names of a dictionary after one of them got a value. -/
theorem keys_insert (d : Dictionary α) (name : String) (value : α) :
    (d.insert name value).keys = if name ∈ d.keys then d.keys else d.keys ++ [name] :=
  map_fst_replaceOrAppend name value d.entries

/-- A name has the value it was given last, and the others keep theirs. -/
theorem get?_insert (d : Dictionary α) (name other : String) (value : α) :
    (d.insert name value).get? other = if other = name then some value else d.get? other := by
  show (replaceOrAppend name value d.entries).lookup other =
    if other = name then some value else d.entries.lookup other
  generalize d.entries = entries
  induction entries with
  | nil =>
    by_cases h : other = name
    · simp [replaceOrAppend, h]
    · have hbeq : (other == name) = false := by simpa using h
      simp [replaceOrAppend, h, List.lookup_cons, hbeq]
  | cons entry rest ih =>
    obtain ⟨key, old⟩ := entry
    by_cases hkey : key = name
    · by_cases h : other = name
      · simp [replaceOrAppend, hkey, h]
      · have hbeq : (other == name) = false := by simpa using h
        simp [replaceOrAppend, hkey, h, List.lookup_cons, hbeq]
    · by_cases h : other = key
      · simp [replaceOrAppend, hkey, h]
      · have hbeq : (other == key) = false := by simpa using h
        rw [replaceOrAppend, if_neg hkey, List.lookup_cons, hbeq, ih, List.lookup_cons, hbeq]

end Dictionary

end Shapeline
