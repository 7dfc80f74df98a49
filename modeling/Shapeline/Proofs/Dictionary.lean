import Shapeline.Dictionary
import Shapeline.Proofs.Outcome

/-!
# Lookup in dictionaries

A dictionary is determined by the values of its names. The operations that build dictionaries from
lists of entries are described by what looking up a name in the result gives.
-/

namespace Shapeline

namespace Dictionary

variable {α β ε : Type} {d : Dictionary α} {name : String} {value : α}

/-- Nothing has a value in the empty dictionary. -/
@[simp] theorem get?_empty : (empty : Dictionary α).get? name = none := rfl

/-- Looking up a name finds the entry that the name has. -/
theorem lookup_eq_some_iff_mem {entries : List (String × α)}
    (h : (entries.map Prod.fst).Nodup) :
    entries.lookup name = some value ↔ (name, value) ∈ entries := by
  induction entries with
  | nil => simp
  | cons entry rest ih =>
    obtain ⟨key, other⟩ := entry
    rw [List.map_cons, List.nodup_cons] at h
    by_cases hkey : name = key
    · subst hkey
      have hrest : (name, value) ∉ rest := fun hmem => h.1 (List.mem_map.mpr ⟨_, hmem, rfl⟩)
      simp [hrest, eq_comm]
    · have hbeq : (name == key) = false := by simpa using hkey
      simp [List.lookup_cons, hbeq, hkey, ih h.2]

/-- The entries of a dictionary are its names with their values. -/
theorem mem_entries_iff : (name, value) ∈ d.entries ↔ d.get? name = some value :=
  (lookup_eq_some_iff_mem d.distinct).symm

/-- All names have values with a property if all entries have it. -/
theorem forall_get?_iff {P : String → α → Prop} :
    (∀ name value, d.get? name = some value → P name value) ↔ ∀ e ∈ d.entries, P e.1 e.2 := by
  simp only [← mem_entries_iff, Prod.forall]

/-- The names of a dictionary are those that have a value. -/
theorem contains_iff : d.contains name = true ↔ ∃ value, d.get? name = some value := by
  simp only [contains, List.contains_iff_mem, keys, List.mem_map, ← mem_entries_iff]
  constructor
  · rintro ⟨⟨_, value⟩, hmem, rfl⟩
    exact ⟨value, hmem⟩
  · rintro ⟨value, hmem⟩
    exact ⟨_, hmem, rfl⟩

/-- A value that is set for a new key only gives way to one that is there. -/
theorem get?_insertNew {key : String} {value : α} :
    (d.insertNew key value).get? name =
      (d.get? name).or (if name = key then some value else none) := by
  unfold insertNew
  split
  · rename_i hcontains
    obtain ⟨old, hold⟩ := contains_iff.mp hcontains
    split
    · rename_i hname
      rw [hname, hold]
      rfl
    · rw [Option.or_none]
  · rename_i hnew
    rw [get?_insert]
    split
    · rename_i hname
      have hnone : d.get? key = none := by
        by_contra hsome
        exact hnew (contains_iff.mpr (Option.ne_none_iff_exists'.mp hsome))
      rw [hname, hnone]
      rfl
    · rw [Option.or_none]

/-- A new name is appended. -/
theorem replaceOrAppend_of_notMem {entries : List (String × α)}
    (h : name ∉ entries.map Prod.fst) :
    replaceOrAppend name value entries = entries ++ [(name, value)] := by
  induction entries with
  | nil => rfl
  | cons entry rest ih =>
    rw [List.map_cons, List.mem_cons, not_or] at h
    rw [replaceOrAppend, if_neg (fun heq => h.1 heq.symm), ih h.2, List.cons_append]

/-- New names are appended in their order. -/
theorem entries_insertAll {entries : List (String × α)}
    (h : ((d.entries ++ entries).map Prod.fst).Nodup) :
    (d.insertAll entries).entries = d.entries ++ entries := by
  induction entries generalizing d with
  | nil => simp [insertAll]
  | cons entry rest ih =>
    obtain ⟨key, other⟩ := entry
    have hnew : (d.insert key other).entries = d.entries ++ [(key, other)] := by
      refine replaceOrAppend_of_notMem fun hmem => ?_
      rw [List.map_append, List.nodup_append] at h
      exact h.2.2 key hmem key (by simp) rfl
    change ((d.insert key other).insertAll rest).entries = _
    rw [ih (by rwa [hnew, List.append_assoc, List.singleton_append]), hnew, List.append_assoc,
      List.singleton_append]

/-- A list of entries with different names is the dictionary that it describes. -/
theorem entries_ofList {entries : List (String × α)} (h : (entries.map Prod.fst).Nodup) :
    (ofList entries).entries = entries :=
  entries_insertAll (d := empty) h

/-- A dictionary is determined by its entries. -/
theorem eq_of_entries_eq {d' : Dictionary α} (h : d.entries = d'.entries) : d = d' := by
  cases d
  cases d'
  cases h
  rfl

/-- What several insertions give a name is one of the inserted values or the value that it had. -/
theorem mem_of_get?_insertAll {entries : List (String × α)}
    (h : (d.insertAll entries).get? name = some value) :
    (name, value) ∈ entries ∨ d.get? name = some value := by
  induction entries generalizing d with
  | nil => exact Or.inr h
  | cons entry rest ih =>
    obtain ⟨key, other⟩ := entry
    rcases ih h with hmem | hget
    · exact Or.inl (List.mem_cons_of_mem _ hmem)
    · rw [get?_insert] at hget
      split at hget
      · rename_i hname
        exact Or.inl (by simp [hname, Option.some.inj hget])
      · exact Or.inr hget

/-- The values of a dictionary that is described by a list are those of the list. -/
theorem mem_of_get?_ofList {entries : List (String × α)}
    (h : (ofList entries).get? name = some value) : (name, value) ∈ entries := by
  rcases mem_of_get?_insertAll h with hmem | hget
  · exact hmem
  · simp at hget

/-- Every name of a list has a value in the dictionary that the list describes. -/
theorem exists_get?_ofList {entries : List (String × α)} (h : (name, value) ∈ entries) :
    ∃ value, (ofList entries).get? name = some value := by
  refine foldl_establishes (P := fun d : Dictionary α => ∃ value, d.get? name = some value) h
    (fun d entry hd => ?_) (fun d => ⟨value, ?_⟩) empty
  · obtain ⟨value, hvalue⟩ := hd
    rw [get?_insert]
    split
    · exact ⟨_, rfl⟩
    · exact ⟨value, hvalue⟩
  · rw [get?_insert, if_pos rfl]

/-- The values of a second dictionary take precedence over those of the first. -/
theorem get?_insertAll_entries {other : Dictionary α} :
    (d.insertAll other.entries).get? name = (other.get? name).or (d.get? name) := by
  obtain ⟨entries, h⟩ := other
  change _ = (entries.lookup name).or _
  induction entries generalizing d with
  | nil => rfl
  | cons entry rest ih =>
    obtain ⟨key, value⟩ := entry
    rw [List.map_cons, List.nodup_cons] at h
    change ((d.insert key value).insertAll rest).get? name = _
    rw [ih h.2, get?_insert]
    by_cases hname : name = key
    · subst hname
      have hrest : rest.lookup name = none := by
        rw [Option.eq_none_iff_forall_ne_some]
        intro other hother
        exact h.1 (List.mem_map.mpr ⟨_, (lookup_eq_some_iff_mem h.2).mp hother, rfl⟩)
      simp [hrest]
    · have hbeq : (name == key) = false := by simpa using hname
      simp [List.lookup_cons, hbeq, hname]

/-- The entries that a partial function keeps. -/
theorem entries_filterMap {f : String → α → Option β} :
    (d.filterMap f).entries =
      d.entries.filterMap fun (name, value) => (f name value).map (name, ·) := by
  refine entries_ofList ?_
  have hsub : ((d.entries.filterMap fun (name, value) => (f name value).map (name, ·)).map
      Prod.fst).Sublist (d.entries.map Prod.fst) := by
    induction d.entries with
    | nil => exact List.Sublist.refl _
    | cons entry rest ih =>
      obtain ⟨key, other⟩ := entry
      cases hf : f key other with
      | none => simpa [hf] using ih.cons key
      | some kept => simpa [hf] using ih.cons_cons key
  exact hsub.nodup d.distinct

/-- A partial function keeps the values on which it is defined. -/
theorem get?_filterMap {f : String → α → Option β} :
    (d.filterMap f).get? name = (d.get? name).bind (f name) := by
  apply Option.ext
  intro kept
  rw [← mem_entries_iff, entries_filterMap, List.mem_filterMap, Option.bind_eq_some_iff]
  constructor
  · rintro ⟨⟨key, other⟩, hmem, h⟩
    obtain ⟨result, hf, heq⟩ := Option.map_eq_some_iff.mp h
    obtain ⟨rfl, rfl⟩ := Prod.mk.inj heq
    exact ⟨other, mem_entries_iff.mp hmem, hf⟩
  · rintro ⟨other, hget, hf⟩
    exact ⟨(name, other), mem_entries_iff.mpr hget, by simp [hf]⟩

/-- A function on the values is applied to the value of a name. -/
theorem get?_map {f : String → α → β} : (d.map f).get? name = (d.get? name).map (f name) := by
  apply Option.ext
  intro result
  rw [← mem_entries_iff, Option.map_eq_some_iff]
  simp only [map, List.mem_map, Prod.exists, Prod.mk.injEq]
  constructor
  · rintro ⟨key, other, hmem, rfl, rfl⟩
    exact ⟨other, mem_entries_iff.mp hmem, rfl⟩
  · rintro ⟨other, hget, rfl⟩
    exact ⟨name, other, mem_entries_iff.mpr hget, rfl, rfl⟩

/-- A function that may fail is applied to every entry and keeps the names. -/
theorem forall₂_of_traverse {f : String → α → Except ε β} {result : Dictionary β}
    (h : d.traverse f = .ok result) :
    List.Forall₂ (fun e e' => e'.1 = e.1 ∧ f e.1 e.2 = .ok e'.2) d.entries result.entries := by
  obtain ⟨entries, hmap, h⟩ := bind_eq_ok_iff.mp h
  obtain rfl := pure_eq_ok_iff.mp h
  have hall := (mapM_eq_ok_iff.mp hmap).imp (S := fun e e' => e'.1 = e.1 ∧ f e.1 e.2 = .ok e'.2)
    fun e e' he => by
      obtain ⟨v, hv, he⟩ := bind_eq_ok_iff.mp he
      obtain rfl := pure_eq_ok_iff.mp he
      exact ⟨rfl, hv⟩
  have hnames : entries.map Prod.fst = d.entries.map Prod.fst := by
    rw [← List.forall₂_eq_eq_eq, List.forall₂_map_left_iff, List.forall₂_map_right_iff]
    exact hall.flip.imp fun _ _ he => he.1
  rwa [entries_ofList (hnames ▸ d.distinct)]

/-- A function that changes no value leaves the dictionary as it is. -/
theorem traverse_eq_self {f : String → α → Except ε α}
    (h : ∀ e ∈ d.entries, f e.1 e.2 = .ok e.2) : d.traverse f = .ok d := by
  have hmap : (d.entries.mapM fun (name, value) => do pure (name, ← f name value)) =
      .ok d.entries := by
    rw [mapM_eq_ok_iff, List.forall₂_same]
    exact fun entry hentry => bind_eq_ok_iff.mpr ⟨entry.2, h entry hentry, rfl⟩
  refine bind_eq_ok_iff.mpr ⟨_, hmap, ?_⟩
  rw [eq_of_entries_eq (entries_ofList d.distinct)]
  rfl

/-- A function that has a result on every value can be applied to all of them. -/
theorem exists_traverse {f : String → α → Except ε β}
    (h : ∀ name value, d.get? name = some value → ∃ image, f name value = .ok image) :
    ∃ result, d.traverse f = .ok result := by
  have hentry (i : Fin d.entries.length) :
      ∃ image, f d.entries[i].1 d.entries[i].2 = .ok image :=
    h _ _ (mem_entries_iff.mp (List.getElem_mem i.isLt))
  choose image himage using hentry
  refine ⟨_, bind_eq_ok_iff.mpr
    ⟨List.ofFn fun i => (d.entries[i].1, image i), mapM_eq_ok_iff.mpr ?_, rfl⟩⟩
  refine List.forall₂_iff_get.mpr ⟨by simp, fun i hi hi' => ?_⟩
  simp only [List.get_eq_getElem, List.getElem_ofFn]
  exact bind_eq_ok_iff.mpr ⟨_, himage ⟨i, hi⟩, rfl⟩

/-- Looking up a name after a function that may fail was applied to every value. -/
theorem get?_traverse {f : String → α → Except ε β} {result : Dictionary β}
    (h : d.traverse f = .ok result) (name : String) :
    (d.get? name = none ∧ result.get? name = none) ∨
      ∃ value image, d.get? name = some value ∧ f name value = .ok image ∧
        result.get? name = some image := by
  change (d.entries.lookup name = none ∧ result.entries.lookup name = none) ∨
    ∃ value image, d.entries.lookup name = some value ∧ f name value = .ok image ∧
      result.entries.lookup name = some image
  have hall := forall₂_of_traverse h
  generalize d.entries = entries at hall ⊢
  generalize result.entries = images at hall ⊢
  induction hall with
  | nil => exact Or.inl ⟨rfl, rfl⟩
  | @cons e e' _ _ he _ ih =>
    obtain ⟨key, value⟩ := e
    obtain ⟨key', image⟩ := e'
    obtain ⟨rfl, hf⟩ := he
    by_cases hname : name = key'
    · subst hname
      exact Or.inr ⟨value, image, by simp, hf, by simp⟩
    · have hbeq : (name == key') = false := by simpa using hname
      simpa [List.lookup_cons, hbeq] using ih

/-- Two dictionaries give every name the same value, in whatever order the names came. -/
def Same (d d' : Dictionary α) : Prop := ∀ name, d'.get? name = d.get? name

namespace Same

variable {d d' : Dictionary α}

/-- A dictionary is the same mapping as itself. -/
theorem refl (d : Dictionary α) : d.Same d := fun _ => rfl

/-- Which of two dictionaries comes first does not matter. -/
theorem symm (h : d.Same d') : d'.Same d := fun name => (h name).symm

/-- The same names have values. -/
theorem contains_eq (h : d.Same d') (name : String) : d'.contains name = d.contains name := by
  rw [Bool.eq_iff_iff, contains_iff, contains_iff, h name]

/-- A value that is set in both keeps the mapping the same. -/
theorem insert (h : d.Same d') (name : String) (value : α) :
    (d.insert name value).Same (d'.insert name value) := by
  intro other
  rw [get?_insert, get?_insert, h other]

/-- Values that are set in both keep the mapping the same. -/
theorem insertAll (h : d.Same d') (entries : List (String × α)) :
    (d.insertAll entries).Same (d'.insertAll entries) := by
  induction entries generalizing d d' with
  | nil => exact h
  | cons entry rest ih => exact ih (h.insert entry.1 entry.2)

/-- The values on which a partial function is defined are the same. -/
theorem filterMap (h : d.Same d') (f : String → α → Option β) :
    (d.filterMap f).Same (d'.filterMap f) := by
  intro name
  rw [get?_filterMap, get?_filterMap, h name]

/-- A function that may fail succeeds on the values of both, with the same results. -/
theorem traverse (h : d.Same d') {f : String → α → Except ε β} {result : Dictionary β}
    (hresult : d.traverse f = .ok result) :
    ∃ result', d'.traverse f = .ok result' ∧ result.Same result' := by
  obtain ⟨result', hresult'⟩ := exists_traverse fun name value hget => by
    rw [h name] at hget
    rcases get?_traverse hresult name with ⟨hnone, -⟩ | ⟨other, image, hother, himage, -⟩
    · cases hnone.symm.trans hget
    · obtain rfl := Option.some.inj (hother.symm.trans hget)
      exact ⟨image, himage⟩
  refine ⟨result', hresult', fun name => ?_⟩
  have hname := h name
  rcases get?_traverse hresult name with ⟨hnone, hresult⟩ | ⟨value, image, hvalue, hf, hresult⟩ <;>
    rcases get?_traverse hresult' name with ⟨hnone', hresult'⟩ | ⟨value', _, hvalue', hf', hresult'⟩
  · rw [hresult, hresult']
  · cases hnone.symm.trans (hname.symm.trans hvalue')
  · cases hvalue.symm.trans (hname.symm.trans hnone')
  · obtain rfl := Option.some.inj (hvalue.symm.trans (hname.symm.trans hvalue'))
    obtain rfl := Except.ok.inj (hf.symm.trans hf')
    rw [hresult, hresult']

/-- Entries in another order are the same mapping. -/
theorem of_perm (h : d.entries.Perm d'.entries) : d.Same d' := by
  intro name
  apply Option.ext
  intro value
  rw [← mem_entries_iff, ← mem_entries_iff, h.mem_iff]

end Same

end Dictionary

end Shapeline
