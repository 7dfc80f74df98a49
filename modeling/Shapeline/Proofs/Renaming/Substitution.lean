import Shapeline.Proofs.Dictionary
import Shapeline.Proofs.Renaming.Term
import Shapeline.Value

/-!
# Substitution in renamed terms

A substitution is renamed by giving the renamed replacement to the new name. Then it replaces in
renamed terms what the substitution itself replaces, and references between entries of a dictionary
are resolved in the same rounds.
-/

namespace Shapeline

variable {α β : Type} (π : Equiv.Perm String)

namespace Dictionary

/-- A dictionary with its names renamed and a function applied to its values. -/
def rename (f : α → β) (d : Dictionary α) : Dictionary β where
  entries := d.entries.map fun (name, value) => (π name, f value)
  distinct := by
    have hnames : (d.entries.map fun (name, value) => (π name, f value)).map Prod.fst =
        (d.entries.map Prod.fst).map π := by
      rw [List.map_map, List.map_map]
      rfl
    rw [hnames]
    exact d.distinct.map π.injective

variable {f : α → β} {d : Dictionary α} {name : String}

/-- The renamed dictionary has as many names. -/
@[simp] theorem size_rename : (d.rename π f).size = d.size := List.length_map _

/-- The new name of a name has the image of its value. -/
@[simp] theorem get?_rename : (d.rename π f).get? (π name) = (d.get? name).map f := by
  change (d.entries.map fun (name, value) => (π name, f value)).lookup (π name) =
    (d.entries.lookup name).map f
  induction d.entries with
  | nil => rfl
  | cons entry rest ih =>
    obtain ⟨key, value⟩ := entry
    by_cases hname : name = key
    · simp [hname]
    · have hbeq : (name == key) = false := by simpa using hname
      have hbeq' : (π name == π key) = false := by simpa using hname
      simp [List.lookup_cons, hbeq, hbeq', ih]

/-- The new names of names with values have values. -/
@[simp] theorem contains_rename : (d.rename π f).contains (π name) = d.contains name := by
  rw [Bool.eq_iff_iff, contains_iff, contains_iff, get?_rename]
  simp [Option.map_eq_some_iff]

/-- Giving a name a value gives the new name the image of the value. -/
theorem insert_rename (value : α) :
    (d.insert name value).rename π f = (d.rename π f).insert (π name) (f value) := by
  refine eq_of_entries_eq ?_
  change (replaceOrAppend name value d.entries).map _ =
    replaceOrAppend (π name) (f value) (d.entries.map _)
  induction d.entries with
  | nil => rfl
  | cons entry rest ih =>
    obtain ⟨key, old⟩ := entry
    by_cases hkey : key = name
    · simp [replaceOrAppend, hkey]
    · have hkey' : ¬ π key = π name := fun h => hkey (π.injective h)
      rw [replaceOrAppend, if_neg hkey, List.map_cons, List.map_cons, replaceOrAppend,
        if_neg hkey', ih]

/-- A value for a new name is set in the renamed dictionary too. -/
theorem insertNew_rename (value : α) :
    (d.insertNew name value).rename π f = (d.rename π f).insertNew (π name) (f value) := by
  unfold insertNew
  rw [contains_rename]
  split
  · rfl
  · exact insert_rename π value

/-- A partial function that goes along with the renaming keeps the same values. -/
theorem filterMap_rename {α' β' : Type} {f' : α' → β'} {keep : String → α → Option α'}
    {keep' : String → β → Option β'}
    (h : ∀ name value, keep' (π name) (f value) = (keep name value).map f') :
    (d.rename π f).filterMap keep' = (d.filterMap keep).rename π f' := by
  refine eq_of_entries_eq ?_
  rw [entries_filterMap]
  change (d.entries.map _).filterMap _ = (d.filterMap keep).entries.map _
  rw [entries_filterMap, List.filterMap_map, List.map_filterMap]
  refine List.filterMap_congr fun entry _ => ?_
  simp [h, Function.comp_def]

end Dictionary

/-- A substitution with the symbols renamed that it replaces and those of the replacements. -/
def Substitution.rename (σ : Substitution) : Substitution := fun name =>
  (σ (π.symm name)).map (Except.map (Term.rename π))

/-- The terms of a renamed dictionary make the renamed substitution. -/
theorem Substitution.ofTerms_rename (terms : Dictionary Term) :
    ofTerms (terms.rename π (Term.rename π)) = (ofTerms terms).rename π := by
  funext name
  obtain ⟨old, rfl⟩ := π.surjective name
  rw [ofTerms, rename, Dictionary.get?_rename, Equiv.symm_apply_apply, ofTerms, Option.map_map,
    Option.map_map]
  rfl

namespace Term

variable {σ : Substitution} {t : Term} {name : String}

/-- The new name of a symbol is replaced by the renamed replacement. -/
theorem mirrors_getD {stays stays' : Term} (h : stays' = stays.rename π) :
    Mirrors (rename π) ((σ name).getD (pure stays))
      ((σ.rename π (π name)).getD (pure stays')) := by
  rw [Substitution.rename, Equiv.symm_apply_apply]
  cases σ name with
  | none => exact h ▸ .of_pure stays
  | some replacement => exact .of_map _ replacement

/-- A renamed term mentions a symbol that is replaced if the term does. -/
theorem mentions_rename : (t.rename π).mentions (σ.rename π) = t.mentions σ := by
  rw [Bool.eq_iff_iff, mentions, mentions, List.any_eq_true, List.any_eq_true]
  constructor
  · rintro ⟨name, hname, hsome⟩
    obtain ⟨old, hold, rfl⟩ := mem_symbols_rename.mp hname
    exact ⟨old, hold, by simpa [Substitution.rename] using hsome⟩
  · rintro ⟨name, hname, hsome⟩
    exact ⟨π name, mem_symbols_rename.mpr ⟨name, hname, rfl⟩,
      by simpa [Substitution.rename] using hsome⟩

/-- The renamed substitution takes a renamed term to the renamed result. -/
theorem mirrors_substitute :
    Mirrors (rename π) (t.substitute σ) ((t.rename π).substitute (σ.rename π)) := by
  induction t with
  | const n => exact .of_pure _
  | sym name => exact mirrors_getD π rfl
  | hole p => exact mirrors_getD π rfl
  | op o left right ihl ihr =>
    have hmentions := mentions_rename (σ := σ) (t := op o left right) π
    rw [rename] at hmentions ⊢
    rw [substitute, substitute, hmentions]
    exact .of_ite (ihl.of_bind fun l => ihr.of_bind fun r => mirrors_apply π) (.of_pure _)

/-- The terms of a renamed dictionary take a renamed term to the renamed result. -/
theorem mirrors_substituteTerms (terms : Dictionary Term) :
    Mirrors (rename π) (t.substituteTerms terms)
      ((t.rename π).substituteTerms (terms.rename π (rename π))) := by
  rw [substituteTerms, substituteTerms, Substitution.ofTerms_rename]
  exact mirrors_substitute π

end Term

variable {terms : Dictionary Term}

/-- The entries of a renamed dictionary are replaced in the same order. -/
theorem mirrors_expandEntries (names : List String) :
    Mirrors (Dictionary.rename π (Term.rename π)) (expandEntries names terms)
      (expandEntries (names.map π) (terms.rename π (Term.rename π))) := by
  induction names generalizing terms with
  | nil => exact .of_pure terms
  | cons name rest ih =>
    rw [List.map_cons, expandEntries, expandEntries, Dictionary.get?_rename]
    cases terms.get? name with
    | none => exact ih
    | some t =>
      refine (Term.mirrors_substituteTerms π terms).of_bind fun expanded => ?_
      rw [← Dictionary.insert_rename]
      exact ih

/-- The entries of a renamed dictionary that refer to others are those with the new names. -/
theorem pendingEntries_rename :
    pendingEntries (terms.rename π (Term.rename π)) = (pendingEntries terms).map π := by
  have hrefers (t : Term) : (t.rename π).symbols.any (terms.rename π (Term.rename π)).contains =
      t.symbols.any terms.contains := by
    rw [Bool.eq_iff_iff, List.any_eq_true, List.any_eq_true]
    constructor
    · rintro ⟨name, hname, hcontains⟩
      obtain ⟨old, hold, rfl⟩ := Term.mem_symbols_rename.mp hname
      exact ⟨old, hold, Dictionary.contains_rename π ▸ hcontains⟩
    · rintro ⟨name, hname, hcontains⟩
      exact ⟨π name, Term.mem_symbols_rename.mpr ⟨name, hname, rfl⟩,
        (Dictionary.contains_rename π).trans hcontains⟩
  change ((terms.entries.map fun entry => (π entry.1, entry.2.rename π)).filter _).map Prod.fst =
    ((terms.entries.filter _).map Prod.fst).map π
  rw [List.filter_map, List.map_map, List.map_map]
  refine congrArg (List.map _) (List.filter_congr fun entry _ => ?_)
  exact hrefers entry.2

/-- A renamed dictionary is resolved in the same rounds. -/
theorem mirrors_expandRounds (rounds : Nat) :
    Mirrors (Dictionary.rename π (Term.rename π)) (expandRounds rounds terms)
      (expandRounds rounds (terms.rename π (Term.rename π))) := by
  induction rounds generalizing terms with
  | zero => exact .of_pure terms
  | succ rounds ih =>
    rw [expandRounds, expandRounds, pendingEntries_rename]
    cases pendingEntries terms with
    | nil => exact .of_pure terms
    | cons name rest => exact (mirrors_expandEntries π _).of_bind fun next => ih

/-- References in a renamed dictionary are resolved to the renamed results. -/
theorem mirrors_resolveReferences :
    Mirrors (Dictionary.rename π (Term.rename π)) (resolveReferences terms)
      (resolveReferences (terms.rename π (Term.rename π))) := by
  rw [resolveReferences, resolveReferences, Dictionary.size_rename]
  exact mirrors_expandRounds π _

/-- A value with the symbols of its term renamed. -/
def Value.rename (f : String → String) : Value → Value
  | dim t => dim (t.rename f)
  | value => value

/-- The term of a renamed value is the renamed term. -/
@[simp] theorem Value.toTerm?_rename (f : String → String) (v : Value) :
    (v.rename f).toTerm? = v.toTerm?.map (Term.rename f) := by
  cases v <;> rfl

/-- Renamed values of variables are resolved to the renamed results. -/
theorem mirrors_resolveBindings (values : Dictionary Value) :
    Mirrors (Dictionary.rename π (Term.rename π)) (resolveBindings values)
      (resolveBindings (values.rename π (Value.rename π))) := by
  rw [resolveBindings, resolveBindings,
    Dictionary.filterMap_rename π fun _ value => value.toTerm?_rename π]
  exact mirrors_resolveReferences π

end Shapeline
