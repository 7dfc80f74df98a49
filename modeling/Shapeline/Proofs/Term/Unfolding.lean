import Shapeline.Proofs.Term.Expansion
import Shapeline.Proofs.Term.Replacement

/-!
# Unfolding references

A name settles if no name that can be reached from it refers back to itself. The references of such
a name can be unfolded completely, whatever cycles there are elsewhere. The rounds of replacements
change entries in place, so that an entry may be replaced by one that is only half unfolded; what it
unfolds to stays the same all the same, and after each round one more level of references is done.
-/

namespace Shapeline

open Term

namespace Dictionary

variable {terms current next result : Dictionary Term} {names : List String}
  {name a b : String} {t u : Term} {f : String → Option Term} {rank : String → ℕ}
  {level rounds m n : ℕ}

/-- No name that can be reached from a name refers back to itself. -/
def Settles (terms : Dictionary Term) (name : String) : Prop :=
  ∀ other, Relation.ReflTransGen terms.Refers name other →
    ¬ Relation.TransGen terms.Refers other other

/-- A function gives a name the term of the name with everything replaced as the function says, and
none of the names is left in it. -/
structure ExpandedBy (terms : Dictionary Term) (f : String → Option Term) (name : String) :
    Prop where
  /-- The names in the term are replaced. -/
  replaced : f name = (terms.get? name).map (Term.replace f)
  /-- No name of the dictionary is left. -/
  closed : ∀ t, f name = some t → ∀ other ∈ t.symbols, terms.contains other = false

/-- The terms with references replaced up to a depth. -/
def unfolding (terms : Dictionary Term) : ℕ → String → Option Term
  | 0, _ => none
  | depth + 1, name => (terms.get? name).map (Term.replace (terms.unfolding depth))

/-- The terms with all references replaced that lead to an end. -/
def full (terms : Dictionary Term) : String → Option Term := terms.unfolding terms.size

/-- A name that is not in the dictionary has no term. -/
theorem get?_eq_none_iff : terms.get? name = none ↔ terms.contains name = false := by
  rw [← not_iff_not, Bool.not_eq_false, contains_iff, ← ne_eq, Option.ne_none_iff_exists']

namespace Settles

/-- What a name that settles refers to settles too. -/
theorem of_refers (h : terms.Settles a) (hab : terms.Refers a b) : terms.Settles b :=
  fun other hother => h other (hother.head hab)

/-- A name that is not in the dictionary refers to nothing. -/
theorem of_contains_eq_false (h : terms.contains name = false) : terms.Settles name := by
  have hnone {other : String} : ¬ terms.Refers name other := by
    rintro ⟨t, ht, -⟩
    cases (get?_eq_none_iff.mpr h).symm.trans ht
  intro other hother hcycle
  rcases Relation.ReflTransGen.cases_head hother with rfl | ⟨b, hb, -⟩
  · obtain ⟨b, hb, -⟩ := Relation.TransGen.head'_iff.mp hcycle
    exact hnone hb
  · exact hnone hb

/-- All symbols in the term of a name that settles do. -/
theorem of_mem (h : terms.Settles name) (ht : terms.get? name = some t) (hb : b ∈ t.symbols) :
    terms.Settles b := by
  cases hknown : terms.contains b with
  | true => exact h.of_refers ⟨t, ht, hb, hknown⟩
  | false => exact of_contains_eq_false hknown

/-- Without cycles every name settles. -/
theorem of_acyclic (h : terms.Acyclic) (name : String) : terms.Settles name :=
  fun other _ => h other

end Settles

/-- From a name that settles every reference leads down. -/
structure Levels (terms : Dictionary Term) (rank : String → ℕ) : Prop where
  /-- A reference leads to a lower level. -/
  down : ∀ a b, terms.Settles a → terms.Refers a b → rank b < rank a
  /-- There are no more levels than names. -/
  bound : ∀ name, terms.Settles name → terms.contains name = true → rank name < terms.size

/-- The names that settle have levels. -/
theorem exists_levels (terms : Dictionary Term) : ∃ rank, terms.Levels rank := by
  obtain ⟨rank, hrank, hbound⟩ := terms.exists_rank
  exact ⟨rank, fun a b ha hab => hrank a b hab (ha b (.single hab)),
    fun name hname hknown => hbound name hknown (hname name .refl)⟩

/-- Names of no term are not replaced. -/
theorem unfolding_eq_none (h : terms.get? name = none) (depth : ℕ) :
    terms.unfolding depth name = none := by
  cases depth with
  | zero => rfl
  | succ depth => rw [unfolding, h, Option.map_none]

/-- A depth that exceeds the level of a name makes no difference. -/
theorem Levels.unfolding_eq (h : terms.Levels rank) (hname : terms.Settles name)
    (hm : rank name < m) (hn : rank name < n) :
    terms.unfolding m name = terms.unfolding n name := by
  induction m generalizing name n with
  | zero => omega
  | succ m ih =>
    obtain ⟨n, rfl⟩ := Nat.exists_eq_add_one_of_ne_zero (by omega : n ≠ 0)
    rw [unfolding, unfolding]
    refine Option.map_congr fun t ht => replace_congr fun other hother => ?_
    cases hterm : terms.get? other with
    | none => rw [unfolding_eq_none hterm, unfolding_eq_none hterm]
    | some s =>
      have href : terms.Refers name other := ⟨t, ht, hother, contains_iff.mpr ⟨s, hterm⟩⟩
      have hdown := h.down name other hname href
      exact ih (hname.of_refers href) (by omega) (by omega)

/-- Names that settle are fully replaced by the full terms. -/
theorem full_eq (hname : terms.Settles name) :
    terms.full name = (terms.get? name).map (Term.replace terms.full) := by
  cases hterm : terms.get? name with
  | none => exact unfolding_eq_none hterm _
  | some t =>
    obtain ⟨rank, h⟩ := terms.exists_levels
    have hbound := h.bound name hname (contains_iff.mpr ⟨t, hterm⟩)
    have hdeeper := h.unfolding_eq hname hbound (hbound.trans (Nat.lt_succ_self _))
    rw [full, hdeeper, unfolding, hterm]

/-- The full terms expand every name that settles. -/
theorem Settles.expandedBy_full (hname : terms.Settles name) :
    terms.ExpandedBy terms.full name := by
  obtain ⟨rank, h⟩ := terms.exists_levels
  have hclosed (bound : ℕ) : ∀ name, terms.Settles name → rank name < bound →
      ∀ u, terms.full name = some u → ∀ other ∈ u.symbols, terms.contains other = false := by
    induction bound with
    | zero => exact fun name _ hlt => absurd hlt (Nat.not_lt_zero _)
    | succ bound ih =>
      intro name hname hlt u hu other hother
      rw [full_eq hname] at hu
      obtain ⟨t, ht, rfl⟩ := Option.map_eq_some_iff.mp hu
      rcases mem_symbols_replace hother with ⟨hmem, hnone⟩ | ⟨symbol, hmem, r, hr, hother⟩
      · by_contra hknown
        have href : terms.Refers name other := ⟨t, ht, hmem, by simpa using hknown⟩
        obtain ⟨s, hs⟩ := contains_iff.mp href.choose_spec.2.2
        rw [full_eq (hname.of_refers href), hs] at hnone
        cases hnone
      · have href : terms.Refers name symbol := by
          refine ⟨t, ht, hmem, ?_⟩
          by_contra hunknown
          rw [full, unfolding_eq_none (get?_eq_none_iff.mpr (by simpa using hunknown))] at hr
          cases hr
        have hdown := h.down name symbol hname href
        exact ih symbol (hname.of_refers href) (by omega) r hr other hother
  exact ⟨full_eq hname, hclosed (rank name + 1) name hname (Nat.lt_succ_self _)⟩

/-- Entries that have been replaced for some time: the names are those of the beginning, and a name
that settles still unfolds to its full term by references that lead down. -/
structure Unfolds (terms : Dictionary Term) (rank : String → ℕ) (current : Dictionary Term) :
    Prop where
  /-- The names stay. -/
  names : ∀ name, current.contains name = terms.contains name
  /-- Unfolding the term that is left gives the full term. -/
  keeps : ∀ name t, terms.Settles name → current.get? name = some t →
    terms.full name = some (t.replace terms.full)
  /-- What is left to replace settles on a lower level. -/
  down : ∀ name t, terms.Settles name → current.get? name = some t → ∀ b ∈ t.symbols,
    terms.contains b = true → terms.Settles b ∧ rank b < rank name

/-- All names that settle on one of the first levels have their full terms. -/
def DoneBelow (terms : Dictionary Term) (rank : String → ℕ) (level : ℕ)
    (current : Dictionary Term) : Prop :=
  ∀ name, terms.Settles name → rank name < level → current.get? name = terms.full name

/-- The entries at the beginning unfold to their full terms. -/
theorem Levels.unfolds (h : terms.Levels rank) : terms.Unfolds rank terms where
  names _ := rfl
  keeps name t hname ht := by rw [full_eq hname, ht]; rfl
  down name t hname ht b hb hknown :=
    have href : terms.Refers name b := ⟨t, ht, hb, hknown⟩
    ⟨hname.of_refers href, h.down name b hname href⟩

namespace Unfolds

/-- A name has a term exactly if it had one in the beginning. -/
theorem get?_eq_none (h : terms.Unfolds rank current) (hnone : terms.contains name = false) :
    current.get? name = none :=
  get?_eq_none_iff.mpr ((h.names name).trans hnone)

/-- A name with a term belongs to the dictionary. -/
theorem contains_of_get? (h : terms.Unfolds rank current) (ht : current.get? name = some t) :
    terms.contains name = true :=
  h.names name ▸ contains_iff.mpr ⟨t, ht⟩

/-- The replaced term of a name that settles is its full term if the names in it are done. -/
theorem replace_eq_full (h : terms.Unfolds rank current) (hname : terms.Settles name)
    (ht : current.get? name = some t)
    (hdone : ∀ b ∈ t.symbols, terms.contains b = true → current.get? b = terms.full b) :
    terms.full name = some (t.replace current.get?) := by
  rw [h.keeps name t hname ht]
  refine congrArg some (replace_congr fun b hb => ?_)
  cases hknown : terms.contains b with
  | true => exact (hdone b hb hknown).symm
  | false =>
    rw [h.get?_eq_none hknown]
    exact unfolding_eq_none (get?_eq_none_iff.mpr hknown) _

/-- Replacing the names in one entry changes nothing about what the entries unfold to. -/
theorem insert (h : terms.Unfolds rank current) (ht : current.get? name = some t)
    (hu : t.substituteTerms current = .ok u) : terms.Unfolds rank (current.insert name u) := by
  obtain rfl := eq_replace_of_substitute hu
  refine ⟨fun other => (contains_insert ht other).trans (h.names other), ?_, ?_⟩
  · intro other s hother hs
    rw [get?_insert] at hs
    split at hs
    · rename_i heq
      subst heq
      obtain rfl := Option.some.inj hs
      rw [replace_replace fun b hb r hr => ?_]
      · exact h.keeps other t hother ht
      · exact h.keeps b r (h.down other t hother ht b hb (h.contains_of_get? hr)).1 hr
    · exact h.keeps other s hother hs
  · intro other s hother hs b hb hknown
    rw [get?_insert] at hs
    split at hs
    · rename_i heq
      subst heq
      obtain rfl := Option.some.inj hs
      rcases mem_symbols_replace hb with ⟨hmem, -⟩ | ⟨symbol, hmem, r, hr, hb⟩
      · exact h.down other t hother ht b hmem hknown
      · obtain ⟨hsymbol, hfirst⟩ := h.down other t hother ht symbol hmem (h.contains_of_get? hr)
        obtain ⟨hsettles, hsecond⟩ := h.down symbol r hsymbol hr b hb hknown
        exact ⟨hsettles, hsecond.trans hfirst⟩
    · exact h.down other s hother hs b hb hknown

/-- A full term has nothing left to replace, so an entry that is done stays done. -/
theorem get?_insert_of_done (h : terms.Unfolds rank current) (ht : current.get? name = some t)
    (hu : t.substituteTerms current = .ok u) (ha : terms.Settles a)
    (hdone : current.get? a = terms.full a) : (current.insert name u).get? a = terms.full a := by
  rw [get?_insert]
  split
  · rename_i heq
    subst heq
    obtain rfl := eq_replace_of_substitute hu
    rw [← hdone, ht, replace_eq_self fun b hb => ?_]
    exact h.get?_eq_none (ha.expandedBy_full.closed t (hdone ▸ ht) b hb)
  · exact hdone

/-- A round of replacements keeps what is done, and names of the next level are done after it: the
names in their entries are on lower levels. -/
theorem expandEntries (h : terms.Unfolds rank current) (hbelow : terms.DoneBelow rank level current)
    (hround : Shapeline.expandEntries names current = .ok next) :
    terms.Unfolds rank next ∧
      (∀ a, terms.Settles a → current.get? a = terms.full a → next.get? a = terms.full a) ∧
      ∀ a ∈ names, terms.Settles a → rank a ≤ level → next.get? a = terms.full a := by
  induction names generalizing current with
  | nil =>
    obtain rfl := pure_eq_ok_iff.mp hround
    exact ⟨h, fun _ _ hdone => hdone, nofun⟩
  | cons first rest ih =>
    rcases expandEntries_cons_eq_ok_iff.mp hround with ⟨hnone, hround⟩ | ⟨t, u, ht, hu, hround⟩
    · obtain ⟨hnext, hkept, hreached⟩ := ih h hbelow hround
      refine ⟨hnext, hkept, fun a ha hsettles hlevel => ?_⟩
      rcases List.mem_cons.mp ha with rfl | hrest
      · have hfull : terms.full a = none := by
          refine unfolding_eq_none (get?_eq_none_iff.mpr ?_) _
          rw [← h.names, ← get?_eq_none_iff, hnone]
        exact hkept a hsettles (hnone.trans hfull.symm)
      · exact hreached a hrest hsettles hlevel
    · obtain ⟨hnext, hkept, hreached⟩ := ih (h.insert ht hu)
        (fun a ha hlt => h.get?_insert_of_done ht hu ha (hbelow a ha hlt)) hround
      refine ⟨hnext, fun a ha hdone => hkept a ha (h.get?_insert_of_done ht hu ha hdone),
        fun a ha hsettles hlevel => ?_⟩
      rcases List.mem_cons.mp ha with rfl | hrest
      · refine hkept a hsettles ?_
        rw [get?_insert, if_pos rfl, eq_replace_of_substitute hu]
        refine (h.replace_eq_full hsettles ht fun b hb hknown => ?_).symm
        obtain ⟨hb, hdown⟩ := h.down a t hsettles ht b hb hknown
        exact hbelow b hb (by omega)
      · exact hreached a hrest hsettles hlevel

/-- An entry in which nothing is left to replace is done. -/
theorem done_of_notMem (h : terms.Unfolds rank current) (ha : terms.Settles a)
    (hpending : a ∉ pendingEntries current) : current.get? a = terms.full a := by
  cases hterm : current.get? a with
  | none =>
    refine (unfolding_eq_none (get?_eq_none_iff.mpr ?_) _).symm
    rw [← h.names, ← get?_eq_none_iff, hterm]
  | some t =>
    rw [h.keeps a t ha hterm, replace_eq_self fun b hb => ?_]
    refine unfolding_eq_none (get?_eq_none_iff.mpr ?_) _
    rw [← h.names, Bool.eq_false_iff]
    exact fun hknown => hpending (Refers.mem_pendingEntries ⟨t, hterm, hb, hknown⟩)

/-- Each round is enough for one more level. -/
theorem expandRounds (h : terms.Unfolds rank current) (hbelow : terms.DoneBelow rank level current)
    (hrounds : Shapeline.expandRounds rounds current = .ok result) :
    terms.Unfolds rank result ∧ terms.DoneBelow rank (level + rounds) result := by
  induction rounds generalizing current level with
  | zero => exact pure_eq_ok_iff.mp hrounds ▸ ⟨h, hbelow⟩
  | succ rounds ih =>
    rcases expandRounds_succ_eq_ok_iff.mp hrounds with ⟨hnone, rfl⟩ | ⟨next, -, hnext, hrounds⟩
    · exact ⟨h, fun a ha _ => h.done_of_notMem ha (hnone ▸ List.not_mem_nil)⟩
    · obtain ⟨hunfolds, hkept, hreached⟩ := h.expandEntries hbelow hnext
      have hlevel : terms.DoneBelow rank (level + 1) next := by
        intro a ha hlt
        by_cases hpending : a ∈ pendingEntries current
        · exact hreached a hpending ha (by omega)
        · exact hkept a ha (h.done_of_notMem ha hpending)
      obtain ⟨hresult, hdone⟩ := ih hunfolds hlevel hrounds
      exact ⟨hresult, by rwa [show level + (rounds + 1) = level + 1 + rounds by omega]⟩

end Unfolds

/-- The rounds are as many as the names, which is enough for all names that settle. -/
theorem get?_eq_full (hresult : resolveReferences terms = .ok result) (hname : terms.Settles name) :
    result.get? name = terms.full name := by
  obtain ⟨rank, hlevels⟩ := terms.exists_levels
  obtain ⟨hunfolds, hdone⟩ := hlevels.unfolds.expandRounds
    (fun _ _ hlt => absurd hlt (Nat.not_lt_zero _)) hresult
  cases hknown : terms.contains name with
  | true => exact hdone name hname (by simpa using hlevels.bound name hname hknown)
  | false =>
    rw [hunfolds.get?_eq_none hknown]
    exact (unfolding_eq_none (get?_eq_none_iff.mpr hknown) _).symm

/-- The result expands all names that settle. -/
theorem Settles.expandedBy (hname : terms.Settles name)
    (hresult : resolveReferences terms = .ok result) : terms.ExpandedBy result.get? name := by
  have hfull := hname.expandedBy_full
  refine ⟨?_, fun t ht => hfull.closed t (get?_eq_full hresult hname ▸ ht)⟩
  rw [get?_eq_full hresult hname, hfull.replaced]
  exact Option.map_congr fun t ht => replace_congr fun b hb =>
    (get?_eq_full hresult (hname.of_mem ht hb)).symm

end Dictionary

end Shapeline
