import Mathlib.Data.Finset.Card
import Mathlib.Logic.Relation
import Shapeline.Proofs.Dictionary
import Shapeline.Proofs.Term.Composition

/-!
# Expanding references

The terms of a dictionary may mention names of the dictionary. A second dictionary expands the first
if substituting it in a term of the first gives the term that it has itself under that name. If no
term refers back to its own name, however indirectly, then there is at most one expansion, and the
rounds of replacements find it exactly if there is one. The order in which the names came plays no
part in this.
-/

namespace Shapeline

open Term

/-- A relation that always leads down has no cycles. -/
theorem not_transGen_of_rank {r : String → String → Prop} {rank : String → ℕ}
    (h : ∀ a b, r a b → rank b < rank a) (name : String) : ¬ Relation.TransGen r name name := by
  have hlt {a b : String} (hab : Relation.TransGen r a b) : rank b < rank a := by
    induction hab with
    | single hab => exact h _ _ hab
    | tail _ hbc ih => exact (h _ _ hbc).trans ih
  exact fun hcycle => lt_irrefl _ (hlt hcycle)

namespace Dictionary

variable {terms terms' next result goal goal' : Dictionary Term} {names : List String}
  {name a b : String} {t u : Term} {rank : String → ℕ} {gap rounds : ℕ}

/-- The term of one name mentions another name that has a term. -/
def Refers (terms : Dictionary Term) (a b : String) : Prop :=
  ∃ t, terms.get? a = some t ∧ b ∈ t.symbols ∧ terms.contains b = true

/-- No term refers back to its own name, also by way of other names. -/
def Acyclic (terms : Dictionary Term) : Prop := ∀ name, ¬ Relation.TransGen terms.Refers name name

/-- Substituting a dictionary in the terms of another yields its own terms. -/
structure ExpandsTo (terms goal : Dictionary Term) : Prop where
  /-- Both have terms for the same names. -/
  names : ∀ name, goal.contains name = terms.contains name
  /-- Substituting the second in a term of the first yields its own term of that name. -/
  values : ∀ name t u, terms.get? name = some t → goal.get? name = some u →
    t.substituteTerms goal = .ok u

/-- Every reference leads down by more than a gap. -/
def Descends (rank : String → ℕ) (gap : ℕ) (terms : Dictionary Term) : Prop :=
  ∀ a b, terms.Refers a b → rank b + gap < rank a

/-- The names that can be reached become fewer with every reference to a name that does not refer back
to itself. -/
theorem exists_rank (terms : Dictionary Term) :
    ∃ rank : String → ℕ,
      (∀ a b, terms.Refers a b → ¬ Relation.TransGen terms.Refers b b → rank b < rank a) ∧
      ∀ name, terms.contains name = true → ¬ Relation.TransGen terms.Refers name name →
        rank name < terms.size := by
  classical
  let reached (a : String) : Finset String :=
    terms.keys.toFinset.filter fun b => Relation.TransGen terms.Refers a b
  have hkey {name : String} (hname : terms.contains name = true) : name ∈ terms.keys.toFinset :=
    List.mem_toFinset.mpr (List.contains_iff_mem.mp hname)
  refine ⟨fun a => (reached a).card, fun a b hab hfree => ?_, fun name hname hfree => ?_⟩
  · obtain ⟨t, ht, hmem, hb⟩ := hab
    have hsingle : Relation.TransGen terms.Refers a b := .single ⟨t, ht, hmem, hb⟩
    refine Finset.card_lt_card (Finset.ssubset_iff_of_subset ?_ |>.mpr ⟨b, ?_, ?_⟩)
    · intro c hc
      obtain ⟨hkeys, hreach⟩ := Finset.mem_filter.mp hc
      exact Finset.mem_filter.mpr ⟨hkeys, hsingle.trans hreach⟩
    · exact Finset.mem_filter.mpr ⟨hkey hb, hsingle⟩
    · exact fun hcycle => hfree (Finset.mem_filter.mp hcycle).2
  · have hsize : terms.keys.toFinset.card ≤ terms.size := by
      have hlength : terms.keys.length = terms.size := List.length_map _
      exact hlength ▸ terms.keys.toFinset_card_le
    refine lt_of_lt_of_le (Finset.card_lt_card ?_) hsize
    refine Finset.ssubset_iff_of_subset (Finset.filter_subset _ _) |>.mpr ⟨name, hkey hname, ?_⟩
    exact fun hcycle => hfree (Finset.mem_filter.mp hcycle).2

/-- Without cycles every reference leads down. -/
theorem Acyclic.exists_rank (h : terms.Acyclic) :
    ∃ rank : String → ℕ, terms.Descends rank 0 ∧
      ∀ name, terms.contains name = true → rank name < terms.size := by
  obtain ⟨rank, hrank, hbound⟩ := terms.exists_rank
  exact ⟨rank, fun a b hab => hrank a b hab (h b), fun name hname => hbound name hname (h name)⟩

/-- There are no cycles if every reference leads down. -/
theorem Descends.acyclic (h : terms.Descends rank 0) : terms.Acyclic :=
  not_transGen_of_rank h

/-- The order of the names plays no part in whether there are cycles. -/
theorem Acyclic.congr (h : terms.Acyclic) (hsame : terms.Same terms') : terms'.Acyclic := by
  have hrefers (a b : String) (hab : terms'.Refers a b) : terms.Refers a b := by
    obtain ⟨t, ht, hb, hknown⟩ := hab
    exact ⟨t, by rw [← hsame a, ht], hb, by rw [← hsame.contains_eq b, hknown]⟩
  exact fun name hcycle => h name (Relation.TransGen.mono hrefers _ _ hcycle)

/-- Replacing the references of one term keeps the names. -/
theorem contains_insert (ht : terms.get? name = some t) (other : String) :
    (terms.insert name u).contains other = terms.contains other := by
  rw [Bool.eq_iff_iff, contains_iff, contains_iff, get?_insert]
  split
  · rename_i hname
    exact iff_of_true ⟨u, rfl⟩ ⟨t, hname ▸ ht⟩
  · rfl

/-- A dictionary has no term for a name that it does not contain. -/
theorem ofTerms_eq_none (h : terms.contains name = false) :
    Substitution.ofTerms terms name = none := by
  rw [Substitution.ofTerms_eq_none_iff]
  by_contra hne
  obtain ⟨t, ht⟩ := Option.ne_none_iff_exists'.mp hne
  rw [contains_iff.mpr ⟨t, ht⟩] at h
  cases h

namespace ExpandsTo

/-- Replacing the names of a dictionary first and expanding then is expanding. -/
theorem andThen_eq (h : terms.ExpandsTo goal) :
    (Substitution.ofTerms terms).andThen (.ofTerms goal) = .ofTerms goal := by
  funext name
  cases hterm : terms.get? name with
  | none =>
    have hnone : Substitution.ofTerms terms name = none :=
      Substitution.ofTerms_eq_none_iff.mpr hterm
    simp [Substitution.andThen, hnone]
  | some t =>
    obtain ⟨u, hu⟩ := contains_iff.mp (h.names name ▸ contains_iff.mpr ⟨t, hterm⟩)
    have hsome : Substitution.ofTerms terms name = some (.ok t) :=
      Substitution.ofTerms_eq_ok_iff.mpr hterm
    have hgoal : Substitution.ofTerms goal name = some (.ok u) :=
      Substitution.ofTerms_eq_ok_iff.mpr hu
    have hvalue : t.substitute (.ofTerms goal) = .ok u := h.values name t u hterm hu
    simp [Substitution.andThen, hsome, hgoal, hvalue]

/-- Where there is an expansion, the references of a term can be replaced, and the expansion is one
of the new terms too. -/
theorem insert (h : terms.ExpandsTo goal) (ht : terms.get? name = some t) :
    ∃ u, t.substituteTerms terms = .ok u ∧ (terms.insert name u).ExpandsTo goal := by
  obtain ⟨w, hw⟩ := contains_iff.mp (h.names name ▸ contains_iff.mpr ⟨t, ht⟩)
  have hgoal : t.substitute (.ofTerms goal) = .ok w := h.values name t w ht hw
  rw [← h.andThen_eq, substitute_andThen] at hgoal
  obtain ⟨u, hu, huw⟩ := hgoal
  refine ⟨u, hu, fun other => ?_, fun other s v hs hv => ?_⟩
  · rw [h.names other, contains_insert ht]
  · rw [get?_insert] at hs
    split at hs
    · rename_i hname
      obtain rfl := Option.some.inj hs
      obtain rfl := Option.some.inj (hw.symm.trans (hname ▸ hv))
      exact huw
    · exact h.values other s v hs hv

/-- An expansion of the new terms is one of the old terms, unless a term mentions its own name. -/
theorem of_insert (ht : terms.get? name = some t) (hu : t.substituteTerms terms = .ok u)
    (hself : name ∉ t.symbols) (h : (terms.insert name u).ExpandsTo goal) :
    terms.ExpandsTo goal := by
  have hnames (other : String) : goal.contains other = terms.contains other := by
    rw [h.names other, contains_insert ht]
  have hothers (other : String) (s v : Term) (hother : other ≠ name)
      (hs : terms.get? other = some s) (hv : goal.get? other = some v) :
      s.substituteTerms goal = .ok v :=
    h.values other s v (by rw [get?_insert, if_neg hother, hs]) hv
  refine ⟨hnames, fun other s v hs hv => ?_⟩
  by_cases hother : other = name
  · subst hother
    obtain rfl := Option.some.inj (ht.symm.trans hs)
    have huv : u.substitute (.ofTerms goal) = .ok v :=
      h.values other u v (by rw [get?_insert, if_pos rfl]) hv
    have hthen := substitute_andThen.mpr ⟨u, hu, huv⟩
    refine (substitute_congr fun symbol hsymbol => ?_).trans hthen
    have hne : symbol ≠ other := fun heq => hself (heq ▸ hsymbol)
    cases hterm : terms.get? symbol with
    | none =>
      have hnone : Substitution.ofTerms terms symbol = none :=
        Substitution.ofTerms_eq_none_iff.mpr hterm
      simp [Substitution.andThen, hnone]
    | some s =>
      obtain ⟨w, hw⟩ := contains_iff.mp (hnames symbol ▸ contains_iff.mpr ⟨s, hterm⟩)
      have hsome : Substitution.ofTerms terms symbol = some (.ok s) :=
        Substitution.ofTerms_eq_ok_iff.mpr hterm
      have hgoal : Substitution.ofTerms goal symbol = some (.ok w) :=
        Substitution.ofTerms_eq_ok_iff.mpr hw
      have hvalue : s.substitute (.ofTerms goal) = .ok w := hothers symbol s w hne hterm hw
      simp [Substitution.andThen, hsome, hgoal, hvalue]
  · exact hothers other s v hother hs hv

/-- Whether there is an expansion does not depend on the order of the names. -/
theorem congr (h : terms.ExpandsTo goal) (hsame : terms.Same terms') : terms'.ExpandsTo goal where
  names name := by rw [h.names name, hsame.contains_eq]
  values name t u ht hu := h.values name t u (by rw [← hsame name, ht]) hu

/-- There is one expansion only if all references lead down. -/
theorem same (h : terms.ExpandsTo goal) (h' : terms.ExpandsTo goal')
    (hrank : terms.Descends rank 0) : goal.Same goal' := by
  have hvalue (bound : ℕ) : ∀ name, rank name < bound → goal'.get? name = goal.get? name := by
    induction bound with
    | zero => exact fun name hlt => absurd hlt (Nat.not_lt_zero _)
    | succ bound ih =>
      intro name hlt
      cases hterm : terms.get? name with
      | none =>
        have hout : terms.contains name = false := by
          rw [Bool.eq_false_iff]
          intro hcontains
          obtain ⟨t, ht⟩ := contains_iff.mp hcontains
          cases hterm.symm.trans ht
        have hnone := ofTerms_eq_none ((h.names name).trans hout)
        have hnone' := ofTerms_eq_none ((h'.names name).trans hout)
        rw [Substitution.ofTerms_eq_none_iff] at hnone hnone'
        rw [hnone, hnone']
      | some t =>
        have hcontains : terms.contains name = true := contains_iff.mpr ⟨t, hterm⟩
        obtain ⟨u, hu⟩ := contains_iff.mp (h.names name ▸ hcontains)
        obtain ⟨u', hu'⟩ := contains_iff.mp (h'.names name ▸ hcontains)
        have hresult : t.substituteTerms goal = t.substituteTerms goal' := by
          refine substitute_congr fun symbol hsymbol => ?_
          cases hknown : terms.contains symbol with
          | true =>
            have hdown : rank symbol + 0 < rank name :=
              hrank name symbol ⟨t, hterm, hsymbol, hknown⟩
            rw [Substitution.ofTerms, Substitution.ofTerms, ih symbol (by omega)]
          | false =>
            rw [ofTerms_eq_none ((h.names symbol).trans hknown),
              ofTerms_eq_none ((h'.names symbol).trans hknown)]
        rw [h.values name t u hterm hu, h'.values name t u' hterm hu'] at hresult
        rw [hu, hu', Except.ok.inj hresult]
  exact fun name => hvalue (rank name + 1) name (Nat.lt_succ_self _)

end ExpandsTo

/-- Replacing the references of a term by terms whose references lead down leads further down. -/
theorem Descends.of_substitute (h : terms.Descends rank gap) (ht : terms.get? a = some t)
    (hu : t.substituteTerms terms = .ok u) (hb : b ∈ u.symbols)
    (hknown : terms.contains b = true) : rank b + (2 * gap + 1) < rank a := by
  rcases mem_symbols_substitute hu hb with ⟨-, hnone⟩ | ⟨other, hother, r, hr, hb⟩
  · obtain ⟨s, hs⟩ := contains_iff.mp hknown
    cases (Substitution.ofTerms_eq_none_iff.mp hnone).symm.trans hs
  · have hs := Substitution.ofTerms_eq_ok_iff.mp hr
    have hfirst := h a other ⟨t, ht, hother, contains_iff.mpr ⟨r, hs⟩⟩
    have hsecond := h other b ⟨r, hs, hb, hknown⟩
    omega

/-- After one replacement the references still lead down. -/
theorem Descends.insert (h : terms.Descends rank gap) (ht : terms.get? name = some t)
    (hu : t.substituteTerms terms = .ok u) : (terms.insert name u).Descends rank gap := by
  rintro a b ⟨s, hs, hb, hknown⟩
  rw [contains_insert ht] at hknown
  rw [get?_insert] at hs
  split at hs
  · rename_i hname
    obtain rfl := Option.some.inj hs
    have hfar := h.of_substitute (hname ▸ ht) hu hb hknown
    omega
  · exact h a b ⟨s, hs, hb, hknown⟩

/-- A round of replacements keeps the names and all terms that are not replaced. The references of
those that are replaced lead further down. -/
theorem Descends.expandEntries (h : terms.Descends rank gap)
    (hround : Shapeline.expandEntries names terms = .ok next) :
    (∀ name, next.contains name = terms.contains name) ∧
      (∀ name ∉ names, next.get? name = terms.get? name) ∧
      ∀ a ∈ names, ∀ b, next.Refers a b → rank b + (gap + 1) < rank a := by
  induction names generalizing terms with
  | nil =>
    obtain rfl := pure_eq_ok_iff.mp hround
    exact ⟨fun _ => rfl, fun _ _ => rfl, nofun⟩
  | cons first rest ih =>
    rcases expandEntries_cons_eq_ok_iff.mp hround with ⟨hnone, hround⟩ | ⟨t, u, ht, hu, hround⟩
    · obtain ⟨hcontains, hothers, hreplaced⟩ := ih h hround
      refine ⟨hcontains, fun name hname => hothers name (List.not_mem_of_not_mem_cons hname), ?_⟩
      intro a ha b hab
      by_cases hrest : a ∈ rest
      · exact hreplaced a hrest b hab
      · obtain rfl := (List.mem_cons.mp ha).resolve_right hrest
        obtain ⟨s, hs, -, -⟩ := hab
        rw [hothers a hrest, hnone] at hs
        cases hs
    · obtain ⟨hcontains, hothers, hreplaced⟩ := ih (h.insert ht hu) hround
      have hcontains' (name : String) : next.contains name = terms.contains name := by
        rw [hcontains, contains_insert ht]
      refine ⟨hcontains', fun name hname => ?_, fun a ha b hab => ?_⟩
      · have hrest := List.not_mem_of_not_mem_cons hname
        rw [hothers name hrest, get?_insert, if_neg (List.ne_of_not_mem_cons hname)]
      · by_cases hrest : a ∈ rest
        · exact hreplaced a hrest b hab
        · obtain rfl := (List.mem_cons.mp ha).resolve_right hrest
          obtain ⟨s, hs, hb, hknown⟩ := hab
          rw [hothers a hrest, get?_insert, if_pos rfl] at hs
          obtain rfl := Option.some.inj hs
          have hfar := h.of_substitute ht hu hb (hcontains' b ▸ hknown)
          omega

/-- The terms that refer to others are those that are replaced. -/
theorem Refers.mem_pendingEntries (h : terms.Refers a b) : a ∈ pendingEntries terms := by
  obtain ⟨t, ht, hb, hknown⟩ := h
  have hany : t.symbols.any terms.contains = true := List.any_eq_true.mpr ⟨b, hb, hknown⟩
  exact List.mem_map.mpr ⟨(a, t), List.mem_filter.mpr ⟨mem_entries_iff.mpr ht, hany⟩, rfl⟩

/-- Every round leads further down. -/
theorem Descends.expandRounds (h : terms.Descends rank gap)
    (hrounds : Shapeline.expandRounds rounds terms = .ok result) :
    (∀ name, result.contains name = terms.contains name) ∧
      result.Descends rank (gap + rounds) := by
  induction rounds generalizing terms gap with
  | zero =>
    obtain rfl := pure_eq_ok_iff.mp hrounds
    exact ⟨fun _ => rfl, h⟩
  | succ rounds ih =>
    rcases expandRounds_succ_eq_ok_iff.mp hrounds with ⟨hnone, rfl⟩ | ⟨next, -, hnext, hrounds⟩
    · refine ⟨fun _ => rfl, fun a b hab => ?_⟩
      have hpending := hab.mem_pendingEntries
      rw [hnone] at hpending
      cases hpending
    · obtain ⟨hcontains, hothers, hreplaced⟩ := h.expandEntries hnext
      have hdescends : next.Descends rank (gap + 1) := by
        intro a b hab
        by_cases ha : a ∈ pendingEntries terms
        · exact hreplaced a ha b hab
        · obtain ⟨s, hs, hb, hknown⟩ := hab
          rw [hothers a ha] at hs
          exact absurd (Refers.mem_pendingEntries ⟨s, hs, hb, hcontains b ▸ hknown⟩) ha
      obtain ⟨hcontains', hresult⟩ := ih hdescends hrounds
      refine ⟨fun name => (hcontains' name).trans (hcontains name), fun a b hab => ?_⟩
      have hfar := hresult a b hab
      omega

/-- What expands the terms after a round of replacements expands those before. -/
theorem ExpandsTo.of_expandEntries (hrank : terms.Descends rank gap)
    (hround : Shapeline.expandEntries names terms = .ok next) (h : next.ExpandsTo goal) :
    terms.ExpandsTo goal := by
  induction names generalizing terms with
  | nil => exact pure_eq_ok_iff.mp hround ▸ h
  | cons first rest ih =>
    rcases expandEntries_cons_eq_ok_iff.mp hround with ⟨-, hround⟩ | ⟨t, u, ht, hu, hround⟩
    · exact ih hrank hround
    · have hself : first ∉ t.symbols := by
        intro hmem
        have hdown := hrank first first ⟨t, ht, hmem, contains_iff.mpr ⟨t, ht⟩⟩
        omega
      exact .of_insert ht hu hself (ih (hrank.insert ht hu) hround)

/-- What expands the terms after all rounds expands those before. -/
theorem ExpandsTo.of_expandRounds (hrank : terms.Descends rank gap)
    (hrounds : Shapeline.expandRounds rounds terms = .ok result) (h : result.ExpandsTo goal) :
    terms.ExpandsTo goal := by
  induction rounds generalizing terms gap with
  | zero => exact pure_eq_ok_iff.mp hrounds ▸ h
  | succ rounds ih =>
    rcases expandRounds_succ_eq_ok_iff.mp hrounds with ⟨-, rfl⟩ | ⟨next, hsome, hnext, hrounds⟩
    · exact h
    · have hone : Shapeline.expandRounds 1 terms = .ok next :=
        expandRounds_succ_eq_ok_iff.mpr (Or.inr ⟨next, hsome, hnext, rfl⟩)
      exact .of_expandEntries hrank hnext (ih (hrank.expandRounds hone).2 hrounds)

/-- Where there is an expansion, a round of replacements can be made and the expansion stays one. -/
theorem ExpandsTo.expandEntries (h : terms.ExpandsTo goal) (names : List String) :
    ∃ next, Shapeline.expandEntries names terms = .ok next ∧ next.ExpandsTo goal := by
  induction names generalizing terms with
  | nil => exact ⟨terms, rfl, h⟩
  | cons first rest ih =>
    simp only [expandEntries_cons_eq_ok_iff]
    cases ht : terms.get? first with
    | none =>
      obtain ⟨next, hround, hgoal⟩ := ih h
      exact ⟨next, Or.inl ⟨rfl, hround⟩, hgoal⟩
    | some t =>
      obtain ⟨u, hu, hnext⟩ := h.insert ht
      obtain ⟨next, hround, hgoal⟩ := ih hnext
      exact ⟨next, Or.inr ⟨t, u, rfl, hu, hround⟩, hgoal⟩

/-- Where there is an expansion, all rounds can be made. -/
theorem ExpandsTo.expandRounds (h : terms.ExpandsTo goal) (rounds : ℕ) :
    ∃ result, Shapeline.expandRounds rounds terms = .ok result := by
  induction rounds generalizing terms with
  | zero => exact ⟨terms, rfl⟩
  | succ rounds ih =>
    simp only [expandRounds_succ_eq_ok_iff]
    by_cases hnone : pendingEntries terms = []
    · exact ⟨terms, Or.inl ⟨hnone, rfl⟩⟩
    · obtain ⟨next, hnext, hgoal⟩ := h.expandEntries (pendingEntries terms)
      obtain ⟨result, hresult⟩ := ih hgoal
      exact ⟨result, Or.inr ⟨next, hnone, hnext, hresult⟩⟩

/-- Without cycles the rounds end in the expansion of the terms, since a reference that is left
would lead down further than there are names. -/
theorem Acyclic.expandsTo (h : terms.Acyclic) (hresult : resolveReferences terms = .ok result) :
    terms.ExpandsTo result := by
  obtain ⟨rank, hrank, hbound⟩ := h.exists_rank
  obtain ⟨hcontains, hdescends⟩ := hrank.expandRounds hresult
  refine .of_expandRounds hrank hresult ⟨fun _ => rfl, fun name t u ht hu => ?_⟩
  obtain rfl := Option.some.inj (ht.symm.trans hu)
  refine substitute_eq_self fun symbol hsymbol => ?_
  by_contra hne
  obtain ⟨s, hs⟩ := Option.ne_none_iff_exists'.mp (mt Substitution.ofTerms_eq_none_iff.mpr hne)
  have hfar := hdescends name symbol ⟨t, ht, hsymbol, contains_iff.mpr ⟨s, hs⟩⟩
  have hsize := hbound name (hcontains name ▸ contains_iff.mpr ⟨t, ht⟩)
  omega

/-- Without cycles the expansion of the same terms in another order is found too, and it is the
same. -/
theorem Acyclic.resolveReferences_same (h : terms.Acyclic) (hsame : terms.Same terms')
    (hresult : resolveReferences terms = .ok result) :
    ∃ result', resolveReferences terms' = .ok result' ∧ result.Same result' := by
  have hexpands := h.expandsTo hresult
  obtain ⟨result', hresult'⟩ := (hexpands.congr hsame).expandRounds terms'.size
  obtain ⟨rank, hrank, -⟩ := h.exists_rank
  have hexpands' := ((h.congr hsame).expandsTo hresult').congr hsame.symm
  exact ⟨result', hresult', hexpands.same hexpands' hrank⟩

end Dictionary

end Shapeline
