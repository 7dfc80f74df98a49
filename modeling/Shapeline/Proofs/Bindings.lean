import Shapeline.Proofs.Term.Unfolding

/-!
# Bindings that refer to each other

The values of variables that are dimensions are bound with the references between them replaced.
Without cycles that is the full expansion of every value, whatever order the values came in; it
fails only where a divisor in a full expansion becomes zero. With cycles the replacements end all
the same, and what they yield still has the value of its name wherever the bindings hold as
equations.
-/

namespace Shapeline

open Term

namespace Dictionary

variable {terms terms' next result : Dictionary Term} {names : List String} {name : String}
  {rounds : ℕ}

/-- The values that are dimensions. -/
def dimensions (values : Dictionary Value) : Dictionary Term :=
  values.filterMap fun _ value => value.toTerm?

/-- The values that are dimensions keep their names and their order. -/
theorem keys_dimensions (values : Dictionary Value) :
    values.dimensions.keys = (values.entries.filter (·.2.isDimension)).map Prod.fst := by
  rw [keys, dimensions, entries_filterMap, List.map_filterMap, ← List.filterMap_eq_map,
    List.filterMap_filter]
  refine List.filterMap_congr fun entry _ => ?_
  obtain ⟨name, value⟩ := entry
  unfold Value.isDimension
  cases hterm : value.toTerm? <;> simp [hterm]

/-- Replacing entries keeps the names in their order. -/
theorem keys_expandEntries (h : expandEntries names terms = .ok next) : next.keys = terms.keys := by
  induction names generalizing terms with
  | nil => rw [pure_eq_ok_iff.mp h]
  | cons first rest ih =>
    rcases expandEntries_cons_eq_ok_iff.mp h with ⟨-, h⟩ | ⟨t, u, ht, -, h⟩
    · exact ih h
    · rw [ih h, keys_insert, if_pos]
      exact List.contains_iff_mem.mp (contains_iff.mpr ⟨t, ht⟩)

/-- Rounds of replacements keep the names in their order. -/
theorem keys_expandRounds (h : expandRounds rounds terms = .ok result) :
    result.keys = terms.keys := by
  induction rounds generalizing terms with
  | zero => rw [pure_eq_ok_iff.mp h]
  | succ rounds ih =>
    rcases expandRounds_succ_eq_ok_iff.mp h with ⟨-, rfl⟩ | ⟨next, -, hnext, h⟩
    · rfl
    · rw [ih h, keys_expandEntries hnext]

/-- Numbers for the symbols turn the bindings into equations that hold wherever they have values. -/
def HoldsAt (terms : Dictionary Term) (ρ : String → ℚ) : Prop :=
  ∀ name t x, terms.get? name = some t → t.valueAt (.total ρ) = some x → x = ρ name

/-- Substituting equations that hold gives further equations that hold. -/
theorem HoldsAt.eq_of_substitute {ρ : String → ℚ} {t u : Term} {x : ℚ} (h : terms.HoldsAt ρ)
    (ht : ∀ x, t.valueAt (.total ρ) = some x → x = ρ name) (hu : t.substituteTerms terms = .ok u)
    (hx : u.valueAt (.total ρ) = some x) : x = ρ name := by
  rw [valueAt_of_substitute hu] at hx
  refine ht x (valueAt_mono (fun symbol _ y hy => ?_) hx)
  unfold Instantiation.under at hy
  split at hy
  · exact hy
  · rename_i r hr
    rw [Instantiation.total, h symbol r y (Substitution.ofTerms_eq_ok_iff.mp hr) hy]
  · cases hy

/-- Without cycles all references can be replaced exactly if all full terms lower. -/
theorem Acyclic.resolves_iff (h : terms.Acyclic)
    (hlowers : ∀ name t, terms.get? name = some t → t.Lowers) :
    (∃ result, resolveReferences terms = .ok result) ↔
      ∀ name t, terms.full name = some t → t.Lowers := by
  constructor
  · rintro ⟨result, hresult⟩ name t ht
    rw [← get?_eq_full hresult (.of_acyclic h name)] at ht
    exact all_expandRounds (Q := fun _ t => t.Lowers) (fun terms _ t u hterms ht hu =>
      ht.substitute (Substitution.lowers_ofTerms_iff.mpr hterms) hu) hlowers hresult name t ht
  · intro hfull
    have hexpands : terms.ExpandsTo (terms.filterMap fun name _ => terms.full name) := by
      have hgoal (name : String) :
          (terms.filterMap fun name _ => terms.full name).get? name = terms.full name := by
        rw [get?_filterMap]
        cases hterm : terms.get? name with
        | none => exact (unfolding_eq_none hterm _).symm
        | some t => rfl
      refine ⟨fun name => ?_, fun name t u ht hu => ?_⟩
      · rw [Bool.eq_iff_iff, contains_iff, contains_iff, hgoal, full_eq (.of_acyclic h name)]
        simp
      · rw [hgoal, full_eq (.of_acyclic h name), ht] at hu
        have hreplace : t.replace (terms.filterMap fun name _ => terms.full name).get? = u :=
          (replace_congr fun other _ => hgoal other).trans (Option.some.inj hu)
        rw [← hreplace]
        refine substitute_of_lowers_replace (hreplace ▸ hfull name u ?_)
        rw [full_eq (.of_acyclic h name), ht, hu]
    exact hexpands.expandRounds _

/-- The full terms do not depend on the order of the names. -/
theorem full_congr (hsame : terms.Same terms') (hsize : terms'.size = terms.size) :
    terms'.full = terms.full := by
  have hunfolding (depth : ℕ) : terms'.unfolding depth = terms.unfolding depth := by
    induction depth with
    | zero => rfl
    | succ depth ih =>
      funext name
      rw [unfolding, unfolding, ih, hsame name]
  rw [full, full, hsize, hunfolding]

end Dictionary

variable {values values' : Dictionary Value} {bindings : Dictionary Term}

/-- Without cycles the references of values that lower cannot be replaced exactly if a divisor in a
full term is zero. -/
theorem raisesArithmetic_resolveBindings_iff (hacyclic : values.dimensions.Acyclic)
    (hlowers : ∀ name t, values.dimensions.get? name = some t → t.Lowers) :
    RaisesArithmetic (resolveBindings values) ↔ ∃ name t, values.dimensions.full name = some t ∧
      ∃ d ∈ t.divisors, d.Lowers ∧ d.Vanishes := by
  constructor
  · rintro ⟨d, hd, -⟩
    have hfails : ¬ ∃ result, resolveReferences values.dimensions = .ok result := by
      rintro ⟨result, hresult⟩
      cases hd.symm.trans hresult
    rw [hacyclic.resolves_iff hlowers] at hfails
    simp only [not_forall] at hfails
    obtain ⟨name, t, ht, hnot⟩ := hfails
    exact ⟨name, t, ht, exists_vanishing_divisor hnot⟩
  · rintro ⟨name, t, ht, d, hd, -, hvanish⟩
    have hnever : Guarded (fun _ => False) (resolveBindings values) := by
      refine .of_divisions fails_resolveBindings fun bindings hbindings => ?_
      have hsound := sound_iff_lowers.mpr
        ((hacyclic.resolves_iff hlowers).mp ⟨bindings, hbindings⟩ name t ht)
      exact not_vanishes_iff.mpr (hsound d hd) hvanish
    exact hnever.resolve_right fun ⟨_, _, hfalse⟩ => hfalse

/-- **Bindings are fully expanded.** The values that are dimensions are bound under their names, in
their order. Where no cycle can be reached from a name, it is bound to its full expansion, and
wherever the values hold as equations, all bindings do. The only thing that can go wrong is a
division by zero. Without cycles and with values that lower, that happens exactly if a full
expansion divides by zero, and neither this nor the expansions depend on the order of the values. -/
theorem bindings_fully_expanded (values : Dictionary Value) :
    Guarded (fun bindings =>
        bindings.keys = (values.entries.filter (·.2.isDimension)).map Prod.fst ∧
        (∀ name, values.dimensions.Settles name →
          values.dimensions.ExpandedBy bindings.get? name) ∧
        ∀ ρ, values.dimensions.HoldsAt ρ → bindings.HoldsAt ρ) (resolveBindings values) ∧
      (values.dimensions.Acyclic → (∀ name t, values.dimensions.get? name = some t → t.Lowers) →
        ∃ full, (∀ name, values.dimensions.ExpandedBy full name) ∧
          ∀ values' : Dictionary Value, values.entries.Perm values'.entries →
            Guarded (fun bindings => bindings.get? = full) (resolveBindings values') ∧
            (RaisesArithmetic (resolveBindings values') ↔
              ∃ name t, full name = some t ∧ ∃ d ∈ t.divisors, d.Lowers ∧ d.Vanishes)) := by
  constructor
  · refine .of_divisions fails_resolveBindings fun bindings hbindings =>
      ⟨?_, fun name hname => hname.expandedBy hbindings, fun ρ hρ name t x ht => ?_⟩
    · rw [← values.keys_dimensions]
      exact Dictionary.keys_expandRounds hbindings
    · refine all_expandRounds
        (Q := fun name t => ∀ x, t.valueAt (.total ρ) = some x → x = ρ name)
        (fun terms name t u hterms ht hu x => ?_) (fun name t ht x => hρ name t x ht)
        hbindings name t ht x
      exact Dictionary.HoldsAt.eq_of_substitute (fun other r x hr => hterms other r hr x) ht hu
  · intro hacyclic hlowers
    refine ⟨values.dimensions.full,
      fun name => (Dictionary.Settles.of_acyclic hacyclic name).expandedBy_full,
      fun values' hperm => ?_⟩
    have hsame : values.dimensions.Same values'.dimensions :=
      (Dictionary.Same.of_perm hperm).filterMap _
    have hsize : values'.dimensions.size = values.dimensions.size := by
      simp only [Dictionary.size, Dictionary.dimensions, Dictionary.entries_filterMap]
      exact (hperm.symm.filterMap _).length_eq
    have hacyclic' := hacyclic.congr hsame
    rw [← Dictionary.full_congr hsame hsize]
    constructor
    · refine .of_divisions fails_resolveBindings fun bindings hbindings => funext fun name => ?_
      exact Dictionary.get?_eq_full hbindings (.of_acyclic hacyclic' name)
    · exact raisesArithmetic_resolveBindings_iff hacyclic' fun name t ht =>
        hlowers name t (hsame name ▸ ht)

/-- A chain of references of which the first name depends on all others, beside a value that is no
dimension. -/
def chainedValues : Dictionary Value := .ofList
  [("A", .dim (.op .div (.sym "B") (.sym "C"))), ("B", .dim (.op .mul (.sym "C") (.const 2))),
    ("rate", .bool true), ("C", .dim (.sym "N"))]

/-- The chain has no cycle and no divisor that is zero. -/
theorem chainedValues_fully_expanded :
    chainedValues.dimensions.Acyclic ∧
      (∀ name t, chainedValues.dimensions.get? name = some t → t.Lowers) ∧
      ∃ full, (∀ name, chainedValues.dimensions.ExpandedBy full name) ∧
        ∀ values' : Dictionary Value, chainedValues.entries.Perm values'.entries →
          Guarded (fun bindings => bindings.get? = full) (resolveBindings values') ∧
          (RaisesArithmetic (resolveBindings values') ↔
            ∃ name t, full name = some t ∧ ∃ d ∈ t.divisors, d.Lowers ∧ d.Vanishes) := by
  let rank (name : String) : ℕ := if name = "A" then 2 else if name = "B" then 1 else 0
  have hdown : ∀ e ∈ chainedValues.dimensions.entries, ∀ b ∈ e.2.symbols,
      chainedValues.dimensions.contains b = true → rank b + 0 < rank e.1 := by decide
  have hdescends : chainedValues.dimensions.Descends rank 0 := by
    rintro a b ⟨t, ht, hb, hknown⟩
    exact hdown (a, t) (Dictionary.mem_entries_iff.mpr ht) b hb hknown
  have hacyclic := hdescends.acyclic
  have hlowers : ∀ name t, chainedValues.dimensions.get? name = some t → t.Lowers :=
    Dictionary.forall_get?_iff.mpr (by decide +kernel)
  exact ⟨hacyclic, hlowers, (bindings_fully_expanded chainedValues).2 hacyclic hlowers⟩

end Shapeline
