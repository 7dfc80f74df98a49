import Shapeline.Proofs.Divisors
import Shapeline.Proofs.Term.Composition

/-!
# Replacing names without checks

A substitution refuses a divisor that becomes zero. Replacing names in the tree alone always has a
result, and it is that of the substitution as long as there is one. What goes wrong otherwise can be
read off the replaced tree: one of its divisors is the zero function.
-/

namespace Shapeline.Term

/-- The tree with the names that have a replacement replaced. -/
def replace (f : String → Option Term) : Term → Term
  | const n => const n
  | sym name => (f name).getD (sym name)
  | hole p => (f p.name).getD (hole p)
  | op o left right => op o (left.replace f) (right.replace f)

variable {f g : String → Option Term} {terms : Dictionary Term} {t u : Term} {name : String}

/-- What becomes of the symbols of a tree is all that matters. -/
theorem replace_congr (h : ∀ name ∈ t.symbols, f name = g name) : t.replace f = t.replace g := by
  induction t with
  | const n => rfl
  | sym name => rw [replace, replace, h name (by simp [symbols])]
  | hole p => rw [replace, replace, h p.name (by simp [symbols])]
  | op o left right ihl ihr =>
    rw [replace, replace, ihl fun name hname => h name (Names.mem_union.mpr (Or.inl hname)),
      ihr fun name hname => h name (Names.mem_union.mpr (Or.inr hname))]

/-- A tree of which no symbol is replaced stays as it is. -/
theorem replace_eq_self (h : ∀ name ∈ t.symbols, f name = none) : t.replace f = t := by
  induction t with
  | const n => rfl
  | sym name => rw [replace, h name (by simp [symbols]), Option.getD_none]
  | hole p => rw [replace, h p.name (by simp [symbols]), Option.getD_none]
  | op o left right ihl ihr =>
    rw [replace, ihl fun name hname => h name (Names.mem_union.mpr (Or.inl hname)),
      ihr fun name hname => h name (Names.mem_union.mpr (Or.inr hname))]

/-- Replacing names twice in a row makes no difference if the second replacement takes the first
replacements of the symbols to its own ones. -/
theorem replace_replace
    (h : ∀ name ∈ t.symbols, ∀ r, f name = some r → g name = some (r.replace g)) :
    (t.replace f).replace g = t.replace g := by
  have hleaf {name : String} {stays : Term} (hstays : stays.replace g = (g name).getD stays)
      (hname : ∀ r, f name = some r → g name = some (r.replace g)) :
      ((f name).getD stays).replace g = (g name).getD stays := by
    cases hmap : f name with
    | none => exact hstays
    | some r => rw [hname r hmap, Option.getD_some, Option.getD_some]
  induction t with
  | const n => rfl
  | sym name => exact hleaf rfl (h name (by simp [symbols]))
  | hole p => exact hleaf rfl (h p.name (by simp [symbols]))
  | op o left right ihl ihr =>
    rw [replace, replace, replace,
      ihl fun name hname => h name (Names.mem_union.mpr (Or.inl hname)),
      ihr fun name hname => h name (Names.mem_union.mpr (Or.inr hname))]

/-- The symbols of the new tree are those that are not replaced and those of replacements. -/
theorem mem_symbols_replace (h : name ∈ (t.replace f).symbols) :
    name ∈ t.symbols ∧ f name = none ∨
      ∃ other ∈ t.symbols, ∃ r, f other = some r ∧ name ∈ r.symbols := by
  have hleaf {leaf : String} {stays : Term} (hstays : stays.symbols = [leaf])
      (h : name ∈ ((f leaf).getD stays).symbols) :
      name ∈ [leaf] ∧ f name = none ∨
        ∃ other ∈ [leaf], ∃ r, f other = some r ∧ name ∈ r.symbols := by
    cases hmap : f leaf with
    | none =>
      rw [hmap, Option.getD_none, hstays] at h
      exact Or.inl ⟨h, List.mem_singleton.mp h ▸ hmap⟩
    | some r => exact Or.inr ⟨leaf, List.mem_cons_self, r, hmap, by rwa [hmap] at h⟩
  induction t with
  | const n => cases h
  | sym leaf => exact hleaf rfl h
  | hole p => exact hleaf rfl h
  | op o left right ihl ihr =>
    simp only [replace, symbols, Names.mem_union] at h ⊢
    rcases h with h | h
    · exact (ihl h).imp (.imp_left Or.inl) (.imp fun _ => .imp_left Or.inl)
    · exact (ihr h).imp (.imp_left Or.inr) (.imp fun _ => .imp_left Or.inr)

/-- What a substitution by terms yields is the replaced tree. -/
theorem eq_replace_of_substitute (h : t.substituteTerms terms = .ok u) :
    u = t.replace terms.get? := by
  have hleaf {name : String} {stays u : Term}
      (h : (Substitution.ofTerms terms name).getD (pure stays) = .ok u) :
      u = (terms.get? name).getD stays := by
    rcases getD_eq_ok_iff.mp h with hmap | ⟨hmap, rfl⟩
    · rw [Substitution.ofTerms_eq_ok_iff.mp hmap, Option.getD_some]
    · rw [Substitution.ofTerms_eq_none_iff.mp hmap, Option.getD_none]
  induction t generalizing u with
  | const n => exact pure_eq_ok_iff.mp h
  | sym name => exact hleaf h
  | hole p => exact hleaf h
  | op o left right ihl ihr =>
    obtain ⟨l, r, hl, hr, rfl, -⟩ := substitute_op_iff.mp h
    rw [replace, ihl hl, ihr hr]

/-- A substitution by terms can be made if the replaced tree lowers. -/
theorem substitute_of_lowers_replace (h : (t.replace terms.get?).Lowers) :
    t.substituteTerms terms = .ok (t.replace terms.get?) := by
  have hleaf (name : String) (stays : Term) :
      (Substitution.ofTerms terms name).getD (pure stays) = .ok ((terms.get? name).getD stays) := by
    rw [Substitution.ofTerms]
    cases terms.get? name <;> rfl
  induction t with
  | const n => rfl
  | sym name => exact hleaf name _
  | hole p => exact hleaf p.name _
  | op o left right ihl ihr =>
    obtain ⟨hleft, hright, hzero⟩ := lowers_op_iff.mp h
    exact substitute_op (ihl hleft) (ihr hright) fun ho => ⟨hright, hzero ho⟩

/-- A term without a normal form has a divisor that is the zero function and has a normal form
itself. -/
theorem exists_vanishing_divisor (h : ¬ t.Lowers) : ∃ d ∈ t.divisors, d.Lowers ∧ d.Vanishes := by
  induction t with
  | op o left right ihl ihr =>
    rw [divisors]
    by_cases hleft : left.Lowers
    · by_cases hright : right.Lowers
      · have hzero : o = .div ∧ right.Vanishes := by
          by_contra hnot
          exact h (lowers_op_iff.mpr ⟨hleft, hright, fun ho hvanish => hnot ⟨ho, hvanish⟩⟩)
        exact ⟨right, by simp [hzero.1], hright, hzero.2⟩
      · obtain ⟨d, hd, hdivisor⟩ := ihr hright
        exact ⟨d, by simp [hd], hdivisor⟩
    · obtain ⟨d, hd, hdivisor⟩ := ihl hleft
      exact ⟨d, by simp [hd], hdivisor⟩
  | _ => exact absurd ⟨_, rfl⟩ h

end Shapeline.Term
