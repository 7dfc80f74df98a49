import Shapeline.Proofs.Dictionary
import Shapeline.Proofs.Term.Equivalence

/-!
# The meaning of substitution

Substituting in a term changes the numbers of its symbols: the result has, at an instantiation, the
value of the term at the instantiation in which every replaced symbol has the value of its
replacement. Two terms agree under a substitution if their results agree. Such agreement survives a
further substitution of symbols that the first one does not deal with.
-/

namespace Shapeline

/-- The numbers of the symbols before a substitution: those of the replacements. -/
def Instantiation.under (ρ : Instantiation) (σ : Substitution) : Instantiation := fun name =>
  match σ name with
  | none => ρ name
  | some (.ok t) => t.valueAt ρ
  | some (.error _) => none

namespace Substitution

/-- Every replacement lowers. -/
def Lowers (σ : Substitution) : Prop := ∀ name t, σ name = some (.ok t) → t.Lowers

/-- The symbols that one substitution replaces are unknown to another, which neither replaces them
nor introduces them. -/
structure Apart (π σ : Substitution) : Prop where
  /-- The other substitution does not replace the symbols. -/
  unmapped : ∀ name, (π name).isSome → σ name = none
  /-- The replacements of the other substitution do not mention the symbols. -/
  fresh : ∀ name, (π name).isSome → ∀ other t, σ other = some (.ok t) → name ∉ t.symbols

/-- Substituting unknown symbols first leads to the numbers of another instantiation. -/
theorem Apart.exists_under_under {π σ : Substitution} (h : π.Apart σ) (ρ : Instantiation) :
    ∃ θ : Instantiation, (ρ.under σ).under π = θ.under σ := by
  refine ⟨fun name => if (π name).isSome then ((ρ.under σ).under π) name else ρ name, ?_⟩
  funext name
  by_cases hname : (π name).isSome
  · simp [Instantiation.under, h.unmapped name hname, hname]
  · have hnone : π name = none := by simpa using hname
    have hleft : ((ρ.under σ).under π) name = (ρ.under σ) name := by
      simp [Instantiation.under, hnone]
    rw [hleft]
    unfold Instantiation.under
    split
    · simp [hnone]
    · rename_i t hmap
      refine Term.valueAt_congr fun other hother => ?_
      have hfresh : ¬ (π other).isSome := fun hsome => h.fresh other hsome name t hmap hother
      simp [hfresh]
    · rfl

/-- What a dictionary of terms gives for a name. -/
theorem ofTerms_eq_some_iff {terms : Dictionary Term} {name : String} {r : Outcome Term} :
    ofTerms terms name = some r ↔ ∃ t, terms.get? name = some t ∧ r = .ok t := by
  simp [ofTerms, pure, Except.pure, eq_comm]

/-- A dictionary of terms replaces names by their terms. -/
theorem ofTerms_eq_ok_iff {terms : Dictionary Term} {name : String} {t : Term} :
    ofTerms terms name = some (.ok t) ↔ terms.get? name = some t := by
  simp [ofTerms_eq_some_iff]

/-- A dictionary of terms that lower replaces names by terms that lower. -/
theorem lowers_ofTerms_iff {terms : Dictionary Term} :
    (ofTerms terms).Lowers ↔ ∀ name t, terms.get? name = some t → t.Lowers := by
  simp only [Lowers, ofTerms_eq_ok_iff]

/-- A dictionary of terms replaces the names that it holds. -/
theorem ofTerms_eq_none_iff {terms : Dictionary Term} {name : String} :
    ofTerms terms name = none ↔ terms.get? name = none := by
  simp [ofTerms]

end Substitution

namespace Term

variable {σ π : Substitution} {ρ : Instantiation} {t u a b c a' b' c' left right : Term}
  {o : Operator} {name : String} {x : ℚ}

/-- A term that mentions no replaced symbol stays as it is. -/
theorem substitute_eq_self (h : ∀ name ∈ t.symbols, σ name = none) : t.substitute σ = .ok t := by
  cases t with
  | const n => rfl
  | sym name => simp [substitute, h name (by simp [symbols]), pure, Except.pure]
  | hole p => simp [substitute, h p.name (by simp [symbols]), pure, Except.pure]
  | op o left right =>
    have hmentions : (op o left right).mentions σ = false := by
      simpa [mentions] using h
    simp [substitute, hmentions, pure, Except.pure]

/-- A symbol is replaced by its replacement or stays. -/
theorem getD_eq_ok_iff {stays : Term} :
    (σ name).getD (pure stays) = .ok u ↔ σ name = some (.ok u) ∨ σ name = none ∧ u = stays := by
  cases σ name with
  | none => simp [pure_eq_ok_iff]
  | some r => simp

/-- An operator either mentions no replaced symbol and stays, or the operands are replaced and a
divisor among them is checked. -/
theorem substitute_op_eq_ok (h : (op o left right).substitute σ = .ok t) :
    ((∀ name ∈ (op o left right).symbols, σ name = none) ∧ t = op o left right) ∨
      ∃ l r, left.substitute σ = .ok l ∧ right.substitute σ = .ok r ∧ apply o l r = .ok t := by
  rw [substitute] at h
  split at h
  · obtain ⟨l, hl, h⟩ := bind_eq_ok_iff.mp h
    obtain ⟨r, hr, h⟩ := bind_eq_ok_iff.mp h
    exact Or.inr ⟨l, r, hl, hr, h⟩
  · rename_i hmentions
    refine Or.inl ⟨?_, pure_eq_ok_iff.mp h⟩
    simpa [mentions] using hmentions

/-- An operator is substituted in if its operands are and a divisor among the results does not
vanish. -/
theorem substitute_op {l r : Term} (hl : left.substitute σ = .ok l) (hr : right.substitute σ = .ok r)
    (hdiv : o = .div → r.Lowers ∧ ¬ r.Vanishes) :
    (op o left right).substitute σ = .ok (op o l r) := by
  rw [substitute]
  split
  · exact bind_eq_ok_iff.mpr ⟨l, hl, bind_eq_ok_iff.mpr ⟨r, hr, apply_eq_ok_iff.mpr ⟨hdiv, rfl⟩⟩⟩
  · rename_i hmentions
    have hnone : ∀ name ∈ (op o left right).symbols, σ name = none := by
      simpa [mentions] using hmentions
    have hl' : left.substitute σ = .ok left :=
      substitute_eq_self fun name hname => hnone name (Names.mem_union.mpr (Or.inl hname))
    have hr' : right.substitute σ = .ok right :=
      substitute_eq_self fun name hname => hnone name (Names.mem_union.mpr (Or.inr hname))
    rw [Except.ok.inj (hl.symm.trans hl'), Except.ok.inj (hr.symm.trans hr')]
    rfl

/-- A replaced term has the value of the term under the substitution. -/
theorem valueAt_of_substitute (h : t.substitute σ = .ok u) :
    u.valueAt ρ = t.valueAt (ρ.under σ) := by
  induction t generalizing u with
  | const n =>
    obtain rfl := pure_eq_ok_iff.mp h
    rfl
  | sym name =>
    rcases getD_eq_ok_iff.mp h with hmap | ⟨hmap, rfl⟩ <;>
      simp [valueAt, Instantiation.under, hmap]
  | hole p =>
    rcases getD_eq_ok_iff.mp h with hmap | ⟨hmap, rfl⟩ <;>
      simp [valueAt, Instantiation.under, hmap]
  | op o left right ihl ihr =>
    rcases substitute_op_eq_ok h with ⟨hnone, rfl⟩ | ⟨l, r, hl, hr, h⟩
    · exact valueAt_congr fun name hname => by simp [Instantiation.under, hnone name hname]
    · obtain ⟨_, rfl⟩ := apply_eq_ok_iff.mp h
      simp only [valueAt, ihl hl, ihr hr]

/-- A symbol with a value under a substitution can be replaced. -/
theorem exists_getD {stays : Term} (h : (ρ.under σ) name = some x) :
    ∃ u, (σ name).getD (pure stays) = .ok u := by
  unfold Instantiation.under at h
  split at h
  · rename_i hmap
    exact ⟨stays, getD_eq_ok_iff.mpr (Or.inr ⟨hmap, rfl⟩)⟩
  · rename_i u hmap
    exact ⟨u, getD_eq_ok_iff.mpr (Or.inl hmap)⟩
  · cases h

/-- A substitution can be made in a term that has a value under it. -/
theorem exists_substitute (hx : t.valueAt (ρ.under σ) = some x) :
    ∃ u, t.substitute σ = .ok u := by
  induction t generalizing x with
  | const n => exact ⟨_, rfl⟩
  | sym name => exact exists_getD hx
  | hole p => exact exists_getD hx
  | op o left right ihl ihr =>
    obtain ⟨y, z, hy, hz, hop⟩ := valueAt_op_eq_some_iff.mp hx
    obtain ⟨l, hl⟩ := ihl hy
    obtain ⟨r, hr⟩ := ihr hz
    rw [← valueAt_of_substitute hr] at hz
    have happly : apply o l r = .ok (op o l r) := by
      refine apply_eq_ok_iff.mpr ⟨fun ho => ⟨lowers_of_valueAt hz, fun hvanish => ?_⟩, rfl⟩
      exact Operator.onNumbers_isSome_iff.mp (by rw [hop]; rfl) ho (hvanish ρ z hz)
    rw [substitute]
    split
    · exact ⟨_, bind_eq_ok_iff.mpr ⟨l, hl, bind_eq_ok_iff.mpr ⟨r, hr, happly⟩⟩⟩
    · exact ⟨_, rfl⟩

/-- A term that lowers still does after a substitution by terms that lower. -/
theorem Lowers.substitute (ht : t.Lowers) (hσ : σ.Lowers) (h : t.substitute σ = .ok u) :
    u.Lowers := by
  have hsymbol {name : String} {stays u : Term} (hstays : stays.Lowers)
      (h : (σ name).getD (pure stays) = .ok u) : u.Lowers := by
    rcases getD_eq_ok_iff.mp h with hmap | ⟨_, rfl⟩
    · exact hσ name u hmap
    · exact hstays
  induction t generalizing u with
  | const n => exact pure_eq_ok_iff.mp h ▸ ht
  | sym name => exact hsymbol ht h
  | hole p => exact hsymbol ht h
  | op o left right ihl ihr =>
    obtain ⟨hlow_left, hlow_right, _⟩ := lowers_op_iff.mp ht
    rcases substitute_op_eq_ok h with ⟨_, rfl⟩ | ⟨l, r, hl, hr, h⟩
    · exact ht
    · exact (ihl hlow_left hl).apply (ihr hlow_right hr) h

/-- Every symbol and every placeholder of a term has a property. -/
def LeavesSatisfy (onSymbol : String → Prop) (onHole : Placeholder → Prop) : Term → Prop
  | const _ => True
  | sym name => onSymbol name
  | hole p => onHole p
  | op _ left right => left.LeavesSatisfy onSymbol onHole ∧ right.LeavesSatisfy onSymbol onHole

/-- A property of all leaves can be decided if it can be decided at each. -/
instance decidableLeavesSatisfy {onSymbol : String → Prop} {onHole : Placeholder → Prop}
    [DecidablePred onSymbol] [DecidablePred onHole] : DecidablePred (LeavesSatisfy onSymbol onHole)
  | const _ => inferInstanceAs (Decidable True)
  | sym name => inferInstanceAs (Decidable (onSymbol name))
  | hole p => inferInstanceAs (Decidable (onHole p))
  | op _ left right =>
    have : Decidable (left.LeavesSatisfy onSymbol onHole) := decidableLeavesSatisfy left
    have : Decidable (right.LeavesSatisfy onSymbol onHole) := decidableLeavesSatisfy right
    inferInstanceAs
      (Decidable (left.LeavesSatisfy onSymbol onHole ∧ right.LeavesSatisfy onSymbol onHole))

variable {onSymbol onSymbol' : String → Prop} {onHole onHole' : Placeholder → Prop}

/-- The leaves of a term have every property that follows from one that they have. -/
theorem LeavesSatisfy.imp (ht : t.LeavesSatisfy onSymbol onHole)
    (hsymbol : ∀ name, onSymbol name → onSymbol' name) (hhole : ∀ p, onHole p → onHole' p) :
    t.LeavesSatisfy onSymbol' onHole' := by
  induction t with
  | const n => trivial
  | sym name => exact hsymbol name ht
  | hole p => exact hhole p ht
  | op o left right ihl ihr => exact ⟨ihl ht.1, ihr ht.2⟩

/-- The leaves after a substitution have a property that the leaves of the term and of all
replacements have. -/
theorem LeavesSatisfy.substitute (ht : t.LeavesSatisfy onSymbol onHole)
    (hσ : ∀ name r, σ name = some (.ok r) → r.LeavesSatisfy onSymbol onHole)
    (h : t.substitute σ = .ok u) : u.LeavesSatisfy onSymbol onHole := by
  have hleaf {name : String} {stays u : Term} (hstays : stays.LeavesSatisfy onSymbol onHole)
      (h : (σ name).getD (pure stays) = .ok u) : u.LeavesSatisfy onSymbol onHole := by
    rcases getD_eq_ok_iff.mp h with hmap | ⟨_, rfl⟩
    · exact hσ name u hmap
    · exact hstays
  induction t generalizing u with
  | const n => exact pure_eq_ok_iff.mp h ▸ ht
  | sym name => exact hleaf ht h
  | hole p => exact hleaf ht h
  | op o left right ihl ihr =>
    rcases substitute_op_eq_ok h with ⟨_, rfl⟩ | ⟨l, r, hl, hr, h⟩
    · exact ht
    · obtain ⟨_, rfl⟩ := apply_eq_ok_iff.mp h
      exact ⟨ihl ht.1 hl, ihr ht.2 hr⟩

/-- A property of all symbols is one of all leaves. -/
theorem leavesSatisfy_iff_symbols {P : String → Prop} :
    t.LeavesSatisfy P (fun p => P p.name) ↔ ∀ name ∈ t.symbols, P name := by
  induction t with
  | const n => simp [LeavesSatisfy, symbols]
  | sym name => simp [LeavesSatisfy, symbols]
  | hole p => simp [LeavesSatisfy, symbols]
  | op o left right ihl ihr =>
    simp only [LeavesSatisfy, ihl, ihr, symbols, Names.mem_union, or_imp, forall_and]

/-- The symbols after a substitution are those that are not replaced and those of replacements. -/
theorem mem_symbols_substitute (h : t.substitute σ = .ok u) (hname : name ∈ u.symbols) :
    name ∈ t.symbols ∧ σ name = none ∨
      ∃ other ∈ t.symbols, ∃ r, σ other = some (.ok r) ∧ name ∈ r.symbols := by
  have hleaf {leaf : String} {stays u : Term} (hstays : stays.symbols = [leaf])
      (h : (σ leaf).getD (pure stays) = .ok u) (hname : name ∈ u.symbols) :
      name ∈ [leaf] ∧ σ name = none ∨
        ∃ other ∈ [leaf], ∃ r, σ other = some (.ok r) ∧ name ∈ r.symbols := by
    rcases getD_eq_ok_iff.mp h with hmap | ⟨hmap, rfl⟩
    · exact Or.inr ⟨leaf, List.mem_cons_self, u, hmap, hname⟩
    · rw [hstays] at hname
      exact Or.inl ⟨hname, List.mem_singleton.mp hname ▸ hmap⟩
  induction t generalizing u with
  | const n =>
    obtain rfl := pure_eq_ok_iff.mp h
    cases hname
  | sym leaf => exact hleaf rfl h hname
  | hole p => exact hleaf rfl h hname
  | op o left right ihl ihr =>
    rcases substitute_op_eq_ok h with ⟨hnone, rfl⟩ | ⟨l, r, hl, hr, h⟩
    · exact Or.inl ⟨hname, hnone name hname⟩
    · obtain ⟨_, rfl⟩ := apply_eq_ok_iff.mp h
      simp only [symbols, Names.mem_union] at hname ⊢
      rcases hname with hname | hname
      · exact (ihl hl hname).imp (.imp_left Or.inl) (.imp fun _ => .imp_left Or.inl)
      · exact (ihr hr hname).imp (.imp_left Or.inr) (.imp fun _ => .imp_left Or.inr)

/-- A symbol that is not replaced is still there after a substitution. -/
theorem mem_symbols_of_substitute (h : t.substitute σ = .ok u) (hname : name ∈ t.symbols)
    (hnone : σ name = none) : name ∈ u.symbols := by
  have hleaf {leaf : String} {stays u : Term} (hstays : stays.symbols = [leaf])
      (h : (σ leaf).getD (pure stays) = .ok u) (hname : name ∈ [leaf]) : name ∈ u.symbols := by
    obtain rfl := List.mem_singleton.mp hname
    rcases getD_eq_ok_iff.mp h with hmap | ⟨_, rfl⟩
    · cases hnone.symm.trans hmap
    · exact hstays ▸ List.mem_cons_self
  induction t generalizing u with
  | const n => cases hname
  | sym leaf => exact hleaf rfl h hname
  | hole p => exact hleaf rfl h hname
  | op o left right ihl ihr =>
    rcases substitute_op_eq_ok h with ⟨_, rfl⟩ | ⟨l, r, hl, hr, h⟩
    · exact hname
    · obtain ⟨_, rfl⟩ := apply_eq_ok_iff.mp h
      simp only [symbols, Names.mem_union] at hname ⊢
      exact hname.imp (ihl hl) (ihr hr)

/-- Two terms agree under a substitution: wherever both have values under it, these are equal. -/
def AgreesUnder (σ : Substitution) (a b : Term) : Prop :=
  ∀ ρ x y, a.valueAt (Instantiation.under ρ σ) = some x →
    b.valueAt (Instantiation.under ρ σ) = some y → x = y

/-- Two terms agree under a substitution if the results agree. -/
theorem agreesUnder_iff (ha : a.substitute σ = .ok a') (hb : b.substitute σ = .ok b') :
    AgreesUnder σ a b ↔ a'.Agrees b' := by
  simp only [AgreesUnder, Agrees, valueAt_of_substitute ha, valueAt_of_substitute hb]

/-- Agreement under a substitution is reflexive. -/
theorem AgreesUnder.refl (σ : Substitution) (t : Term) : AgreesUnder σ t t :=
  fun ρ x y hx hy => Agrees.refl t (ρ.under σ) x y hx hy

/-- Agreement under a substitution is symmetric. -/
theorem AgreesUnder.symm (h : AgreesUnder σ a b) : AgreesUnder σ b a :=
  fun ρ x y hx hy => (h ρ y x hy hx).symm

/-- Agreement under a substitution is transitive through a term whose result lowers. -/
theorem AgreesUnder.trans (hab : AgreesUnder σ a b) (hb : b.substitute σ = .ok b')
    (hlow : b'.Lowers) (hbc : AgreesUnder σ b c) : AgreesUnder σ a c := by
  intro ρ x y hx hy
  obtain ⟨a', ha⟩ := exists_substitute hx
  obtain ⟨c', hc⟩ := exists_substitute hy
  have hac := ((agreesUnder_iff ha hb).mp hab).trans hlow ((agreesUnder_iff hb hc).mp hbc)
  exact (agreesUnder_iff ha hc).mpr hac ρ x y hx hy

/-- Agreement under a substitution survives the substitution of unknown symbols. -/
theorem AgreesUnder.substitute (h : AgreesUnder σ a b) (hπ : π.Apart σ)
    (ha : a.substitute π = .ok a') (hb : b.substitute π = .ok b') : AgreesUnder σ a' b' := by
  intro ρ x y hx hy
  obtain ⟨θ, hθ⟩ := hπ.exists_under_under ρ
  rw [valueAt_of_substitute ha, hθ] at hx
  rw [valueAt_of_substitute hb, hθ] at hy
  exact h θ x y hx hy

end Term

section Rounds

variable {name : String} {rest : List String} {rounds : Nat} {terms result : Dictionary Term}

/-- A name without an entry is passed over. The entry of any other name is replaced before it is the
turn of the names that follow. -/
theorem expandEntries_cons_eq_ok_iff :
    expandEntries (name :: rest) terms = .ok result ↔
      (terms.get? name = none ∧ expandEntries rest terms = .ok result) ∨
      ∃ t u, terms.get? name = some t ∧ t.substituteTerms terms = .ok u ∧
        expandEntries rest (terms.insert name u) = .ok result := by
  rw [expandEntries]
  cases terms.get? name with
  | none => simp
  | some t => simp [bind_eq_ok_iff]

/-- The rounds end where no entry refers to another, and else one of them comes before the rest. -/
theorem expandRounds_succ_eq_ok_iff :
    expandRounds (rounds + 1) terms = .ok result ↔
      (pendingEntries terms = [] ∧ result = terms) ∨
      ∃ next, pendingEntries terms ≠ [] ∧ expandEntries (pendingEntries terms) terms = .ok next ∧
        expandRounds rounds next = .ok result := by
  rw [expandRounds]
  cases pendingEntries terms with
  | nil => simp [pure_eq_ok_iff]
  | cons => simp [bind_eq_ok_iff]

end Rounds

end Shapeline
