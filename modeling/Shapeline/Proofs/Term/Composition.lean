import Shapeline.Proofs.Rule.Failure
import Shapeline.Proofs.Term.Substitution

/-!
# Composition of substitutions

Substituting is simultaneous: every symbol is replaced once, by a replacement that is not looked at
again. Two substitutions in a row are therefore the same as one, whose replacements are those of the
first with the second made in them. The second succeeds after the first exactly if the composed one
does, because a divisor that is not zero at the end was not zero before.
-/

namespace Shapeline

/-- The substitution that makes one substitution and then another. -/
def Substitution.andThen (σ π : Substitution) : Substitution := fun name =>
  match σ name with
  | none => π name
  | some (.ok t) => some (t.substitute π)
  | some (.error failure) => some (.error failure)

namespace Term

variable {σ π : Substitution} {ρ : Instantiation} {t u v a b a' b' left right : Term}
  {o : Operator} {name : String}

/-- What becomes of the symbols of a term is all that matters for a substitution. -/
theorem substitute_congr (h : ∀ name ∈ t.symbols, σ name = π name) :
    t.substitute σ = t.substitute π := by
  induction t with
  | const n => rfl
  | sym name => simp only [substitute, h name (by simp [symbols])]
  | hole p => simp only [substitute, h p.name (by simp [symbols])]
  | op o left right ihl ihr =>
    have hleft := ihl fun name hname => h name (Names.mem_union.mpr (Or.inl hname))
    have hright := ihr fun name hname => h name (Names.mem_union.mpr (Or.inr hname))
    have hmentions : (op o left right).mentions σ = (op o left right).mentions π := by
      rw [Bool.eq_iff_iff]
      simp only [mentions, List.any_eq_true]
      exact exists_congr fun name => and_congr_right fun hname => by rw [h name hname]
    simp only [substitute, hmentions, hleft, hright]

/-- The operands of an operation are substituted in where the operation is. -/
theorem substitute_op_iff :
    (op o left right).substitute σ = .ok v ↔
      ∃ l r, left.substitute σ = .ok l ∧ right.substitute σ = .ok r ∧ v = op o l r ∧
        ((∀ name ∈ (op o left right).symbols, σ name = none) ∨
          (o = .div → r.Lowers ∧ ¬ r.Vanishes)) := by
  have hself (hnone : ∀ name ∈ (op o left right).symbols, σ name = none) :
      left.substitute σ = .ok left ∧ right.substitute σ = .ok right :=
    ⟨substitute_eq_self fun name hname => hnone name (Names.mem_union.mpr (Or.inl hname)),
      substitute_eq_self fun name hname => hnone name (Names.mem_union.mpr (Or.inr hname))⟩
  constructor
  · intro h
    rcases substitute_op_eq_ok h with ⟨hnone, rfl⟩ | ⟨l, r, hl, hr, h⟩
    · obtain ⟨hleft, hright⟩ := hself hnone
      exact ⟨left, right, hleft, hright, rfl, Or.inl hnone⟩
    · obtain ⟨hdiv, rfl⟩ := apply_eq_ok_iff.mp h
      exact ⟨l, r, hl, hr, rfl, Or.inr hdiv⟩
  · rintro ⟨l, r, hl, hr, rfl, hnone | hdiv⟩
    · obtain ⟨hleft, hright⟩ := hself hnone
      obtain rfl := Except.ok.inj (hl.symm.trans hleft)
      obtain rfl := Except.ok.inj (hr.symm.trans hright)
      exact substitute_eq_self hnone
    · exact substitute_op hl hr hdiv

/-- A divisor that does not vanish after a substitution did not vanish before. -/
theorem not_vanishes_of_substitute (h : t.substitute π = .ok u) (hu : u.Lowers ∧ ¬ u.Vanishes) :
    t.Lowers ∧ ¬ t.Vanishes := by
  have hne : ∃ ρ x, u.valueAt ρ = some x ∧ x ≠ 0 := by simpa [Vanishes] using hu.2
  obtain ⟨ρ, x, hx, hx0⟩ := hne
  have htx : t.valueAt (ρ.under π) = some x := valueAt_of_substitute h ▸ hx
  exact ⟨lowers_of_valueAt htx, fun hvanish => hx0 (hvanish _ x htx)⟩

/-- A symbol is replaced twice in a row as it is by the composed substitution. -/
theorem getD_andThen {stays : Term}
    (hstays : stays.substitute π = (π name).getD (pure stays)) :
    ((σ.andThen π) name).getD (pure stays) = .ok v ↔
      ∃ u, (σ name).getD (pure stays) = .ok u ∧ u.substitute π = .ok v := by
  cases hmap : σ name with
  | none =>
    have hthen : (σ.andThen π) name = π name := by simp [Substitution.andThen, hmap]
    simp [hthen, hstays, pure, Except.pure]
  | some r =>
    cases r with
    | ok w =>
      have hthen : (σ.andThen π) name = some (w.substitute π) := by
        simp [Substitution.andThen, hmap]
      simp [hthen]
    | error failure =>
      have hthen : (σ.andThen π) name = some (.error failure) := by
        simp [Substitution.andThen, hmap]
      simp [hthen]

/-- The composed substitution can be made exactly if both can in a row, with the same result. -/
theorem substitute_andThen :
    t.substitute (σ.andThen π) = .ok v ↔
      ∃ u, t.substitute σ = .ok u ∧ u.substitute π = .ok v := by
  induction t generalizing v with
  | const n => simp [substitute, pure, Except.pure]
  | sym name => exact getD_andThen rfl
  | hole p => exact getD_andThen rfl
  | op o left right ihl ihr =>
    constructor
    · intro h
      obtain ⟨l', r', hl', hr', rfl, hcheck⟩ := substitute_op_iff.mp h
      obtain ⟨l, hl, hll⟩ := ihl.mp hl'
      obtain ⟨r, hr, hrr⟩ := ihr.mp hr'
      rcases hcheck with hnone | hdiv
      · have hboth (name : String) (hname : name ∈ (op o left right).symbols) :
            σ name = none ∧ π name = none := by
          have hthen := hnone name hname
          unfold Substitution.andThen at hthen
          split at hthen
          · exact ⟨‹_›, hthen⟩
          · cases hthen
          · cases hthen
        have hself := substitute_eq_self fun name hname => (hboth name hname).1
        have hthen := substitute_eq_self fun name hname => (hboth name hname).2
        refine ⟨_, hself, ?_⟩
        rw [hthen, ← h, substitute_eq_self hnone]
      · have hdiv' : o = .div → r.Lowers ∧ ¬ r.Vanishes :=
          fun ho => not_vanishes_of_substitute hrr (hdiv ho)
        exact ⟨_, substitute_op hl hr hdiv', substitute_op hll hrr hdiv⟩
    · rintro ⟨u, hu, hv⟩
      obtain ⟨l, r, hl, hr, rfl, hfirst⟩ := substitute_op_iff.mp hu
      obtain ⟨l', r', hl', hr', rfl, hsecond⟩ := substitute_op_iff.mp hv
      refine substitute_op_iff.mpr
        ⟨l', r', ihl.mpr ⟨l, hl, hl'⟩, ihr.mpr ⟨r, hr, hr'⟩, rfl, ?_⟩
      rcases hsecond with hnone' | hdiv
      · rcases hfirst with hnone | hdiv
        · have hself := Except.ok.inj (hu.symm.trans (substitute_eq_self hnone))
          refine Or.inl fun name hname => ?_
          rw [Substitution.andThen, hnone name hname]
          exact hnone' name (hself ▸ hname)
        · have hr'' := substitute_eq_self fun name hname =>
            hnone' name (Names.mem_union.mpr (Or.inr hname))
          obtain rfl := Except.ok.inj (hr'.symm.trans hr'')
          exact Or.inr hdiv
      · exact Or.inr hdiv

/-- **Substitution is simultaneous composition, and it respects equivalence.** At every choice of
numbers, the result of a substitution has the value of the term at the numbers that the replacements
have; one is undefined where the other is. A substitution that has no result finds a division by
zero, and the term has no value at any numbers of the replacements. Results of equivalent terms are
equivalent. -/
theorem substitute_composes (terms : Dictionary Term) :
    (∀ t t' : Term, t.substituteTerms terms = .ok t' → ∀ ρ : String → ℚ,
      t'.valueAt (.total ρ) = t.valueAt ((Instantiation.total ρ).under (.ofTerms terms))) ∧
    (∀ (t : Term) (failure : Failure), t.substituteTerms terms = .error failure →
      (∃ d : Diagnostic, failure = .problem d ∧ d.IsDivision) ∧
      ∀ ρ : String → ℚ, t.valueAt ((Instantiation.total ρ).under (.ofTerms terms)) = none) ∧
    ∀ a b a' b' : Term, a.Lowers → b.Lowers → a.equivalent b = .ok true →
      a.substituteTerms terms = .ok a' → b.substituteTerms terms = .ok b' →
      a'.Lowers → b'.Lowers → a'.equivalent b' = .ok true := by
  refine ⟨fun t t' h ρ => valueAt_of_substitute h, fun t failure h => ⟨?_, fun ρ => ?_⟩, ?_⟩
  · have hterms (name : String) (r : Outcome Term) (hr : Substitution.ofTerms terms name = some r) :
        ∃ u, r = .ok u := by
      obtain ⟨u, _, rfl⟩ := Substitution.ofTerms_eq_some_iff.mp hr
      exact ⟨u, rfl⟩
    exact (fails_substitute hterms).exists_problem h
  · rw [Option.eq_none_iff_forall_ne_some]
    intro x hx
    obtain ⟨u, hu⟩ := exists_substitute hx
    cases h.symm.trans hu
  · intro a b a' b' _ _ hequal ha hb hlowa hlowb
    have hunder : AgreesUnder (.ofTerms terms) a b :=
      fun ρ => agrees_of_equivalent hequal (ρ.under (.ofTerms terms))
    have hagrees := (agreesUnder_iff ha hb).mp hunder
    exact (equivalent_eq_ok_iff hlowa hlowb).mpr (iff_of_true rfl hagrees)

/-- Symbols can be exchanged: `(H - W) + W` and `H` become `(W - H) + H` and `W`, which are
equivalent again. -/
theorem exchanged_symbols_compose :
    let terms : Dictionary Term := .ofList [("H", sym "W"), ("W", sym "H")]
    let a := op .add (op .sub (sym "H") (sym "W")) (sym "W")
    let a' := op .add (op .sub (sym "W") (sym "H")) (sym "H")
    a.substituteTerms terms = .ok a' ∧ (sym "H").substituteTerms terms = .ok (sym "W") ∧
      a.Lowers ∧ a.equivalent (sym "H") = .ok true ∧ a'.Lowers ∧
      a'.equivalent (sym "W") = .ok true ∧
      ∀ ρ : String → ℚ,
        a'.valueAt (.total ρ) = a.valueAt ((Instantiation.total ρ).under (.ofTerms terms)) := by
  intro terms a a'
  have ha : a.substituteTerms terms = .ok a' := by decide +kernel
  have hb : (sym "H").substituteTerms terms = .ok (sym "W") := by decide +kernel
  have hequal : a.equivalent (sym "H") = .ok true := by decide +kernel
  have hsum {left right : Term} (hl : left.Lowers) (hr : right.Lowers) :
      (op .add (op .sub left right) right).Lowers :=
    lowers_op_iff.mpr ⟨lowers_op_iff.mpr ⟨hl, hr, nofun⟩, hr, nofun⟩
  have hsym (name : String) : (sym name).Lowers := ⟨_, rfl⟩
  obtain ⟨hvalue, -, hcongr⟩ := substitute_composes terms
  exact ⟨ha, hb, hsum (hsym _) (hsym _), hequal, hsum (hsym _) (hsym _),
    hcongr a (sym "H") a' (sym "W") (hsum (hsym _) (hsym _)) (hsym _) hequal ha hb
      (hsum (hsym _) (hsym _)) (hsym _), hvalue a a' ha⟩

end Term

end Shapeline
