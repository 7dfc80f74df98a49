import Shapeline.Proofs.Term.Equivalence
import Shapeline.Proofs.Term.Simplify

/-!
# Renamed terms

A term with its symbols renamed has at an instantiation the value that the term itself has when each
symbol is given the number of its new name. So no test on terms tells names apart: after a
permutation of the names every test has the same answer and every operation the renamed result,
although the variables of the fractions behind them may come in another order.
-/

namespace Shapeline

/-- A placeholder with its symbol renamed. -/
def Placeholder.rename (f : String → String) (p : Placeholder) : Placeholder :=
  { p with name := f p.name }

namespace Term

/-- A term with its symbols renamed. -/
def rename (f : String → String) : Term → Term
  | const n => const n
  | sym name => sym (f name)
  | hole p => hole (p.rename f)
  | op o left right => op o (left.rename f) (right.rename f)

variable {f g : String → String} {a b t left right : Term} {o : Operator} {name : String}

/-- The symbols of a renamed term are the new names. -/
theorem mem_symbols_rename : name ∈ (t.rename f).symbols ↔ ∃ old ∈ t.symbols, f old = name := by
  induction t with
  | const n => simp [rename, symbols]
  | sym other => simp [rename, symbols, eq_comm]
  | hole p => simp [rename, symbols, Placeholder.rename, eq_comm]
  | op o left right ihl ihr =>
    simp only [rename, symbols, Names.mem_union, ihl, ihr, or_and_right, exists_or]

/-- Only the new names of the symbols of a term matter. -/
theorem rename_congr (h : ∀ name ∈ t.symbols, f name = g name) : t.rename f = t.rename g := by
  induction t with
  | const n => rfl
  | sym name => rw [rename, rename, h name (by simp [symbols])]
  | hole p =>
    rw [rename, rename, Placeholder.rename, Placeholder.rename, h p.name (by simp [symbols])]
  | op o left right ihl ihr =>
    rw [rename, rename, ihl fun name hname => h name (Names.mem_union.mpr (Or.inl hname)),
      ihr fun name hname => h name (Names.mem_union.mpr (Or.inr hname))]

/-- A term with its symbols renamed to themselves is the term itself. -/
@[simp] theorem rename_id : t.rename id = t := by
  induction t with
  | op o left right ihl ihr => rw [rename, ihl, ihr]
  | _ => rfl

/-- A term that is renamed twice is renamed once. -/
@[simp] theorem rename_rename : (t.rename f).rename g = t.rename (g ∘ f) := by
  induction t with
  | op o left right ihl ihr => rw [rename, rename, rename, ihl, ihr]
  | _ => rfl

/-- The value of a renamed term is that of the term at the numbers of the new names. -/
theorem valueAt_rename (ρ : Instantiation) : (t.rename f).valueAt ρ = t.valueAt (ρ ∘ f) := by
  induction t with
  | op o left right ihl ihr => rw [rename, valueAt, valueAt, ihl, ihr]
  | _ => rfl

/-- An integer is renamed to itself, and nothing else is renamed to an integer. -/
@[simp] theorem const?_rename : (t.rename f).const? = t.const? := by
  cases t <;> rfl

variable (π : Equiv.Perm String)

/-- The old names come back. -/
@[simp] theorem rename_symm_rename : (t.rename π).rename π.symm = t := by
  rw [rename_rename, Equiv.symm_comp_self, rename_id]

/-- Different terms are renamed to different terms. -/
theorem rename_inj : a.rename π = b.rename π ↔ a = b := by
  refine ⟨fun h => ?_, congrArg _⟩
  rw [← a.rename_symm_rename π, h, rename_symm_rename]

/-- Renamed symbols are instantiated in every way that symbols are. -/
theorem surjective_comp_perm :
    Function.Surjective fun ρ : Instantiation => (ρ ∘ π : Instantiation) :=
  π.injective.surjective_comp_right

/-- A renamed term lowers if the term does. -/
theorem lowers_rename_iff : (t.rename π).Lowers ↔ t.Lowers := by
  simp only [lowers_iff_exists_valueAt, valueAt_rename]
  exact ((surjective_comp_perm π).exists (p := fun ρ => ∃ x, t.valueAt ρ = some x)).symm

/-- A renamed term has the same values. -/
theorem forall_valueAt_rename_iff {P : ℚ → Prop} :
    (∀ ρ x, (t.rename π).valueAt ρ = some x → P x) ↔ ∀ ρ x, t.valueAt ρ = some x → P x := by
  simp only [valueAt_rename]
  exact ((surjective_comp_perm π).forall (p := fun ρ => ∀ x, t.valueAt ρ = some x → P x)).symm

/-- A renamed term vanishes if the term does. -/
theorem vanishes_rename_iff : (t.rename π).Vanishes ↔ t.Vanishes := forall_valueAt_rename_iff π

/-- Renamed terms agree if the terms do. -/
theorem agrees_rename_iff : (a.rename π).Agrees (b.rename π) ↔ a.Agrees b := by
  simp only [Agrees, valueAt_rename]
  exact ((surjective_comp_perm π).forall (p := fun ρ =>
    ∀ x y, a.valueAt ρ = some x → b.valueAt ρ = some y → x = y)).symm

/-- Two different terms can be compared if both lower. -/
theorem equivalent_eq_ok_iff_of_ne (hne : a ≠ b) {r : Bool} :
    a.equivalent b = .ok r ↔ (a.Lowers ∧ b.Lowers) ∧ (r = true ↔ a.Agrees b) := by
  constructor
  · intro h
    have hlow {t : Term} {f : Fraction (Names.union a.symbols b.symbols).length}
        (hsymbols : ∀ name ∈ t.symbols, name ∈ Names.union a.symbols b.symbols)
        (hf : t.fraction _ = .ok f) : t.Lowers :=
      lowers_iff_exists_valueAt.mpr ((exists_fraction_iff hsymbols).mp ⟨f, hf⟩)
    have hlowers : a.Lowers ∧ b.Lowers := by
      rw [equivalent, if_neg hne] at h
      obtain ⟨f, hf, h⟩ := bind_eq_ok_iff.mp h
      obtain ⟨g, hg, -⟩ := bind_eq_ok_iff.mp h
      exact ⟨hlow (fun _ hname => Names.mem_union.mpr (Or.inl hname)) hf,
        hlow (fun _ hname => Names.mem_union.mpr (Or.inr hname)) hg⟩
    exact ⟨hlowers, (equivalent_eq_ok_iff hlowers.1 hlowers.2).mp h⟩
  · rintro ⟨⟨ha, hb⟩, hr⟩
    exact (equivalent_eq_ok_iff ha hb).mpr hr

/-- A renamed term is found to be zero if the term is. -/
theorem mirrors_isZero : Mirrors id t.isZero (t.rename π).isZero := by
  refine mirrors_id_iff.mpr fun r => ?_
  rw [isZero_eq_ok_iff, isZero_eq_ok_iff, lowers_rename_iff, vanishes_rename_iff]

/-- A renamed term is found to be constant if the term is. -/
theorem mirrors_isConcrete : Mirrors id t.isConcrete (t.rename π).isConcrete := by
  refine mirrors_id_iff.mpr fun r => ?_
  simp only [isConcrete_eq_ok_iff, lowers_rename_iff, forall_valueAt_rename_iff π]

/-- A renamed term is found to be the same number. -/
theorem mirrors_concreteValue : Mirrors id t.concreteValue (t.rename π).concreteValue := by
  refine mirrors_id_iff.mpr fun q => ?_
  rw [concreteValue_eq_ok_iff, concreteValue_eq_ok_iff, lowers_rename_iff,
    forall_valueAt_rename_iff π]

/-- Renamed terms are found equivalent if the terms are. -/
theorem mirrors_equivalent :
    Mirrors id (a.equivalent b) ((a.rename π).equivalent (b.rename π)) := by
  by_cases hab : a = b
  · rw [equivalent, equivalent, if_pos hab, if_pos (congrArg _ hab)]
    exact .of_pure true
  · have hne : a.rename π ≠ b.rename π := fun h => hab ((rename_inj π).mp h)
    refine mirrors_id_iff.mpr fun r => ?_
    rw [equivalent_eq_ok_iff_of_ne hab, equivalent_eq_ok_iff_of_ne hne, lowers_rename_iff,
      lowers_rename_iff, agrees_rename_iff]

/-- The quotient of renamed terms is the renamed quotient. -/
theorem mirrors_divide :
    Mirrors (rename π) (left.divide right) ((left.rename π).divide (right.rename π)) := by
  refine (mirrors_isZero π).of_bind fun r => ?_
  exact .of_ite .of_throw (.of_pure (op .div left right))

/-- An operator applied to renamed terms gives the renamed term. -/
theorem mirrors_apply :
    Mirrors (rename π) (apply o left right) (apply o (left.rename π) (right.rename π)) := by
  cases o with
  | div => exact mirrors_divide π
  | _ => exact .of_pure _

/-- Renamed terms are combined to the renamed term. -/
theorem mirrors_combine :
    Mirrors (rename π) (combine o left right) (combine o (left.rename π) (right.rename π)) := by
  unfold combine
  rw [const?_rename, const?_rename]
  split
  · refine (Mirrors.refl _).of_bind fun found => ?_
    cases found with
    | none => exact .of_pure (op o left right)
    | some value => exact .of_pure (const value)
  · cases o with
    | add => exact .of_ite (.of_pure _) (.of_ite (.of_pure _) (.of_pure _))
    | sub => exact .of_ite (.of_pure _) (.of_pure _)
    | mul =>
      exact .of_ite (.of_pure _) (.of_ite (.of_pure _) (.of_ite (.of_pure _) (.of_pure _)))
    | div => exact .of_ite (.of_pure _) (mirrors_divide π)

/-- A renamed term is simplified to the renamed result. -/
theorem mirrors_simplify : Mirrors (rename π) t.simplify (t.rename π).simplify := by
  induction t with
  | op o left right ihl ihr =>
    rw [rename, simplify, simplify]
    exact ihl.of_bind fun l => ihr.of_bind fun r => mirrors_combine π
  | _ => exact .of_pure _

end Term

end Shapeline
