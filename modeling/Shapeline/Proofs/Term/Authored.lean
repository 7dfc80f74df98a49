import Shapeline.Proofs.Term.Simplify
import Shapeline.Value

/-!
# Terms of the author

The names of placeholders contain a hash mark. As long as the author's names do not, a placeholder
is told from every symbol of the author by its name. What an author writes has no placeholders, and
because divisors are checked as terms are built, it lowers. Substituting and simplifying keep this.
-/

namespace Shapeline

/-- A name contains the mark of placeholders. -/
def Marked (name : String) : Prop := '#' ∈ name.toList

instance : DecidablePred Marked := fun name => inferInstanceAs (Decidable ('#' ∈ name.toList))

namespace Term

variable {t u left right : Term} {σ π : Substitution}

/-- A term has no placeholders, and no symbol that could be taken for one. -/
def Authored (t : Term) : Prop := t.LeavesSatisfy (¬ Marked ·) fun _ => False

/-- The placeholders of a term are told from its symbols by their names. -/
def Distinguished (t : Term) : Prop := t.LeavesSatisfy (¬ Marked ·) fun p => Marked p.name

/-- A term that an author can write. -/
structure Written (t : Term) : Prop where
  /-- The term has symbols of the author only. -/
  authored : t.Authored
  /-- The term lowers. -/
  lowers : t.Lowers

/-- A term that occurs in inference. -/
structure Flowing (t : Term) : Prop where
  /-- Placeholders are told from symbols. -/
  distinguished : t.Distinguished
  /-- The term lowers. -/
  lowers : t.Lowers

instance : DecidablePred Authored := fun t =>
  inferInstanceAs (Decidable (t.LeavesSatisfy (¬ Marked ·) fun _ => False))

instance : DecidablePred Written := fun t =>
  decidable_of_iff (t.Authored ∧ t.Lowers) ⟨fun h => ⟨h.1, h.2⟩, fun h => ⟨h.1, h.2⟩⟩

/-- Without placeholders there are none to be mistaken. -/
theorem Authored.distinguished (h : t.Authored) : t.Distinguished :=
  h.imp (fun _ hname => hname) fun _ hfalse => hfalse.elim

/-- What an author can write can occur in inference. -/
theorem Written.flowing (h : t.Written) : t.Flowing := ⟨h.authored.distinguished, h.lowers⟩

/-- The symbols of an author's term carry no mark. -/
theorem Authored.not_marked (h : t.Authored) {name : String} (hname : name ∈ t.symbols) :
    ¬ Marked name := by
  induction t with
  | const n => cases hname
  | sym other => exact List.mem_singleton.mp hname ▸ h
  | hole p => exact h.elim
  | op o left right ihl ihr =>
    rcases Names.mem_union.mp hname with hname | hname
    · exact ihl h.1 hname
    · exact ihr h.2 hname

/-- A term without marked symbols has no placeholders. -/
theorem Distinguished.authored (h : t.Distinguished)
    (hsymbols : ∀ name ∈ t.symbols, ¬ Marked name) : t.Authored := by
  induction t with
  | const n => trivial
  | sym name => exact h
  | hole p => exact hsymbols p.name (by simp [symbols]) h
  | op o left right ihl ihr =>
    exact ⟨ihl h.1 fun name hname => hsymbols name (Names.mem_union.mpr (Or.inl hname)),
      ihr h.2 fun name hname => hsymbols name (Names.mem_union.mpr (Or.inr hname))⟩

/-- A substitution of marked names leaves the author's terms as they are. -/
theorem Authored.substitute_eq_self (h : t.Authored)
    (hmarked : ∀ name, (π name).isSome → Marked name) : t.substitute π = .ok t := by
  refine Term.substitute_eq_self fun name hname => ?_
  by_contra hsome
  exact h.not_marked hname (hmarked name (Option.isSome_iff_ne_none.mpr hsome))

/-- An integer can be written. -/
theorem Written.const (n : Int) : (const n).Written := ⟨trivial, ⟨_, rfl⟩⟩

/-- A symbol without a mark can be written. -/
theorem Written.sym {name : String} (h : ¬ Marked name) : (sym name).Written := ⟨h, ⟨_, rfl⟩⟩

/-- An operator with a checked divisor can be written if its operands can. -/
theorem Written.apply {o : Operator} (hl : left.Written) (hr : right.Written)
    (h : Term.apply o left right = .ok t) : t.Written := by
  refine ⟨?_, hl.lowers.apply hr.lowers h⟩
  obtain ⟨_, rfl⟩ := apply_eq_ok_iff.mp h
  exact ⟨hl.authored, hr.authored⟩

/-- A quotient can be written if its operands can. -/
theorem Written.divide (hl : left.Written) (hr : right.Written)
    (h : left.divide right = .ok t) : t.Written :=
  hl.apply (o := .div) hr h

/-- A simplified term can be written if the term can. -/
theorem Written.simplify (ht : t.Written) (h : t.simplify = .ok u) : u.Written := by
  refine ⟨ht.authored.simplify h, ?_⟩
  obtain ⟨v, hv, hlow⟩ := ht.lowers.simplify
  exact Except.ok.inj (h.symm.trans hv) ▸ hlow

/-- A simplified term can occur in inference if the term can. -/
theorem Flowing.simplify (ht : t.Flowing) (h : t.simplify = .ok u) : u.Flowing := by
  refine ⟨ht.distinguished.simplify h, ?_⟩
  obtain ⟨v, hv, hlow⟩ := ht.lowers.simplify
  exact Except.ok.inj (h.symm.trans hv) ▸ hlow

/-- A product can occur in inference if its factors can. -/
theorem Flowing.mul (hl : left.Flowing) (hr : right.Flowing) : (op .mul left right).Flowing :=
  ⟨⟨hl.distinguished, hr.distinguished⟩, hl.lowers.apply (o := .mul) hr.lowers rfl⟩

/-- A term has no placeholders, whatever its symbols are, and it lowers. -/
structure Solid (t : Term) : Prop where
  /-- The term has no placeholders. -/
  filled : t.LeavesSatisfy (fun _ => True) fun _ => False
  /-- The term lowers. -/
  lowers : t.Lowers

/-- A property that integers have and that operators with a checked divisor keep. -/
structure Arithmetic (T : Term → Prop) : Prop where
  /-- Integers have the property. -/
  const : ∀ n, T (const n)
  /-- Operators keep the property. -/
  apply : ∀ o left right t, T left → T right → Term.apply o left right = .ok t → T t

/-- What an author can write is built from integers and symbols without a mark. -/
theorem arithmetic_written : Arithmetic Written :=
  ⟨.const, fun _ _ _ _ hl hr h => hl.apply hr h⟩

/-- An operator has no placeholders if its operands have none. -/
theorem Solid.op {o : Operator} (hl : left.Solid) (hr : right.Solid)
    (hlow : (op o left right).Lowers) : (op o left right).Solid :=
  ⟨⟨hl.filled, hr.filled⟩, hlow⟩

/-- Terms without placeholders are built from integers and symbols. -/
theorem arithmetic_solid : Arithmetic Solid where
  const _ := ⟨trivial, ⟨_, rfl⟩⟩
  apply _ _ _ _ hl hr h := by
    have hlow := hl.lowers.apply hr.lowers h
    obtain ⟨_, rfl⟩ := apply_eq_ok_iff.mp h
    exact hl.op hr hlow

/-- The opposite of a term has a property that is kept. -/
theorem Arithmetic.negate {T : Term → Prop} (hT : Arithmetic T) (h : T t) : T t.negate := by
  unfold Term.negate
  split
  · exact hT.const _
  · exact hT.apply .sub _ _ _ (hT.const 0) h rfl

/-- A simplified term has no placeholders if the term has none. -/
theorem Solid.simplify (ht : t.Solid) (h : t.simplify = .ok u) : u.Solid := by
  refine ⟨ht.filled.simplify h, ?_⟩
  obtain ⟨v, hv, hlow⟩ := ht.lowers.simplify
  exact Except.ok.inj (h.symm.trans hv) ▸ hlow

end Term

namespace Substitution

variable {σ π : Substitution}

/-- A substitution of the author's symbols by terms that an author can write. -/
structure Written (σ : Substitution) : Prop where
  /-- The replaced symbols are those of the author. -/
  not_marked : ∀ name, (σ name).isSome → ¬ Marked name
  /-- The replacements can be written. -/
  written : ∀ name t, σ name = some (.ok t) → t.Written

/-- A substitution of placeholders by terms that an author can write. -/
structure Fills (π : Substitution) : Prop where
  /-- The replaced symbols are those of placeholders. -/
  marked : ∀ name, (π name).isSome → Marked name
  /-- The replacements can be written. -/
  written : ∀ name t, π name = some (.ok t) → t.Written

/-- A substitution of placeholders is apart from one of the author's symbols. -/
theorem Fills.apart (hπ : π.Fills) (hσ : σ.Written) : π.Apart σ where
  unmapped name hname := by
    by_contra hsome
    exact hσ.not_marked name (Option.isSome_iff_ne_none.mpr hsome) (hπ.marked name hname)
  fresh name hname other t ht hmem :=
    (hσ.written other t ht).authored.not_marked hmem (hπ.marked name hname)

/-- A substitution of placeholders leaves the author's terms as they are. -/
theorem Fills.substitute_eq_self (hπ : π.Fills) {t : Term} (ht : t.Authored) :
    t.substitute π = .ok t := ht.substitute_eq_self hπ.marked

/-- A term still occurs in inference after placeholders have been replaced. -/
theorem Fills.flowing (hπ : π.Fills) {t u : Term} (ht : t.Flowing) (h : t.substitute π = .ok u) :
    u.Flowing where
  distinguished := ht.distinguished.substitute
    (fun name r hr => (hπ.written name r hr).authored.distinguished) h
  lowers := ht.lowers.substitute (fun name r hr => (hπ.written name r hr).lowers) h

/-- A term lowers after the author's symbols have been replaced. -/
theorem Written.lowers_substitute (hσ : σ.Written) {t u : Term} (ht : t.Lowers)
    (h : t.substitute σ = .ok u) : u.Lowers :=
  ht.substitute (fun name r hr => (hσ.written name r hr).lowers) h

/-- A term can be written after the author's symbols have been replaced. -/
theorem Written.substitute (hσ : σ.Written) {t u : Term} (ht : t.Written)
    (h : t.substitute σ = .ok u) : u.Written where
  authored := ht.authored.substitute (fun name r hr => (hσ.written name r hr).authored) h
  lowers := hσ.lowers_substitute ht.lowers h

/-- A dictionary of terms for an author's names is a substitution of the author's symbols. -/
theorem written_ofTerms_iff {terms : Dictionary Term} :
    (ofTerms terms).Written ↔
      ∀ name t, terms.get? name = some t → ¬ Marked name ∧ t.Written := by
  constructor
  · intro h name t ht
    have hmap : ofTerms terms name = some (.ok t) := ofTerms_eq_ok_iff.mpr ht
    exact ⟨h.not_marked name (by simp [hmap]), h.written name t hmap⟩
  · intro h
    refine ⟨fun name hname => ?_, fun name t ht => ?_⟩
    · obtain ⟨r, hr⟩ := Option.isSome_iff_exists.mp hname
      obtain ⟨t, ht, _⟩ := ofTerms_eq_some_iff.mp hr
      exact (h name t ht).1
    · exact (h name t (ofTerms_eq_ok_iff.mp ht)).2

end Substitution

open Substitution

section Expansion

variable {Q : String → Term → Prop} {terms result : Dictionary Term}
  (hQ : ∀ (terms : Dictionary Term) (name : String) (t u : Term),
    (∀ other r, terms.get? other = some r → Q other r) → Q name t →
    t.substitute (ofTerms terms) = .ok u → Q name u)

include hQ

/-- Expanding entries keeps a property that substituting such entries keeps. -/
theorem all_expandEntries {names : List String} (hterms : ∀ name t, terms.get? name = some t → Q name t)
    (h : expandEntries names terms = .ok result) :
    ∀ name t, result.get? name = some t → Q name t := by
  induction names generalizing terms with
  | nil => exact pure_eq_ok_iff.mp h ▸ hterms
  | cons name rest ih =>
    rcases expandEntries_cons_eq_ok_iff.mp h with ⟨-, h⟩ | ⟨t, expanded, ht, hexpanded, h⟩
    · exact ih hterms h
    · refine ih (fun other u hu => ?_) h
      rw [Dictionary.get?_insert] at hu
      split at hu
      · rename_i heq
        exact heq ▸ Option.some.inj hu ▸ hQ terms name t expanded hterms (hterms name t ht) hexpanded
      · exact hterms other u hu

/-- Rounds of expansion keep such a property of entries. -/
theorem all_expandRounds {rounds : Nat} (hterms : ∀ name t, terms.get? name = some t → Q name t)
    (h : expandRounds rounds terms = .ok result) :
    ∀ name t, result.get? name = some t → Q name t := by
  induction rounds generalizing terms with
  | zero => exact pure_eq_ok_iff.mp h ▸ hterms
  | succ rounds ih =>
    rcases expandRounds_succ_eq_ok_iff.mp h with ⟨-, rfl⟩ | ⟨next, -, hnext, h⟩
    · exact hterms
    · exact ih (all_expandEntries hQ hterms hnext) h

/-- Bindings of values have such a property if the values do. -/
theorem all_resolveBindings {values : Dictionary Value} {bindings : Dictionary Term}
    (hvalues : ∀ name value t, values.get? name = some value → value.toTerm? = some t → Q name t)
    (h : resolveBindings values = .ok bindings) :
    ∀ name t, bindings.get? name = some t → Q name t := by
  refine all_expandRounds hQ (fun name t ht => ?_) h
  rw [Dictionary.get?_filterMap] at ht
  obtain ⟨value, hget, hterm⟩ := Option.bind_eq_some_iff.mp ht
  exact hvalues name value t hget hterm

end Expansion

/-- Bindings of values that an author can write are a substitution of the author's symbols. -/
theorem written_resolveBindings {values : Dictionary Value} {bindings : Dictionary Term}
    (hvalues : ∀ name value t, values.get? name = some value → value.toTerm? = some t →
      ¬ Marked name ∧ t.Written) (h : resolveBindings values = .ok bindings) :
    (ofTerms bindings).Written :=
  written_ofTerms_iff.mpr (all_resolveBindings
    (fun _ _ _ _ hterms ht hu => ⟨ht.1, (written_ofTerms_iff.mpr hterms).substitute ht.2 hu⟩)
    hvalues h)

/-- Bindings of values that lower are a substitution by terms that lower. -/
theorem lowers_resolveBindings {values : Dictionary Value} {bindings : Dictionary Term}
    (hvalues : ∀ name value t, values.get? name = some value → value.toTerm? = some t → t.Lowers)
    (h : resolveBindings values = .ok bindings) : (ofTerms bindings).Lowers :=
  lowers_ofTerms_iff.mpr (all_resolveBindings (Q := fun _ t => t.Lowers)
    (fun _ _ _ _ hterms ht hu => ht.substitute (lowers_ofTerms_iff.mpr hterms) hu) hvalues h)

end Shapeline
