import Shapeline.Proofs.Shape

/-!
# Parameters as terms

Rules read their parameters as dimension terms. Substitution in a set of parameters is substitution
in these terms. Among the parameters that inference records only channels and features can be
derived; all others stay as the author wrote them.
-/

namespace Shapeline

namespace Value

/-- A value is used as a dimension exactly if it is one. -/
theorem toTerm_eq_ok_iff {v : Value} {t : Term} : v.toTerm = .ok t ↔ v.toTerm? = some t := by
  unfold toTerm
  split
  · rename_i u hu
    rw [hu, pure_eq_ok_iff, Option.some.injEq, eq_comm]
  · rename_i hnone
    simp [hnone, throw, throwThe, MonadExceptOf.throw]

end Value

namespace Parameters

variable {p q derived : Parameters} {name other : String} {default v : Value} {t : Term}
  {σ π : Substitution}

/-- The term that a parameter is, or that its default is if it is not there. -/
def term? (p : Parameters) (name : String) (default : Value) : Option Term :=
  ((p.get? name).getD default).toTerm?

/-- A parameter without a default is a term if its value is one. -/
theorem term?_absent_iff :
    p.term? name .absent = some t ↔ ∃ v, p.get? name = some v ∧ v.toTerm? = some t := by
  unfold term?
  cases p.get? name with
  | none => simp [Value.toTerm?]
  | some v => simp

/-- A parameter that has a value and is used as a dimension. -/
theorem term?_eq_some_iff_given? :
    p.term? name .absent = some t ↔ ∃ v, p.given? name = some v ∧ v.toTerm = .ok t := by
  unfold term? given?
  cases p.get? name with
  | none => simp [Value.toTerm?]
  | some v => cases v <;> simp [Value.toTerm_eq_ok_iff, Value.toTerm?]

/-- A parameter is read as a dimension exactly if it is one. -/
theorem dimension_eq_some_iff :
    p.dimension name default = .ok (some t) ↔ p.term? name default = some t := by
  unfold dimension term?
  split
  · rename_i h
    simp [h, Value.toTerm?, pure, Except.pure]
  · rw [bind_eq_ok_iff]
    simp only [pure_eq_ok_iff, Option.some.injEq, Value.toTerm_eq_ok_iff]
    exact ⟨fun ⟨_, h, ht⟩ => ht ▸ h, fun h => ⟨t, h, rfl⟩⟩

/-- A parameter set has the same term for a parameter as another one with the same value. -/
theorem term?_congr (h : p.get? name = q.get? name) :
    p.term? name default = q.term? name default := by
  unfold term?
  rw [h]

/-- A parameter with an integer default is the parameter or the integer. -/
theorem term?_int {t : Term} {n : Int} (h : p.term? name (.int n) = some t) :
    t = .const n ∨ p.term? name .absent = some t := by
  unfold term? at h ⊢
  cases hget : p.get? name with
  | none =>
    rw [hget] at h
    exact Or.inl (Option.some.inj h).symm
  | some v =>
    rw [hget] at h
    exact Or.inr h

/-- What is read as a dimension depends only on the value of the parameter. -/
theorem dimension_congr (h : p.get? name = q.get? name) :
    p.dimension name default = q.dimension name default := by
  unfold dimension
  rw [h]

/-- Merged parameters are those that override, and the others. -/
theorem get?_merged : (p.merged q).get? name = (q.get? name).or (p.get? name) :=
  Dictionary.get?_insertAll_entries

/-- A parameter that nothing overrides stays. -/
theorem get?_merged_of_none (h : q.get? name = none) : (p.merged q).get? name = p.get? name := by
  rw [get?_merged, h, Option.none_or]

/-- A parameter that is overridden by a term is that term. -/
theorem term?_merged_of_some (h : q.get? name = some (.dim t)) :
    (p.merged q).term? name default = some t := by
  rw [term?, get?_merged, h]
  rfl

/-- A term among merged parameters comes from one of the two sets. -/
theorem term?_of_merged (h : (p.merged q).term? name .absent = some t) :
    q.term? name .absent = some t ∨ p.term? name .absent = some t := by
  unfold term? at h ⊢
  rw [get?_merged] at h
  cases hq : q.get? name with
  | none => rw [hq, Option.none_or] at h; exact Or.inr h
  | some v => rw [hq, Option.some_or] at h; exact Or.inl h

/-- A value after a substitution is the same plain value or a term after the substitution. -/
theorem get?_substitute (h : p.substitute σ = .ok q) (name : String) :
    (p.get? name = none ∧ q.get? name = none) ∨
      (∃ v, p.get? name = some v ∧ (∀ t, v ≠ .dim t) ∧ q.get? name = some v) ∨
      ∃ t u, p.get? name = some (.dim t) ∧ t.substitute σ = .ok u ∧
        q.get? name = some (.dim u) := by
  rcases Dictionary.get?_traverse h name with hnone | ⟨v, w, hv, hvw, hw⟩
  · exact Or.inl hnone
  · cases v with
    | dim t =>
      obtain ⟨u, hu, hw'⟩ := bind_eq_ok_iff.mp hvw
      exact Or.inr (Or.inr ⟨t, u, hv, hu, pure_eq_ok_iff.mp hw' ▸ hw⟩)
    | _ => exact Or.inr (Or.inl ⟨_, hv, by simp, pure_eq_ok_iff.mp hvw ▸ hw⟩)

/-- A parameter that is no term stays. -/
theorem get?_substitute_of_plain (h : p.substitute σ = .ok q) (hv : p.get? name = some v)
    (hplain : ∀ t, v ≠ .dim t) : q.get? name = some v := by
  rcases get?_substitute h name with ⟨hnone, _⟩ | ⟨w, hw, _, hq⟩ | ⟨t, _, ht, _, _⟩
  · cases hnone.symm.trans hv
  · rw [hq, ← hw, hv]
  · exact absurd (Option.some.inj (hv.symm.trans ht)) (hplain t)

/-- A parameter that is a term is the term after the substitution. -/
theorem get?_substitute_of_dim (h : p.substitute σ = .ok q) (ht : p.get? name = some (.dim t)) :
    ∃ u, t.substitute σ = .ok u ∧ q.get? name = some (.dim u) := by
  rcases get?_substitute h name with ⟨hnone, _⟩ | ⟨v, hv, hplain, _⟩ | ⟨s, u, hs, hu, hq⟩
  · cases hnone.symm.trans ht
  · exact absurd (Option.some.inj (hv.symm.trans ht)) (hplain t)
  · cases Option.some.inj (hs.symm.trans ht)
    exact ⟨u, hu, hq⟩

/-- A parameter that is not there is not there after the substitution. -/
theorem get?_substitute_of_none (h : p.substitute σ = .ok q) (hnone : p.get? name = none) :
    q.get? name = none := by
  rcases get?_substitute h name with ⟨_, hq⟩ | ⟨v, hv, _⟩ | ⟨t, _, ht, _⟩
  · exact hq
  · cases hnone.symm.trans hv
  · cases hnone.symm.trans ht

/-- The substitution can be made if it can be made in every term. -/
theorem exists_substitute
    (h : ∀ name t, p.get? name = some (.dim t) → ∃ u, t.substitute σ = .ok u) :
    ∃ q, p.substitute σ = .ok q := by
  refine Dictionary.exists_traverse fun name v hv => ?_
  cases v with
  | dim t =>
    obtain ⟨u, hu⟩ := h name t hv
    exact ⟨.dim u, bind_eq_ok_iff.mpr ⟨u, hu, rfl⟩⟩
  | _ => exact ⟨_, rfl⟩

/-- A parameter is a term after a substitution exactly if it was one before. -/
theorem term?_substitute (h : p.substitute σ = .ok q)
    (hdefault : ∀ t, default.toTerm? = some t → t.substitute σ = .ok t) (name : String) :
    (p.term? name default = none ∧ q.term? name default = none) ∨
      ∃ t u, p.term? name default = some t ∧ t.substitute σ = .ok u ∧
        q.term? name default = some u := by
  unfold term?
  rcases get?_substitute h name with ⟨hp, hq⟩ | ⟨v, hp, hplain, hq⟩ | ⟨t, u, hp, hu, hq⟩
  · rw [hp, hq, Option.getD_none]
    cases hterm : default.toTerm? with
    | none => exact Or.inl ⟨rfl, rfl⟩
    | some t => exact Or.inr ⟨t, t, rfl, hdefault t hterm, rfl⟩
  · rw [hp, hq, Option.getD_some]
    cases v with
    | int n => exact Or.inr ⟨.const n, .const n, rfl, rfl, rfl⟩
    | dim t => exact absurd rfl (hplain t)
    | _ => exact Or.inl ⟨rfl, rfl⟩
  · rw [hp, hq, Option.getD_some, Option.getD_some]
    exact Or.inr ⟨t, u, rfl, hu, rfl⟩

/-- The defaults of the parameters that rules read are not changed by a substitution. -/
theorem substitute_absent (t : Term) (h : Value.absent.toTerm? = some t) :
    t.substitute σ = .ok t := by
  cases h

/-- An integer is not changed by a substitution. -/
theorem substitute_int (n : Int) (t : Term) (h : (Value.int n).toTerm? = some t) :
    t.substitute σ = .ok t := by
  cases h
  rfl

/-- A parameter that a rule derives if nobody has set it. -/
def IsDerived (name : String) : Prop :=
  name ∈ [inputChannels, outputChannels, inputFeatures, outputFeatures]

instance : DecidablePred IsDerived := fun name =>
  inferInstanceAs
    (Decidable (name ∈ [inputChannels, outputChannels, inputFeatures, outputFeatures]))

/-- Every term among the parameters can be written by an author. -/
def Written (p : Parameters) : Prop := ∀ name t, p.term? name .absent = some t → t.Written

/-- Parameters that inference records: only derived ones mention placeholders. -/
structure Flowing (p : Parameters) : Prop where
  /-- Every term can occur in inference. -/
  terms : ∀ name t, p.term? name .absent = some t → t.Flowing
  /-- What is not derived can be written by an author. -/
  fixed : ∀ name t, ¬ IsDerived name → p.term? name .absent = some t → t.Written

/-- Replacing placeholders leaves the parameters that are not derived as they are. -/
theorem Flowing.get?_substitute_eq (hp : p.Flowing) (hπ : π.Fills) (h : p.substitute π = .ok q)
    (hname : ¬ IsDerived name) : q.get? name = p.get? name := by
  rcases get?_substitute h name with ⟨hp', hq⟩ | ⟨v, hp', _, hq⟩ | ⟨t, u, hp', hu, hq⟩
  · rw [hp', hq]
  · rw [hp', hq]
  · have hwritten := hp.fixed name t hname (by rw [term?, hp']; rfl)
    rw [hπ.substitute_eq_self hwritten.authored] at hu
    rw [hp', hq, Except.ok.inj hu]

/-- Parameters still occur in inference after placeholders have been replaced. -/
theorem Flowing.substitute (hp : p.Flowing) (hπ : π.Fills) (h : p.substitute π = .ok q) :
    q.Flowing := by
  refine ⟨fun name u hu => ?_, fun name u hname hu => ?_⟩
  · rcases term?_substitute h substitute_absent name with ⟨_, hnone⟩ | ⟨t, u', ht, htu, hu'⟩
    · cases hnone.symm.trans hu
    · obtain rfl := Option.some.inj (hu'.symm.trans hu)
      exact hπ.flowing (hp.terms name t ht) htu
  · rw [term?, hp.get?_substitute_eq hπ h hname] at hu
    exact hp.fixed name u hname hu

end Parameters

/-- A value is no dimension, or a dimension with a property. -/
def Value.TermsSatisfy (T : Term → Prop) (v : Value) : Prop := ∀ t, v.toTerm? = some t → T t

/-- The terms of parameters have a property. -/
def Parameters.TermsSatisfy (T : Term → Prop) (p : Parameters) : Prop :=
  ∀ name t, p.term? name .absent = some t → T t

/-- A shape whose extents have a property. -/
def Shape.TermsSatisfy (T : Term → Prop) (s : Shape) : Prop := ∀ x ∈ s.axes, T x

end Shapeline
