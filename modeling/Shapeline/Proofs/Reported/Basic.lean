import Shapeline.Lowering
import Shapeline.Proofs.Rule.Failure

/-!
# Failures that are reported

A phase of a compilation may fail, but only in a way that the author is told: it raises one
diagnostic, or several together, and none of these stands for several itself. Operations that
collect diagnostics do not fail at all. Both properties are kept by sequences of operations, so each
operation is looked at once.
-/

namespace Shapeline

variable {α β : Type} {P : α → Prop} {items : List α} {excuse : Prop} {d : Diagnostic}

/-- A diagnostic stands for one problem and not for several. -/
def Diagnostic.Single (d : Diagnostic) : Prop := d.code ≠ .several

/-- The node that a diagnostic belongs to does not tell what it stands for. -/
theorem Diagnostic.Single.attachNode {node : Option Int} (h : d.Single) :
    (Shapeline.attachNode node d).Single := by
  cases node <;> exact h

/-- A division by zero is a single problem. -/
theorem Diagnostic.IsDivision.single (h : d.IsDivision) : d.Single := by
  obtain ⟨quotient, rfl⟩ := h
  exact nofun

/-- A rule complains about a single problem. -/
theorem Diagnostic.OfRule.single (h : d.OfRule) : d.Single := by
  intro hcode
  rw [Diagnostic.OfRule] at h
  rw [Diagnostic.code] at hcode
  cases hcause : d.cause <;> simp_all [Cause.OfRule, Cause.code]

/-- A failure raises a single diagnostic, or several that are single each. -/
inductive Failure.Reported : Failure → Prop
  /-- One diagnostic is raised. -/
  | problem {d : Diagnostic} : d.Single → Reported (.problem d)
  /-- Several diagnostics are raised together, at least one. -/
  | problems {errors : List Diagnostic} :
    errors ≠ [] → (∀ d ∈ errors, d.Single) → Reported (.problems errors)

/-- An operation returns a result with a property, or it reports why it has none. -/
def Reports (P : α → Prop) (x : Outcome α) : Prop :=
  Returns P x ∨ ∃ failure, x = .error failure ∧ failure.Reported

namespace Reports

variable {Q : β → Prop} {x : Outcome α}

/-- A success needs no report. -/
theorem of_pure {a : α} (h : P a) : Reports P (pure a) := Or.inl (.of_pure h)

/-- A diagnostic that is raised by itself is reported. -/
theorem of_problem (h : d.Single) : Reports P (throw (.problem d)) := Or.inr ⟨_, rfl, .problem h⟩

/-- An operation that raises single diagnostics only reports them. -/
theorem of_fails (h : Fails False Diagnostic.Single x) : Reports (fun a => x = .ok a) x := by
  cases x with
  | ok a => exact Or.inl ⟨a, rfl, rfl⟩
  | error failure =>
    obtain ⟨d, rfl, hd⟩ := h.exists_problem rfl
    exact Or.inr ⟨_, rfl, .problem hd⟩

/-- A sequence of operations reports what its parts report. -/
theorem of_bind {f : α → Outcome β} (hx : Reports P x) (hf : ∀ a, P a → Reports Q (f a)) :
    Reports Q (x >>= f) := by
  rcases hx with ⟨a, rfl, ha⟩ | ⟨failure, rfl, hreported⟩
  · exact hf a ha
  · exact Or.inr ⟨failure, rfl, hreported⟩

/-- Every result has a property that follows for results. -/
theorem imp {R : α → Prop} (h : Reports P x) (hR : ∀ a, x = .ok a → P a → R a) : Reports R x := by
  rcases h with ⟨a, ha, hP⟩ | hreported
  · exact Or.inl ⟨a, ha, hR a ha hP⟩
  · exact Or.inr hreported

end Reports

/-- An operation returns a result, and diagnostics that are single. -/
def Collects (x : Outcome (α × List Diagnostic)) : Prop :=
  Returns (fun result => ∀ d ∈ result.2, d.Single) x

/-- The diagnostics of two parts are single if those of each part are. -/
theorem single_append {first second : List Diagnostic} (hfirst : ∀ d ∈ first, d.Single)
    (hsecond : ∀ d ∈ second, d.Single) : ∀ d ∈ first ++ second, d.Single :=
  List.forall_mem_append.mpr ⟨hfirst, hsecond⟩

/-- If an operation reports on every item, its diagnostics are collected. -/
theorem collects_collectEach {f : α → Outcome β}
    (h : ∀ item ∈ items, Fails False Diagnostic.Single (f item)) :
    Collects (collectEach f items) := by
  induction items with
  | nil => exact .of_pure (by simp)
  | cons item rest ih =>
    obtain ⟨hitem, hrest⟩ := List.forall_mem_cons.mp h
    unfold collectEach
    split
    · exact (ih hrest).of_bind fun ⟨results, errors⟩ herrors => .of_pure herrors
    · rename_i d hd
      exact (ih hrest).of_bind fun ⟨results, errors⟩ herrors =>
        .of_pure (List.forall_mem_cons.mpr ⟨hitem.of_error hd, herrors⟩)
    · rename_i failure hne hfailure
      obtain ⟨d, rfl, -⟩ := hitem.exists_problem hfailure
      exact absurd rfl (hne d)

/-- If diagnostics are collected at every item, they are collected at all. -/
theorem collects_collectAll {f : α → Outcome (β × List Diagnostic)}
    (h : ∀ item ∈ items, Collects (f item)) : Collects (collectAll f items) := by
  induction items with
  | nil => exact .of_pure (by simp)
  | cons item rest ih =>
    obtain ⟨hitem, hrest⟩ := List.forall_mem_cons.mp h
    exact hitem.of_bind fun ⟨result, errors⟩ herrors =>
      (ih hrest).of_bind fun ⟨results, others⟩ hothers => .of_pure (single_append herrors hothers)

end Shapeline
