import Shapeline.Proofs.Rule.Step

/-!
# The symbols in the output of a rule

A rule builds its output from the extents of its input, its parameters and the placeholders that it
mints, whether or not all of them have values. What all symbols there have in common the symbols in
the output have too. In particular, as long as placeholders are told from the author's symbols
there, they are told from them in the output.
-/

namespace Shapeline

variable {σ : Substitution} {p derived : Parameters} {r : Rule} {axes raw : List Term}
  {mint : String → Placeholder} {name layer : String} {t : Term} {shape : Shape}
  {outcome : RuleOutcome} {onSymbol : String → Prop} {onHole : Placeholder → Prop}

/-- The symbols that a rule computes with are those of the extents and the parameters. -/
theorem Rule.leaves_formula (h : r.formula p axes = some raw)
    (hp : ∀ name t, p.term? name .absent = some t → t.LeavesSatisfy onSymbol onHole)
    (haxes : ∀ x ∈ axes, x.LeavesSatisfy onSymbol onHole) :
    ∀ x ∈ raw, x.LeavesSatisfy onSymbol onHole := by
  intro x hx
  cases raw with
  | nil => cases hx
  | cons first rest =>
    rcases List.mem_cons.mp hx with rfl | hx
    · exact Rule.head_formula h rfl hp haxes trivial fun y z hy hz => ⟨hy, hz⟩
    · rcases Rule.mem_tail_formula h hx with ⟨_, step, hstep, y, hy, rfl⟩ | ⟨_, hx⟩
      · have hdivisor : step.LeavesSatisfy onSymbol onHole := by
          rcases Parameters.term?_int hstep with rfl | hstep
          · trivial
          · exact hp stride step hstep
        exact ⟨haxes y (List.mem_of_mem_tail hy), hdivisor⟩
      · exact haxes x (List.mem_of_mem_tail hx)

/-- The symbols in the output of a rule are those of the input and the recorded parameters. -/
theorem Rule.leaves_of_apply (h : r.apply layer shape p mint σ = .ok outcome)
    (hp : ∀ name t, (p.merged outcome.derived).term? name .absent = some t →
      t.LeavesSatisfy onSymbol onHole)
    (hshape : ∀ x ∈ shape.axes, x.LeavesSatisfy onSymbol onHole) :
    ∀ x ∈ outcome.shape.axes, x.LeavesSatisfy onSymbol onHole := by
  obtain ⟨hrank, raw, htransform, hsimplify⟩ := Rule.apply_eq_ok h
  obtain ⟨hformula, _, _⟩ := Rule.transform_eq_ok hrank htransform
  intro u hu
  obtain ⟨t, ht, htu⟩ := exists_of_mem_right (Shape.simplify_eq_ok_iff.mp hsimplify) hu
  exact (Rule.leaves_formula hformula hp hshape t ht).simplify htu

/-- The symbols in the recorded parameters are those of the author's parameters, of the extents and
of the placeholders that are minted. -/
theorem DerivesAll.leaves_merged (h : DerivesAll mint axes derived)
    (hp : ∀ name t, p.term? name .absent = some t → t.LeavesSatisfy onSymbol onHole)
    (haxes : ∀ x ∈ axes, x.LeavesSatisfy onSymbol onHole) (hmint : ∀ name, onHole (mint name)) :
    ∀ name t, (p.merged derived).term? name .absent = some t →
      t.LeavesSatisfy onSymbol onHole := by
  intro name t ht
  rcases Parameters.term?_of_merged ht with ht | ht
  · rcases h.term_cases ht with ⟨position, rfl⟩ | ⟨_, hx | ⟨parameter, rfl⟩⟩
    · trivial
    · exact haxes t hx
    · exact hmint parameter
  · exact hp name t ht

/-- The output of a rule tells placeholders from the author's symbols. -/
theorem Rule.distinguished_of_apply (h : r.apply layer shape p mint σ = .ok outcome)
    (hp : ∀ name t, p.term? name .absent = some t → t.Distinguished)
    (hshape : shape.Distinguished) (hmint : ∀ name, Marked (mint name).name) :
    outcome.shape.Distinguished := by
  obtain ⟨hrank, raw, htransform, _⟩ := Rule.apply_eq_ok h
  obtain ⟨_, _, hderives⟩ := Rule.transform_eq_ok hrank htransform
  exact Rule.leaves_of_apply h (hderives.leaves_merged hp hshape hmint) hshape

end Shapeline
