import Shapeline.Proofs.Inference.Invariants
import Shapeline.Proofs.Rule.Symbols
import Shapeline.Validation

/-!
# The symbols of recorded shapes

A symbol enters the shapes of a node with its input, with a declared shape or with a parameter. The
first two are known, and a parameter is recorded along with the shapes. When placeholders are
replaced, a symbol either stays in the shapes and in the parameters, or gives way to symbols of a
declared shape in both.
-/

namespace Shapeline

variable {settings : InferenceSettings} {planned : PlannedNode} {node : Int} {π : Substitution}
  {known : String → Prop} {c d : Chain} {input s t : Shape} {errors : List Diagnostic}
  {name what : String} {n : GraphNode}

/-- A step records a symbol in one of its parameters. -/
def LayerStep.Records (s : LayerStep) (name : String) : Prop :=
  ∃ parameter t, s.params.term? parameter .absent = some t ∧ name ∈ t.symbols

/-- A symbol is known, or one of several steps records it in a parameter. -/
def KnownOrRecorded (known : String → Prop) (steps : List LayerStep) (name : String) : Prop :=
  known name ∨ ∃ s ∈ steps, s.Records name

/-- Every symbol of a shape has a property. -/
def Shape.SymbolsSatisfy (P : String → Prop) (s : Shape) : Prop := ∀ name ∈ s.symbols, P name

/-- Every symbol in the shapes of a chain is known or recorded in a parameter. -/
structure Chain.Covered (known : String → Prop) (c : Chain) : Prop where
  /-- The symbols of the inputs are. -/
  inputs : ∀ s ∈ c.steps, s.input.SymbolsSatisfy (KnownOrRecorded known c.steps)
  /-- The symbols of the outputs are. -/
  outputs : ∀ s ∈ c.steps, s.output.SymbolsSatisfy (KnownOrRecorded known c.steps)
  /-- The symbols of the shape are. -/
  shape : c.shape.SymbolsSatisfy (KnownOrRecorded known c.steps)

/-- The symbols of a shape have every property that follows from one that they have. -/
theorem Shape.SymbolsSatisfy.imp {P Q : String → Prop} (h : s.SymbolsSatisfy P)
    (hPQ : ∀ name, P name → Q name) : s.SymbolsSatisfy Q := fun name hname => hPQ name (h name hname)

/-- What is recorded stays recorded when further steps are. -/
theorem KnownOrRecorded.append {steps more : List LayerStep}
    (h : KnownOrRecorded known steps name) : KnownOrRecorded known (steps ++ more) name :=
  h.imp_right fun ⟨s, hs, hrecords⟩ => ⟨s, List.mem_append_left _ hs, hrecords⟩

/-- The symbols that validation looks at are those of the shapes that a node passes on and those in
its parameters. -/
theorem GraphNode.mem_symbols : name ∈ n.symbols ↔
    name ∈ n.inferred.symbols ∨ name ∈ n.output.symbols ∨ ∃ s ∈ n.steps, s.Records name := by
  unfold symbols
  simp only [Names.mem_union, Names.mem_ofList, List.mem_flatMap]
  refine or_congr Iff.rfl (or_congr Iff.rfl ⟨?_, ?_⟩)
  · rintro ⟨s, hs, v, hv, hname⟩
    obtain ⟨⟨parameter, v⟩, hentry, rfl⟩ := List.mem_map.mp hv
    dsimp only at hname
    cases ht : v.toTerm? with
    | none => simp [ht] at hname
    | some t =>
      refine ⟨s, hs, parameter, t, ?_, by simpa [ht] using hname⟩
      exact Parameters.term?_absent_iff.mpr ⟨_, Dictionary.mem_entries_iff.mp hentry, ht⟩
  · rintro ⟨s, hs, parameter, t, ht, hname⟩
    obtain ⟨v, hv, ht⟩ := Parameters.term?_absent_iff.mp ht
    refine ⟨s, hs, v, List.mem_map.mpr ⟨_, Dictionary.mem_entries_iff.mpr hv, rfl⟩, ?_⟩
    simpa [ht] using hname

/-- A symbol that is not replaced stays recorded. -/
theorem LayerStep.Records.substitute {s s' : LayerStep} (hs : s.Records name)
    (h : s.substitute π = .ok s') (hnone : π name = none) : s'.Records name := by
  obtain ⟨parameter, t, ht, hname⟩ := hs
  obtain ⟨_, hparams, _⟩ := LayerStep.substitute_eq_ok_iff.mp h
  rcases Parameters.term?_substitute hparams Parameters.substitute_absent parameter with
    ⟨hnone, _⟩ | ⟨t', u, ht', hu, hget⟩
  · cases hnone.symm.trans ht
  · obtain rfl := Option.some.inj (ht'.symm.trans ht)
    exact ⟨parameter, u, hget, Term.mem_symbols_of_substitute hu hname hnone⟩

/-- The symbols of a shape are still known or recorded when others are replaced by known ones. -/
theorem Shape.SymbolsSatisfy.substitute {steps steps' : List LayerStep}
    (hs : s.SymbolsSatisfy (KnownOrRecorded known steps))
    (hsteps : List.Forall₂ (fun s s' => s.substitute π = .ok s') steps steps')
    (hπ : ∀ other r, π other = some (.ok r) → ∀ name ∈ r.symbols, known name)
    (h : s.substitute π = .ok t) : t.SymbolsSatisfy (KnownOrRecorded known steps') := by
  intro name hname
  obtain ⟨u, hu, hname⟩ := Shape.mem_symbols.mp hname
  obtain ⟨x, hx, hxu⟩ := exists_of_mem_right (Shape.substitute_eq_ok_iff.mp h) hu
  rcases Term.mem_symbols_substitute hxu hname with ⟨hname, hnone⟩ | ⟨other, _, r, hr, hname⟩
  · refine (hs name (Shape.mem_symbols.mpr ⟨x, hx, hname⟩)).imp_right ?_
    rintro ⟨step, hstep, hrecords⟩
    obtain ⟨step', hmem, hsubstitute⟩ := exists_of_mem_left hsteps hstep
    exact ⟨step', hmem, hrecords.substitute hsubstitute hnone⟩
  · exact Or.inl (hπ other r hr name hname)

/-- A chain is still covered when symbols are replaced by known ones. -/
theorem Chain.Covered.substitute (hc : c.Covered known)
    (hπ : ∀ other r, π other = some (.ok r) → ∀ name ∈ r.symbols, known name)
    (h : c.substitute π = .ok d) : d.Covered known := by
  obtain ⟨hshape, hsteps⟩ := Chain.substitute_eq_ok_iff.mp h
  refine ⟨fun s' hs' => ?_, fun s' hs' => ?_, hc.shape.substitute hsteps hπ hshape⟩
  · obtain ⟨s, hs, hsubstitute⟩ := exists_of_mem_right hsteps hs'
    obtain ⟨_, _, hinput, _⟩ := LayerStep.substitute_eq_ok_iff.mp hsubstitute
    exact (hc.inputs s hs).substitute hsteps hπ hinput
  · obtain ⟨s, hs, hsubstitute⟩ := exists_of_mem_right hsteps hs'
    obtain ⟨_, _, _, houtput⟩ := LayerStep.substitute_eq_ok_iff.mp hsubstitute
    exact (hc.outputs s hs).substitute hsteps hπ houtput

/-- A comparison with a declared shape of known symbols leaves a chain covered. -/
theorem Chain.Covered.reconcile {declared : Shape} (hc : c.Covered known)
    (hdeclared : declared.SymbolsSatisfy known)
    (h : (reconcile settings node c declared what).Yields errors d) : d.Covered known := by
  refine hc.substitute (fun other r hr name hname => ?_) (reconcile_yields_iff.mp h).1
  obtain ⟨_, x, hx, heq⟩ := Shape.mem_of_binding hr
  obtain rfl := Except.ok.inj heq
  exact hdeclared name (Shape.mem_symbols.mpr ⟨r, hx, hname⟩)

/-- The symbols in the output of an applied step are those of its input and its parameters. -/
theorem symbols_of_applyStep {P : String → Prop} {position : Nat} {step : PlannedStep}
    {applied : LayerStep} (h : applyStep settings node position step s = .ok applied)
    (hs : s.SymbolsSatisfy P) (hrecords : ∀ name, applied.Records name → P name) :
    applied.input = s ∧ applied.output.SymbolsSatisfy P := by
  obtain ⟨outcome, houtcome, h⟩ := bind_eq_ok_iff.mp h
  obtain rfl := pure_eq_ok_iff.mp h
  have hleaves : ∀ x ∈ outcome.shape.axes, x.LeavesSatisfy P fun p => P p.name :=
    Rule.leaves_of_apply houtcome
      (fun parameter t ht => Term.leavesSatisfy_iff_symbols.mpr fun name hname =>
        hrecords name ⟨parameter, t, ht, hname⟩)
      fun x hx => Term.leavesSatisfy_iff_symbols.mpr fun name hname =>
        hs name (Shape.mem_symbols.mpr ⟨x, hx, hname⟩)
  refine ⟨rfl, fun name hname => ?_⟩
  obtain ⟨x, hx, hname⟩ := Shape.mem_symbols.mp hname
  exact Term.leavesSatisfy_iff_symbols.mp (hleaves x hx) name hname

/-- Chains stay covered along a run. -/
theorem Chain.Evolves.covered (h : Chain.Evolves settings planned ⟨[], input⟩ errors c)
    (hinput : input.SymbolsSatisfy known)
    (hcheckpoints : ∀ checkpoint ∈ planned.checkpoints, checkpoint.shape.SymbolsSatisfy known) :
    c.Covered known := by
  induction h with
  | refl => exact ⟨by simp, by simp, hinput.imp fun _ => Or.inl⟩
  | @apply errors c step position applied _ _ happlied ih =>
    have hgrown (shape : Shape)
        (hshape : shape.SymbolsSatisfy (KnownOrRecorded known c.steps)) :
        shape.SymbolsSatisfy (KnownOrRecorded known (c.steps ++ [applied])) :=
      hshape.imp fun _ => KnownOrRecorded.append
    obtain ⟨hsame, houtput⟩ := symbols_of_applyStep happlied (hgrown _ ih.shape)
      fun name hrecords => Or.inr ⟨applied, List.mem_append_right _ List.mem_cons_self, hrecords⟩
    refine ⟨fun s hs => ?_, fun s hs => ?_, houtput⟩
    · rcases List.mem_append.mp hs with hs | hs
      · exact hgrown _ (ih.inputs s hs)
      · obtain rfl := List.mem_singleton.mp hs
        exact hsame ▸ hgrown _ ih.shape
    · rcases List.mem_append.mp hs with hs | hs
      · exact hgrown _ (ih.outputs s hs)
      · obtain rfl := List.mem_singleton.mp hs
        exact houtput
  | check _ hcheckpoint hyields ih =>
    have hshape := hcheckpoints _ hcheckpoint
    have hd := ih.reconcile hshape hyields
    exact ⟨hd.inputs, hd.outputs, hshape.imp fun _ => Or.inl⟩

/-- A node that is made without diagnostics passes its declared shape on. -/
theorem output_of_inferNode {declared : Shape}
    (h : (inferNode settings planned input).Yields [] (some n))
    (hdeclared : planned.declared = some declared) : n.output = declared := by
  obtain ⟨c, first, second, _, hends, herrors⟩ := ends_of_inferNode h
  obtain ⟨rfl, rfl⟩ := List.append_eq_nil_iff.mp herrors.symm
  cases hends with
  | undeclared hnone => cases hnone.symm.trans hdeclared
  | declared hshape _ => exact Option.some.inj (hshape.symm.trans hdeclared)
  | failed hne => exact absurd rfl hne

/-- In a node that is made without diagnostics every symbol in the shapes of a step is known or
recorded in a parameter. -/
theorem covered_of_inferNode (h : (inferNode settings planned input).Yields [] (some n))
    (hinput : input.SymbolsSatisfy known)
    (hcheckpoints : ∀ checkpoint ∈ planned.checkpoints, checkpoint.shape.SymbolsSatisfy known)
    (hdeclared : ∀ shape, planned.declared = some shape → shape.SymbolsSatisfy known) :
    ∀ s ∈ n.steps, s.input.SymbolsSatisfy (KnownOrRecorded known n.steps) ∧
      s.output.SymbolsSatisfy (KnownOrRecorded known n.steps) := by
  obtain ⟨c, first, second, hevolves, hends, herrors⟩ := ends_of_inferNode h
  obtain ⟨rfl, rfl⟩ := List.append_eq_nil_iff.mp herrors.symm
  have hc := hevolves.covered hinput hcheckpoints
  cases hends with
  | undeclared => exact fun s hs => ⟨hc.inputs s hs, hc.outputs s hs⟩
  | declared hshape hyields =>
    have hd := hc.reconcile (hdeclared _ hshape) hyields
    exact fun s hs => ⟨hd.inputs s hs, hd.outputs s hs⟩
  | failed hne => exact absurd rfl hne

end Shapeline
