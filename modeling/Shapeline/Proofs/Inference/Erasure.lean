import Shapeline.Proofs.Inference.Simulation
import Shapeline.Proofs.Inference.Symbols
import Shapeline.Proofs.Validation

/-!
# Inference without some of the declared shapes

Shapes that a plan declares are left out. If every channel or feature that a step does not take from
its input is given, inference makes no placeholders, so a declared shape binds nothing: it only
takes the place of a shape that is the same under the values of the model's variables. A run without
it carries the other shape on, and the checks of later rules do not tell the two apart.
-/

namespace Shapeline

variable {σ : Substitution} {settings : InferenceSettings} {planned : PlannedNode}
  {step : PlannedStep} {node : Int} {position : Nat} {applied s s' : LayerStep}
  {a b input : Shape} {c c' d : Chain} {n n' : GraphNode} {errors : List Diagnostic}
  {known : String → Prop}

/-- Two terms without placeholders have values under a substitution, and they are the same. -/
structure Term.Tallies (σ : Substitution) (t u : Term) : Prop where
  /-- The first term has no placeholders. -/
  left : t.Solid
  /-- The second term has no placeholders. -/
  right : u.Solid
  /-- The first term has a value. -/
  defined : t.DefinedUnder σ
  /-- The terms are the same. -/
  same : SameUnder σ t u

namespace Term

variable {o : Operator} {t u l l' r r' : Term}

/-- Operators whose divisors do not vanish keep that terms are the same. -/
theorem Tallies.op (hl : l.Tallies σ l') (hr : r.Tallies σ r')
    (hdiv : o = .div → ¬ r.VanishesUnder σ) : (Term.op o l r).Tallies σ (Term.op o l' r') := by
  have hdefined := definedUnder_op_iff.mpr ⟨hl.defined, hr.defined, hdiv⟩
  have hsame := hl.same.op hr.same (o := o)
  exact ⟨hl.left.op hr.left hdefined.lowers, hl.right.op hr.right (hsame.defined.mp hdefined).lowers,
    hdefined, hsame⟩

/-- Simplification keeps that terms are the same. -/
theorem Tallies.simplify (h : t.Tallies σ u) :
    ∃ t' u', t.simplify = .ok t' ∧ u.simplify = .ok u' ∧ t'.Tallies σ u' := by
  obtain ⟨t', ht', -⟩ := h.left.lowers.simplify
  obtain ⟨u', hu', -⟩ := h.right.lowers.simplify
  have hsamet := SameUnder.simplify h.defined ht'
  have hsameu := SameUnder.simplify (h.same.defined.mp h.defined) hu'
  exact ⟨t', u', ht', hu', h.left.simplify ht', h.right.simplify hu', h.defined.simplify ht',
    (hsamet.trans h.same).trans hsameu.symm⟩

/-- Rules keep that extents are the same. -/
theorem ruleRelation_tallies (σ : Substitution) : RuleRelation σ Solid (Tallies σ) where
  author _ ht := ht.lowers
  integer := arithmetic_solid.const
  lowers _ _ h := ⟨h.left.lowers, h.right.lowers⟩
  same _ _ h := h.same
  one := ⟨arithmetic_solid.const 1, arithmetic_solid.const 1, ⟨fun _ => none, 1, rfl⟩, .refl _⟩
  product _ _ _ _ hab hcd := hab.op hcd nofun
  quotient _ hstep hdefined hvanishes _ _ hab :=
    hab.op ⟨hstep, hstep, hdefined, .refl _⟩ fun _ => hvanishes
  simplify _ _ h := h.simplify

/-- Rules keep that extents are equal and have no placeholders. -/
theorem ruleRelation_solid (σ : Substitution) :
    RuleRelation σ Solid (fun t u => u = t ∧ t.Solid) where
  author _ ht := ht.lowers
  integer := arithmetic_solid.const
  lowers _ _ h := by
    obtain ⟨rfl, ht⟩ := h
    exact ⟨ht.lowers, ht.lowers⟩
  same _ _ h := h.1 ▸ .refl _
  one := ⟨rfl, arithmetic_solid.const 1⟩
  product _ _ _ _ hab hcd := by
    obtain ⟨rfl, ha⟩ := hab
    obtain ⟨rfl, hc⟩ := hcd
    exact ⟨rfl, ha.op hc (lowers_op_iff.mpr ⟨ha.lowers, hc.lowers, nofun⟩)⟩
  quotient _ hstep _ hvanishes _ _ hab := by
    obtain ⟨rfl, ha⟩ := hab
    exact ⟨rfl, ha.op hstep (lowers_op_iff.mpr ⟨ha.lowers, hstep.lowers,
      fun _ hzero => hvanishes fun _ y hy => hzero _ y hy⟩)⟩
  simplify _ _ h := by
    obtain ⟨rfl, ht⟩ := h
    obtain ⟨u, hu, -⟩ := ht.lowers.simplify
    exact ⟨u, u, hu, hu, rfl, ht.simplify hu⟩

end Term

/-- A shape without placeholders stays, or another one has the same extents. -/
inductive Shape.Tallies (σ : Substitution) : Shape → Shape → Prop
  /-- The shape stays. -/
  | same {a : Shape} : a.TermsSatisfy Term.Solid → Tallies σ a a
  /-- The extents are the same. -/
  | restated {a b : Shape} : List.Forall₂ (Term.Tallies σ) a.axes b.axes → Tallies σ a b

/-- A step has the same parameters and shapes in two runs. -/
structure LayerStep.Tallies (σ : Substitution) (s s' : LayerStep) : Prop where
  /-- The layer types are equal. -/
  layerType : s'.layerType = s.layerType
  /-- The terms among the parameters are the same. -/
  params : s.params.Related (fun t u => (t.Lowers ∧ u.Lowers) ∧ Term.SameUnder σ t u) s'.params
  /-- What is not derived is equal. -/
  fixed : ∀ name, ¬ Parameters.IsDerived name → s'.params.get? name = s.params.get? name
  /-- The symbols that are recorded are recorded in the other run, or come from the input. -/
  grounded : ∀ name, s'.Records name → s.Records name ∨ name ∈ s'.input.symbols
  /-- The inputs are the same. -/
  input : s.input.Tallies σ s'.input
  /-- The outputs are the same. -/
  output : s.output.Tallies σ s'.output
  /-- What selects an axis is not derived. -/
  axes : ∀ layer, s.layerType = some layer → layer.FixesAxes

/-- The channels or features that a step does not take from its input are given, and a substitution
can be made in them. -/
def PlannedStep.GivesOutput (σ : Substitution) (step : PlannedStep) : Prop :=
  ∀ name, step.layerType.rule.family.outputParameter? = some name →
    ∃ t u, step.params.term? name .absent = some t ∧ t.substitute σ = .ok u

instance : Decidable (step.GivesOutput σ) :=
  decidable_of_iff (step.layerType.rule.family.outputParameter?.all fun name =>
    (step.params.term? name .absent).any fun t => (t.substitute σ).toOption.isSome) <| by
    simp only [Option.all_eq_true, Option.any_eq_true, ← exists_eq_ok_iff,
      ← exists_and_left, PlannedStep.GivesOutput]

/-- A planned step without placeholders whose output is given. -/
structure PlannedStep.Determined (σ : Substitution) (step : PlannedStep) : Prop where
  /-- The parameters have no placeholders. -/
  params : step.params.TermsSatisfy Term.Solid
  /-- The output is given. -/
  output : step.GivesOutput σ
  /-- What selects an axis is not derived. -/
  axes : step.layerType.FixesAxes

/-- A shape is declared in both plans, or is left out of the second; it has no placeholders. -/
structure LeavesOut (shape shape' : Option Shape) : Prop where
  /-- The second plan declares the same shape or none. -/
  erased : shape' = shape ∨ shape' = none
  /-- The shape has no placeholders. -/
  solid : ∀ s ∈ shape, s.TermsSatisfy Term.Solid

namespace Shape

/-- Shapes that are the same have no placeholders. -/
theorem Tallies.solid (h : a.Tallies σ b) :
    a.TermsSatisfy Term.Solid ∧ b.TermsSatisfy Term.Solid := by
  cases h with
  | same ha => exact ⟨ha, ha⟩
  | restated haxes =>
    refine ⟨fun x hx => ?_, fun y hy => ?_⟩
    · obtain ⟨y, -, hxy⟩ := exists_of_mem_left haxes hx
      exact hxy.left
    · obtain ⟨x, -, hxy⟩ := exists_of_mem_right haxes hy
      exact hxy.right

/-- The extents of shapes that are the same are so one by one. -/
theorem Tallies.axes (h : a.Tallies σ b) :
    List.Forall₂ (fun x y => x.Solid ∧ y.Solid ∧ Term.SameUnder σ x y) a.axes b.axes := by
  cases h with
  | same ha => exact List.forall₂_same.mpr fun x hx => ⟨ha x hx, ha x hx, .refl x⟩
  | restated haxes => exact haxes.imp fun _ _ hxy => ⟨hxy.left, hxy.right, hxy.same⟩

/-- Shapes that are the same have as many axes. -/
theorem Tallies.rank_eq (h : a.Tallies σ b) : b.rank = a.rank := h.axes.length_eq.symm

/-- A shape without placeholders binds nothing. -/
theorem binding_eq_none (h : a.TermsSatisfy Term.Solid) (name : String) :
    a.binding b name = none := by
  by_contra hsome
  obtain ⟨r, hr⟩ := Option.ne_none_iff_exists'.mp hsome
  obtain ⟨⟨p, hp, -⟩, -⟩ := mem_of_binding hr
  exact (h _ hp).filled

/-- A shape that is the same as one that matches a declared shape matches it too. -/
theorem Tallies.matches (hab : a.Tallies σ b) (hσ : σ.Lowers) {declared : Shape}
    (hdeclared : declared.TermsSatisfy Term.Solid) (h : a.Matches σ declared) :
    b.Matches σ declared := by
  have hself := (Tallies.same (σ := σ) hdeclared).axes
  refine forall₂_transport (fun x y x' y' hxy hx hy => ?_) h hab.axes hself
  obtain ⟨hsolid, hsolid', hsame⟩ := hx
  obtain ⟨hsolidy, hsolidy', hsamey⟩ := hy
  exact hxy.congr hσ hsolid.lowers hsolidy.lowers hsolid'.lowers hsolidy'.lowers hsame hsamey

/-- A declared shape that is matched is the same as what the matching shape is the same as. -/
theorem Tallies.of_matches (hab : a.Tallies σ b) (hσ : σ.Lowers) {declared : Shape}
    (hdeclared : declared.TermsSatisfy Term.Solid) (h : a.Matches σ declared) :
    declared.Tallies σ b := by
  have haxes : List.Forall₂ (fun x' y => Term.Tallies σ y x') b.axes declared.axes := by
    have hself : List.Forall₂ (fun y y' => y' = y ∧ y.Solid) declared.axes declared.axes :=
      List.forall₂_same.mpr fun y hy => ⟨rfl, hdeclared y hy⟩
    refine forall₂_transport (fun x y x' y' hxy hx hy => ?_) h hab.axes hself
    obtain ⟨hsolid, hsolid', hsame⟩ := hx
    obtain ⟨rfl, hsolidy⟩ := hy
    obtain ⟨hdefined, hxy⟩ := (Term.comparesAs_true_iff hσ hsolid.lowers hsolidy.lowers).mp hxy
    exact ⟨hsolidy, hsolid', hxy.defined.mp hdefined, hxy.symm.trans hsame⟩
  exact .restated haxes.flip

end Shape

/-- A step that is applied to a shape is applied to one of related extents, as long as rules keep
the relation and it makes shapes the same. -/
theorem tallies_of_related {T : Term → Term → Prop}
    (hT : RuleRelation (.ofTerms settings.bindings) Term.Solid T)
    (hσ : (Substitution.ofTerms settings.bindings).Lowers) (hsolid : ∀ t u, T t u → u.Solid)
    (hshape : ∀ a b : Shape, List.Forall₂ T a.axes b.axes →
      a.Tallies (.ofTerms settings.bindings) b)
    (hstep : step.Determined (.ofTerms settings.bindings))
    (houtput : ∀ t, t.Solid → t.DefinedUnder (.ofTerms settings.bindings) → T t t)
    (hab : List.Forall₂ T a.axes b.axes)
    (h : applyStep settings node position step a = .ok applied) :
    ∃ applied', applyStep settings node position step b = .ok applied' ∧
      applied.Tallies (.ofTerms settings.bindings) applied' := by
  have hgiven : step.layerType.rule.RelatesOutput T step.params
      (mintPlaceholder step.layerType node position) := by
    intro name hname
    obtain ⟨t, u, ht, hu⟩ := hstep.output name hname
    refine ⟨fun t' ht' => ?_, fun hnone => ?_⟩
    · obtain rfl := Option.some.inj (ht.symm.trans ht')
      have hlow := (hstep.params name t ht).lowers
      exact houtput t (hstep.params name t ht) (.of_substitute hlow hσ hu)
    · obtain ⟨v, hv, -⟩ := Parameters.term?_eq_some_iff_given?.mp ht
      cases hnone.symm.trans hv
  obtain ⟨derived, derived', output, output', rfl, happly, haxes, hderived, hderives, hderives'⟩ :=
    exists_applyStep_related hT hσ hstep.params hgiven hab h
  refine ⟨_, happly, rfl, ?_, fun name => Parameters.get?_merged_eq_of_related hderived hderives,
    ?_, hshape _ _ hab, hshape _ _ haxes, fun layer hlayer => Option.some.inj hlayer ▸ hstep.axes⟩
  · refine (Parameters.Related.refl fun name t ht => ?_).merged
      (hderived.imp fun x y hxy => ⟨hT.lowers x y hxy, hT.same x y hxy⟩)
    have hlow := (hstep.params name t (by rw [Parameters.term?, ht]; rfl)).lowers
    exact ⟨⟨hlow, hlow⟩, .refl t⟩
  · rintro name ⟨parameter, t, ht, hname⟩
    rcases hderived parameter with ⟨hnone, hnone'⟩ | ⟨v, w, hv, hw, hvw⟩
    · refine Or.inl ⟨parameter, t, ?_, hname⟩
      rw [← ht]
      apply Parameters.term?_congr
      rw [Parameters.get?_merged, Parameters.get?_merged, hnone, hnone']
    · obtain ⟨w', hw', hterm⟩ := Parameters.term?_absent_iff.mp ht
      rw [Parameters.get?_merged, hw, Option.some_or] at hw'
      obtain rfl := Option.some.inj hw'
      cases hderives' parameter w hw with
      | axis _ =>
        obtain rfl := Option.some.inj hterm
        cases hname
      | extent _ x _ hx =>
        obtain rfl := Option.some.inj hterm
        exact Or.inr (Shape.mem_symbols.mpr ⟨x, hx, hname⟩)
      | hole _ _ _ =>
        cases hvw with
        | plain hplain => exact absurd rfl (hplain _)
        | dim hxy => exact (hsolid _ _ hxy).filled.elim

/-- A step that is applied to a shape is applied to one that is the same, and is the same itself. -/
theorem tallies_of_applyStep (hσ : (Substitution.ofTerms settings.bindings).Lowers)
    (hstep : step.Determined (.ofTerms settings.bindings))
    (hab : a.Tallies (.ofTerms settings.bindings) b)
    (h : applyStep settings node position step a = .ok applied) :
    ∃ applied', applyStep settings node position step b = .ok applied' ∧
      applied.Tallies (.ofTerms settings.bindings) applied' := by
  cases hab with
  | same ha =>
    refine tallies_of_related (Term.ruleRelation_solid _) hσ (fun _ _ htu => htu.1 ▸ htu.2) ?_
      hstep (fun t ht _ => ⟨rfl, ht⟩) (List.forall₂_same.mpr fun x hx => ⟨rfl, ha x hx⟩) h
    intro a b hab
    have haxes : a.axes = b.axes := by
      rw [← List.forall₂_eq_eq_eq]
      exact hab.imp fun _ _ hxy => hxy.1.symm
    obtain rfl : a = b := congrArg Shape.mk haxes
    exact .same fun x hx => by
      obtain ⟨_, -, -, hsolid⟩ := exists_of_mem_left hab hx
      exact hsolid
  | restated hab =>
    exact tallies_of_related (Term.ruleRelation_tallies _) hσ (fun _ _ htu => htu.right)
      (fun _ _ hab => .restated hab) hstep (fun t ht hdefined => ⟨ht, ht, hdefined, .refl t⟩) hab h

/-- A chain of steps without placeholders is left as it is by a comparison. -/
theorem Chain.substitute_binding_eq_self (h : c.shape.TermsSatisfy Term.Solid) (declared : Shape) :
    c.substitute (c.shape.binding declared) = .ok c :=
  Chain.substitute_eq_self (Shape.binding_eq_none h)

/-- A run under declared shapes follows one in which some of them are left out. -/
theorem simulates_leavesOut (hσ : (Substitution.ofTerms settings.bindings).Lowers) :
    Simulates settings LeavesOut (PlannedStep.Determined (.ofTerms settings.bindings))
      (Shape.Tallies (.ofTerms settings.bindings))
      (LayerStep.Tallies (.ofTerms settings.bindings)) where
  undeclared _ h := by rcases h.erased with h | h <;> cases h
  apply _ _ _ _ _ _ hstep hab h := by
    obtain ⟨applied', happly, htallies⟩ := tallies_of_applyStep hσ hstep hab h
    exact ⟨applied', happly, htallies, htallies.output⟩
  keep c c' d declared declared' hc hW hd hmatches := by
    obtain ⟨hsolid, hsolid'⟩ := hc.shape.solid
    have hdeclared := hW.solid declared rfl
    obtain rfl : declared' = declared := by
      rcases hW.erased with h | h
      · exact Option.some.inj h
      · cases h
    obtain rfl := Except.ok.inj ((Chain.substitute_binding_eq_self hsolid _).symm.trans hd)
    exact ⟨.same hdeclared, c', Chain.substitute_binding_eq_self hsolid' _,
      hc.shape.matches hσ hdeclared hmatches, hc⟩
  drop c c' d declared hc hW hd hmatches := by
    obtain ⟨hsolid, -⟩ := hc.shape.solid
    obtain rfl := Except.ok.inj ((Chain.substitute_binding_eq_self hsolid _).symm.trans hd)
    exact ⟨hc.shape.of_matches hσ (hW.solid declared rfl) hmatches, hc⟩

/-- A shape has no placeholders, and its symbols are known. -/
structure Shape.Familiar (known : String → Prop) (s : Shape) : Prop where
  /-- The shape has no placeholders. -/
  solid : s.TermsSatisfy Term.Solid
  /-- The symbols are known. -/
  symbols : s.SymbolsSatisfy known

/-- A step records symbols only that are known or come from its input. -/
def LayerStep.Grounded (known : String → Prop) (s : LayerStep) : Prop :=
  ∀ name, s.Records name → known name ∨ name ∈ s.input.symbols

/-- In a run without placeholders the symbols of the shape that is carried on and those that are
recorded are known. -/
theorem Chain.Evolves.familiar (h : Chain.Evolves settings planned ⟨[], input⟩ errors c)
    (hσ : (Substitution.ofTerms settings.bindings).Lowers)
    (hsteps : ∀ step ∈ planned.steps, step.Determined (.ofTerms settings.bindings))
    (hplanned : planned.Declares (Shape.Familiar known)) (hinput : input.Familiar known) :
    c.shape.TermsSatisfy Term.Solid ∧ ((∀ s ∈ c.steps, s.Grounded known) →
      c.shape.SymbolsSatisfy known ∧ ∀ s ∈ c.steps, ∀ name, s.Records name → known name) := by
  induction h with
  | refl => exact ⟨hinput.solid, fun _ => ⟨hinput.symbols, nofun⟩⟩
  | @apply errors c step position applied _ hstep happly ih =>
    obtain ⟨hsolid, hknown⟩ := ih
    obtain ⟨_, -, htallies⟩ := tallies_of_applyStep hσ (hsteps _ hstep) (.same hsolid) happly
    refine ⟨htallies.output.solid.1, fun hgrounded => ?_⟩
    obtain ⟨hshape, hrecords⟩ := hknown fun s hs => hgrounded s (List.mem_append_left _ hs)
    have hsame : applied.input = c.shape := by
      obtain ⟨outcome, -, hpure⟩ := bind_eq_ok_iff.mp happly
      exact pure_eq_ok_iff.mp hpure ▸ rfl
    have happlied : ∀ name, applied.Records name → known name := fun name hname =>
      (hgrounded applied (List.mem_append_right _ List.mem_cons_self) name hname).elim id
        fun hmem => hshape name (hsame ▸ hmem)
    refine ⟨(symbols_of_applyStep happly hshape happlied).2, fun s hs => ?_⟩
    rcases List.mem_append.mp hs with hs | hs
    · exact hrecords s hs
    · exact List.mem_singleton.mp hs ▸ happlied
  | @check errors c checkpoint found d _ hcheckpoint hyields ih =>
    obtain ⟨hsolid, hknown⟩ := ih
    have hd := (reconcile_yields_iff.mp hyields).1
    obtain rfl := Except.ok.inj ((Chain.substitute_binding_eq_self hsolid _).symm.trans hd)
    have hfamiliar := hplanned.inner checkpoint hcheckpoint
    exact ⟨hfamiliar.solid, fun hgrounded => ⟨hfamiliar.symbols, (hknown hgrounded).2⟩⟩

/-- In a node that is made without diagnostics and without placeholders all symbols are known. -/
theorem familiar_of_inferNode (h : (inferNode settings planned input).Yields [] (some n))
    (hσ : (Substitution.ofTerms settings.bindings).Lowers)
    (hsteps : ∀ step ∈ planned.steps, step.Determined (.ofTerms settings.bindings))
    (hplanned : planned.Declares (Shape.Familiar known)) (hinput : input.Familiar known)
    (hgrounded : ∀ s ∈ n.steps, s.Grounded known) :
    n.output.Familiar known ∧ ∀ name ∈ n.symbols, known name := by
  obtain ⟨c, first, second, hevolves, hends, herrors⟩ := ends_of_inferNode h
  obtain ⟨rfl, rfl⟩ := List.append_eq_nil_iff.mp herrors.symm
  obtain ⟨hsolid, hknown⟩ := hevolves.familiar hσ hsteps hplanned hinput
  have hsymbols {output : Shape} (hsteps : ∀ s ∈ c.steps, s.Grounded known)
      (houtput : output.SymbolsSatisfy known) :
      ∀ name ∈ (planned.finish input c output).symbols, known name := by
    intro name hname
    obtain ⟨hshape, hrecords⟩ := hknown hsteps
    rcases GraphNode.mem_symbols.mp hname with hmem | hmem | ⟨s, hs, hrecorded⟩
    · exact hshape name hmem
    · exact houtput name hmem
    · exact hrecords s hs name hrecorded
  cases hends with
  | undeclared _ =>
    have hshape := (hknown hgrounded).1
    exact ⟨⟨hsolid, hshape⟩, hsymbols hgrounded hshape⟩
  | declared hshape hreconcile =>
    have hd := (reconcile_yields_iff.mp hreconcile).1
    obtain rfl := Except.ok.inj ((Chain.substitute_binding_eq_self hsolid _).symm.trans hd)
    have hfamiliar := hplanned.own _ hshape
    exact ⟨hfamiliar, hsymbols hgrounded hfamiliar.symbols⟩
  | failed hne => exact absurd rfl hne

/-- In the nodes that are made without diagnostics and without placeholders all symbols are known. -/
theorem Infers.familiar {plan : List PlannedNode} {nodes : List GraphNode}
    (h : Infers settings plan input errors nodes) (herrors : errors = [])
    (hσ : (Substitution.ofTerms settings.bindings).Lowers)
    (hplan : ∀ planned ∈ plan, planned.Declares (Shape.Familiar known) ∧
      ∀ step ∈ planned.steps, step.Determined (.ofTerms settings.bindings))
    (hinput : input.Familiar known) (hgrounded : ∀ n ∈ nodes, ∀ s ∈ n.steps, s.Grounded known) :
    ∀ n ∈ nodes, ∀ name ∈ n.symbols, known name := by
  induction h with
  | nil => exact nofun
  | cons hmade _ ih =>
    obtain ⟨rfl, rfl⟩ := List.append_eq_nil_iff.mp herrors
    obtain ⟨⟨hplanned, hsteps⟩, hrest⟩ := List.forall_mem_cons.mp hplan
    obtain ⟨hfirst, hothers⟩ := List.forall_mem_cons.mp hgrounded
    obtain ⟨houtput, hsymbols⟩ := familiar_of_inferNode hmade hσ hsteps hplanned hinput hfirst
    exact List.forall_mem_cons.mpr ⟨hsymbols, ih rfl hrest houtput hothers⟩
  | stop _ => exact nofun

/-- A shape that a planned node declares is the output of a node that is made without
diagnostics. -/
theorem Infers.exists_output {plan : List PlannedNode} {nodes : List GraphNode}
    (h : Infers settings plan input errors nodes) (herrors : errors = []) :
    ∀ planned ∈ plan, ∀ shape ∈ planned.declared, ∃ n ∈ nodes, n.output = shape := by
  induction h with
  | nil => exact nofun
  | cons hmade _ ih =>
    obtain ⟨rfl, rfl⟩ := List.append_eq_nil_iff.mp herrors
    refine List.forall_mem_cons.mpr ⟨fun shape hshape => ?_, fun planned hplanned shape hshape => ?_⟩
    · exact ⟨_, List.mem_cons_self, output_of_inferNode hmade hshape⟩
    · obtain ⟨n, hn, houtput⟩ := ih rfl planned hplanned shape hshape
      exact ⟨n, List.mem_cons_of_mem _ hn, houtput⟩
  | stop hmade =>
    obtain ⟨_, _, _, _, -, -, -, hsome⟩ := inferNode_yields_nil_iff.mp (herrors ▸ hmade)
    cases hsome

/-- Steps that are the same resemble each other. -/
theorem LayerStep.Tallies.resembles (h : s.Tallies σ s') : s.Resembles s' where
  layerType := h.layerType
  input := h.input.rank_eq
  output := h.output.rank_eq
  params layer hlayer name hname := h.fixed name (h.axes layer hlayer name hname)

/-- Nodes of shapes and steps that are the same resemble each other. -/
theorem GraphNode.Related.resembles_tallies
    (h : n.Related (Shape.Tallies σ) (LayerStep.Tallies σ) n') : n.Resembles n' where
  index := h.index
  steps := h.steps.imp fun _ _ hs => hs.resembles
  input := h.input.rank_eq
  output := h.output.rank_eq

end Shapeline
