import Shapeline.Proofs.Inference.Run
import Shapeline.Proofs.Rule.Correspondence

/-!
# Runs under other declarations

Two plans that differ in their declared shapes only are run side by side. A declared shape of the
first plan may be stated otherwise in the second, or be left out there. If the rules and the
comparisons keep a relation between the two chains of steps, a run of the first plan that records no
diagnostic is matched by one of the second, and the two make related nodes.
-/

namespace Shapeline

/-- The shapes of the checkpoints are stated otherwise, or checkpoints are left out. -/
inductive Restated (W : Option Shape → Option Shape → Prop) :
    List Checkpoint → List Checkpoint → Prop
  /-- There is no checkpoint. -/
  | nil : Restated W [] []
  /-- A checkpoint is kept. -/
  | keep {checkpoint : Checkpoint} {shape : Shape} {rest rest' : List Checkpoint} :
    W (some checkpoint.shape) (some shape) → Restated W rest rest' →
    Restated W (checkpoint :: rest) ({ checkpoint with shape } :: rest')
  /-- A checkpoint is left out. -/
  | drop {checkpoint : Checkpoint} {rest rest' : List Checkpoint} :
    W (some checkpoint.shape) none → Restated W rest rest' →
    Restated W (checkpoint :: rest) rest'

/-- Two planned nodes differ in their declared shapes only. -/
structure PlannedNode.Restated (W : Option Shape → Option Shape → Prop)
    (planned planned' : PlannedNode) : Prop where
  /-- The numbers are equal. -/
  index : planned'.index = planned.index
  /-- The steps are equal. -/
  steps : planned'.steps = planned.steps
  /-- The labels are equal. -/
  label : planned'.label = planned.label
  /-- The names of the inline models are equal. -/
  submodel : planned'.submodel = planned.submodel
  /-- The declared shape is stated otherwise or left out. -/
  declared : W planned.declared planned'.declared
  /-- So are the shapes that the inline model declares. -/
  checkpoints : Shapeline.Restated W planned.checkpoints planned'.checkpoints

/-- The shapes that a node and its inline model declare have a property. -/
structure PlannedNode.Declares (P : Shape → Prop) (planned : PlannedNode) : Prop where
  /-- The shape that the node declares has it. -/
  own : ∀ shape ∈ planned.declared, P shape
  /-- The shapes that the inline model declares have it. -/
  inner : ∀ checkpoint ∈ planned.checkpoints, P checkpoint.shape

/-- Two chains have related steps and related shapes. -/
structure Chain.Related (R : Shape → Shape → Prop) (S : LayerStep → LayerStep → Prop)
    (c c' : Chain) : Prop where
  /-- The steps are related. -/
  steps : List.Forall₂ S c.steps c'.steps
  /-- The shapes are related. -/
  shape : R c.shape c'.shape

/-- Two nodes have related steps and related shapes. -/
structure GraphNode.Related (R : Shape → Shape → Prop) (S : LayerStep → LayerStep → Prop)
    (n n' : GraphNode) : Prop where
  /-- The numbers are equal. -/
  index : n'.index = n.index
  /-- The labels are equal. -/
  label : n'.label = n.label
  /-- The names of the inline models are equal. -/
  submodel : n'.submodel = n.submodel
  /-- The steps are related. -/
  steps : List.Forall₂ S n.steps n'.steps
  /-- The inputs are related. -/
  input : R n.input n'.input
  /-- The inferred shapes are related. -/
  inferred : R n.inferred n'.inferred
  /-- The outputs are related. -/
  output : R n.output n'.output

/-- The parameters that select an axis are none that a rule derives, so they are the same for all
inputs. -/
def LayerType.FixesAxes (layer : LayerType) : Prop :=
  ∀ name ∈ layer.axisParameters, ¬ Parameters.IsDerived name

variable {settings : InferenceSettings} {planned planned' : PlannedNode}
  {W : Option Shape → Option Shape → Prop} {Q : PlannedStep → Prop} {R : Shape → Shape → Prop}
  {S : LayerStep → LayerStep → Prop} {pending pending' rest : List Checkpoint}
  {c c' d : Chain} {done : Nat} {input input' : Shape}

/-- A relation between the declared shapes of two plans may be replaced by one that follows for the
shapes that occur in them. -/
theorem Restated.imp {W' : Option Shape → Option Shape → Prop} {P P' : Shape → Prop}
    (h : Restated W pending pending') (hpending : ∀ checkpoint ∈ pending, P checkpoint.shape)
    (hpending' : ∀ checkpoint ∈ pending', P' checkpoint.shape)
    (hW : ∀ a b, W a b → (∀ s ∈ a, P s) → (∀ s ∈ b, P' s) → W' a b) :
    Restated W' pending pending' := by
  induction h with
  | nil => exact .nil
  | keep hkeep _ ih =>
    obtain ⟨hfirst, hrest⟩ := List.forall_mem_cons.mp hpending
    obtain ⟨hfirst', hrest'⟩ := List.forall_mem_cons.mp hpending'
    exact .keep (hW _ _ hkeep (fun s hs => Option.some.inj hs ▸ hfirst)
      (fun s hs => Option.some.inj hs ▸ hfirst')) (ih hrest hrest')
  | drop hdrop _ ih =>
    obtain ⟨hfirst, hrest⟩ := List.forall_mem_cons.mp hpending
    exact .drop (hW _ _ hdrop (fun s hs => Option.some.inj hs ▸ hfirst) nofun) (ih hrest hpending')

/-- The relation between the declared shapes of two planned nodes may be replaced, too. -/
theorem PlannedNode.Restated.imp {W' : Option Shape → Option Shape → Prop} {P P' : Shape → Prop}
    (h : planned.Restated W planned') (hplanned : planned.Declares P)
    (hplanned' : planned'.Declares P')
    (hW : ∀ a b, W a b → (∀ s ∈ a, P s) → (∀ s ∈ b, P' s) → W' a b) :
    planned.Restated W' planned' :=
  ⟨h.index, h.steps, h.label, h.submodel, hW _ _ h.declared hplanned.own hplanned'.own,
    h.checkpoints.imp hplanned.inner hplanned'.inner hW⟩

/-- A property of the shapes that are declared in one plan is one of those of the other, if it
carries over from one declared shape to the other. -/
theorem PlannedNode.Restated.declares {P : Shape → Prop} (h : planned.Restated W planned')
    (hplanned : planned.Declares P) (hW : ∀ a b, W a b → (∀ s ∈ a, P s) → ∀ s ∈ b, P s) :
    planned'.Declares P where
  own := hW _ _ h.declared hplanned.own
  inner := by
    have hinner := hplanned.inner
    have hrestated := h.checkpoints
    generalize planned.checkpoints = pending at hinner hrestated
    generalize planned'.checkpoints = pending' at hrestated ⊢
    induction hrestated with
    | nil => exact nofun
    | @keep checkpoint shape _ _ hkeep _ ih =>
      obtain ⟨hfirst, hrest⟩ := List.forall_mem_cons.mp hinner
      have hshape := hW _ _ hkeep (fun s hs => Option.some.inj hs ▸ hfirst) shape rfl
      exact List.forall_mem_cons.mpr ⟨hshape, ih hrest⟩
    | drop _ _ ih => exact ih (List.forall_mem_cons.mp hinner).2

/-- Rules and comparisons with declared shapes keep a relation between two chains. -/
structure Simulates (settings : InferenceSettings) (W : Option Shape → Option Shape → Prop)
    (Q : PlannedStep → Prop) (R : Shape → Shape → Prop) (S : LayerStep → LayerStep → Prop) :
    Prop where
  /-- No declaration is added. -/
  undeclared : ∀ declared, ¬ W none (some declared)
  /-- A step that can be applied to a shape can be applied to a related one. -/
  apply : ∀ node position step s s' applied, Q step → R s s' →
    applyStep settings node position step s = .ok applied →
    ∃ applied', applyStep settings node position step s' = .ok applied' ∧ S applied applied' ∧
      R applied.output applied'.output
  /-- A comparison that is passed is passed in the other plan. -/
  keep : ∀ c c' d declared declared', Chain.Related R S c c' → W (some declared) (some declared') →
    c.substitute (c.shape.binding declared) = .ok d →
    d.shape.Matches (.ofTerms settings.bindings) declared →
    R declared declared' ∧ ∃ d', c'.substitute (c'.shape.binding declared') = .ok d' ∧
      d'.shape.Matches (.ofTerms settings.bindings) declared' ∧ Chain.Related R S d d'
  /-- A comparison that is passed need not be made in the other plan. -/
  drop : ∀ c c' d declared, Chain.Related R S c c' → W (some declared) none →
    c.substitute (c.shape.binding declared) = .ok d →
    d.shape.Matches (.ofTerms settings.bindings) declared →
    R declared c'.shape ∧ Chain.Related R S d c'

/-- Related parameters that a rule derives from shapes add the same to parameters under names that
are not derived. -/
theorem Parameters.get?_merged_eq_of_related {T : Term → Term → Prop} {p derived derived' : Parameters}
    {mint : String → Placeholder} {axes : List Term} {name : String}
    (h : derived.Related T derived') (hderives : DerivesAll mint axes derived)
    (hname : ¬ IsDerived name) :
    (p.merged derived').get? name = (p.merged derived).get? name := by
  rw [get?_merged, get?_merged]
  rcases h name with ⟨hnone, hnone'⟩ | ⟨v, w, hv, hw, hvw⟩
  · rw [hnone, hnone']
  · cases hvw with
    | plain _ => rw [hv, hw]
    | dim _ =>
      cases hderives name _ hv with
      | extent _ _ hderived _ => exact absurd hderived hname
      | hole _ _ hderived => exact absurd hderived hname

/-- A step that is applied to a shape is applied to a shape of related extents. The outputs and the
derived parameters are related. -/
theorem exists_applyStep_related {P : Term → Prop} {T : Term → Term → Prop} {node : Int}
    {position : Nat} {step : PlannedStep} {a b : Shape} {applied : LayerStep}
    (hT : RuleRelation (.ofTerms settings.bindings) P T)
    (hσ : (Substitution.ofTerms settings.bindings).Lowers) (hstep : step.params.TermsSatisfy P)
    (houtput : step.layerType.rule.RelatesOutput T step.params
      (mintPlaceholder step.layerType node position))
    (hab : List.Forall₂ T a.axes b.axes)
    (h : applyStep settings node position step a = .ok applied) :
    ∃ derived derived' output output',
      applied = ⟨some step.layerType, Parameters.merged step.params derived, a, output⟩ ∧
      applyStep settings node position step b =
        .ok ⟨some step.layerType, Parameters.merged step.params derived', b, output'⟩ ∧
      List.Forall₂ T output.axes output'.axes ∧ derived.Related T derived' ∧
      DerivesAll (mintPlaceholder step.layerType node position) a.axes derived ∧
      DerivesAll (mintPlaceholder step.layerType node position) b.axes derived' := by
  obtain ⟨outcome, houtcome, h⟩ := bind_eq_ok_iff.mp h
  obtain ⟨outcome', houtcome', haxes, hderived⟩ :=
    Rule.apply_related hT hσ hstep houtput hab houtcome
  have hderives {axes : List Term} {found : RuleOutcome}
      (hfound : step.layerType.rule.apply step.layerType.name ⟨axes⟩ step.params
        (mintPlaceholder step.layerType node position) (.ofTerms settings.bindings) = .ok found) :
      DerivesAll (mintPlaceholder step.layerType node position) axes found.derived := by
    obtain ⟨hrank, raw, htransform, -⟩ := Rule.apply_eq_ok hfound
    exact (Rule.transform_eq_ok hrank htransform).2.2
  exact ⟨outcome.derived, outcome'.derived, outcome.shape, outcome'.shape,
    pure_eq_ok_iff.mp h, bind_eq_ok_iff.mpr ⟨outcome', houtcome', rfl⟩, haxes, hderived,
    hderives houtcome, hderives houtcome'⟩

/-- The checkpoints of the other plan are due when those of the first are. -/
theorem Restated.exists_mem (h : Restated W pending pending') {checkpoint : Checkpoint}
    (hmem : checkpoint ∈ pending') : ∃ other ∈ pending, other.after = checkpoint.after := by
  induction h with
  | nil => cases hmem
  | keep _ _ ih =>
    rcases List.mem_cons.mp hmem with rfl | hmem
    · exact ⟨_, List.mem_cons_self, rfl⟩
    · obtain ⟨other, hother, hafter⟩ := ih hmem
      exact ⟨other, List.mem_cons_of_mem _ hother, hafter⟩
  | drop _ _ ih =>
    obtain ⟨other, hother, hafter⟩ := ih hmem
    exact ⟨other, List.mem_cons_of_mem _ hother, hafter⟩

/-- If no checkpoint is due, none is checked. -/
theorem checkDue_of_not_due (h : ∀ checkpoint ∈ pending, checkpoint.after ≠ done) :
    checkDue settings planned done pending c = pure (pending, c) := by
  cases pending with
  | nil => rfl
  | cons checkpoint others => rw [checkDue, if_neg (h checkpoint List.mem_cons_self)]

/-- Checking the checkpoints that are due keeps chains related. -/
theorem Simulates.checkDue (hsim : Simulates settings W Q R S)
    (htrust : settings.trustDeclared = false) (hindex : planned'.index = planned.index)
    (hrestated : Restated W pending pending') (hordered : pending.Pairwise (·.after ≤ ·.after))
    (hpending : ∀ checkpoint ∈ pending, done ≤ checkpoint.after) (hc : Chain.Related R S c c')
    (h : (Shapeline.checkDue settings planned done pending c).Yields [] (rest, d)) :
    rest <:+ pending ∧ (∀ checkpoint ∈ rest, done < checkpoint.after) ∧
      ∃ rest' d', (Shapeline.checkDue settings planned' done pending' c').Yields [] (rest', d') ∧
        Restated W rest rest' ∧ Chain.Related R S d d' := by
  induction hrestated generalizing c c' with
  | nil =>
    obtain ⟨-, heq⟩ := Reporting.yields_pure_iff.mp h
    obtain ⟨rfl, rfl⟩ := Prod.mk.inj heq
    exact ⟨List.suffix_rfl, nofun, [], c', Reporting.yields_pure_iff.mpr ⟨rfl, rfl⟩, .nil, hc⟩
  | @keep checkpoint shape others others' hW hothers ih =>
    obtain ⟨hfirst, hordered'⟩ := List.pairwise_cons.mp hordered
    obtain ⟨hbound, hbounds⟩ := List.forall_mem_cons.mp hpending
    unfold Shapeline.checkDue at h ⊢
    split at h
    · rename_i hdue
      obtain ⟨e, hreconcile, hnext⟩ := Reporting.yields_bind_nil_iff.mp h
      obtain ⟨hsubstitute, hmatches⟩ := (reconcile_yields_nil_iff htrust).mp hreconcile
      obtain ⟨hdeclared, e', hsubstitute', hmatches', he⟩ :=
        hsim.keep _ _ _ _ _ hc hW hsubstitute hmatches
      have hcarried : Chain.Related R S ⟨e.steps, checkpoint.shape⟩ ⟨e'.steps, shape⟩ :=
        ⟨he.steps, hdeclared⟩
      obtain ⟨hsuffix, hlater, rest', d', hnext', hrest, hd⟩ := ih hordered' hbounds hcarried hnext
      refine ⟨hsuffix.trans (List.suffix_cons _ _), hlater, rest', d', ?_, hrest, hd⟩
      rw [if_pos hdue, Reporting.yields_bind_nil_iff, hindex]
      exact ⟨e', (reconcile_yields_nil_iff htrust).mpr ⟨hsubstitute', hmatches'⟩, hnext'⟩
    · rename_i hnot
      obtain ⟨-, heq⟩ := Reporting.yields_pure_iff.mp h
      obtain ⟨rfl, rfl⟩ := Prod.mk.inj heq
      refine ⟨List.suffix_rfl, ?_, _, c', ?_, .keep hW hothers, hc⟩
      · refine List.forall_mem_cons.mpr ⟨by omega, fun other hother => ?_⟩
        have hle := hfirst other hother
        omega
      · rw [if_neg hnot]
        exact Reporting.yields_pure_iff.mpr ⟨rfl, rfl⟩
  | @drop checkpoint others others' hW hothers ih =>
    obtain ⟨hfirst, hordered'⟩ := List.pairwise_cons.mp hordered
    obtain ⟨hbound, hbounds⟩ := List.forall_mem_cons.mp hpending
    unfold Shapeline.checkDue at h
    split at h
    · rename_i hdue
      obtain ⟨e, hreconcile, hnext⟩ := Reporting.yields_bind_nil_iff.mp h
      obtain ⟨hsubstitute, hmatches⟩ := (reconcile_yields_nil_iff htrust).mp hreconcile
      obtain ⟨hdeclared, he⟩ := hsim.drop _ _ _ _ hc hW hsubstitute hmatches
      have hcarried : Chain.Related R S ⟨e.steps, checkpoint.shape⟩ c' := ⟨he.steps, hdeclared⟩
      obtain ⟨hsuffix, hlater, hrun⟩ := ih hordered' hbounds hcarried hnext
      exact ⟨hsuffix.trans (List.suffix_cons _ _), hlater, hrun⟩
    · rename_i hnot
      obtain ⟨-, heq⟩ := Reporting.yields_pure_iff.mp h
      obtain ⟨rfl, rfl⟩ := Prod.mk.inj heq
      have hlater : ∀ other ∈ others, done < other.after := fun other hother => by
        have hle := hfirst other hother
        omega
      refine ⟨List.suffix_rfl, List.forall_mem_cons.mpr ⟨by omega, hlater⟩, others', c', ?_,
        .drop hW hothers, hc⟩
      rw [checkDue_of_not_due fun other hother => ?_]
      · exact Reporting.yields_pure_iff.mpr ⟨rfl, rfl⟩
      · obtain ⟨found, hfound, hafter⟩ := hothers.exists_mem hother
        have hlt := hlater found hfound
        omega

/-- Applying the steps of a node keeps chains related. -/
theorem Simulates.runSteps {position : Nat} {steps : List PlannedStep} {complete : Bool}
    (hsim : Simulates settings W Q R S) (htrust : settings.trustDeclared = false)
    (hindex : planned'.index = planned.index) (hsteps : ∀ step ∈ steps, Q step)
    (hrestated : Restated W pending pending') (hordered : pending.Pairwise (·.after ≤ ·.after))
    (hpending : ∀ checkpoint ∈ pending, position < checkpoint.after) (hc : Chain.Related R S c c')
    (h : (Shapeline.runSteps settings planned position steps pending c).Yields [] (d, complete)) :
    complete = true ∧ ∃ d',
      (Shapeline.runSteps settings planned' position steps pending' c').Yields [] (d', true) ∧
        Chain.Related R S d d' := by
  induction steps generalizing position pending pending' c c' with
  | nil =>
    obtain ⟨-, heq⟩ := Reporting.yields_pure_iff.mp h
    obtain ⟨rfl, rfl⟩ := Prod.mk.inj heq
    exact ⟨rfl, c', Reporting.yields_pure_iff.mpr ⟨rfl, rfl⟩, hc⟩
  | cons step rest ih =>
    obtain ⟨hstep, hrest⟩ := List.forall_mem_cons.mp hsteps
    rw [Shapeline.runSteps] at h ⊢
    cases happly : applyStep settings planned.index position step c.shape with
    | ok applied =>
      rw [happly] at h
      obtain ⟨⟨others, e⟩, hcheck, hrun⟩ := Reporting.yields_bind_nil_iff.mp h
      obtain ⟨applied', happly', hS, hR⟩ := hsim.apply _ _ _ _ _ _ hstep hc.shape happly
      have hextended : Chain.Related R S ⟨c.steps ++ [applied], applied.output⟩
          ⟨c'.steps ++ [applied'], applied'.output⟩ :=
        ⟨List.rel_append hc.steps (.cons hS .nil), hR⟩
      obtain ⟨hsuffix, hlater, others', e', hcheck', hothers, he⟩ :=
        hsim.checkDue htrust hindex hrestated hordered hpending hextended hcheck
      obtain ⟨hcomplete, d', hrun', hd⟩ :=
        ih hrest hothers (hordered.sublist hsuffix.sublist) hlater he hrun
      refine ⟨hcomplete, d', ?_, hd⟩
      rw [hindex, happly']
      exact Reporting.yields_bind_nil_iff.mpr ⟨(others', e'), hcheck', hrun'⟩
    | error failure =>
      rw [happly] at h
      cases failure with
      | problem diagnostic =>
        obtain ⟨_, hrecord, -⟩ := Reporting.yields_bind_nil_iff.mp h
        cases Reporting.yields_record_iff.mp hrecord
      | _ => cases (Reporting.yields_ofOutcome_iff.mp h).2

/-- A node is made without diagnostics if all steps are applied, and the chain of steps comes to an
end, without diagnostics. -/
theorem inferNode_yields_nil_iff {made : Option GraphNode} :
    (Shapeline.inferNode settings planned input).Yields [] made ↔ ∃ pending c d n,
      (Shapeline.checkDue settings planned 0 planned.checkpoints ⟨[], input⟩).Yields []
        (pending, c) ∧
      (Shapeline.runSteps settings planned 0 planned.steps pending c).Yields [] (d, true) ∧
      planned.Ends settings input d [] n ∧ made = some n := by
  unfold Shapeline.inferNode
  simp only [Reporting.yields_bind_nil_iff]
  constructor
  · rintro ⟨⟨pending, c⟩, hcheck, ⟨d, complete⟩, hrun, hend⟩
    obtain ⟨found, failed, -, hnil, hcomplete⟩ := evolves_of_runSteps
      .refl (fun _ h => h)
      (evolves_of_checkDue .refl (fun _ h => h) hcheck).2 hrun
    obtain rfl : complete = true := hcomplete.mpr (List.append_eq_nil_iff.mp hnil.symm).2
    rw [if_pos rfl] at hend
    refine ⟨pending, c, d, ?_⟩
    cases hdeclared : planned.declared with
    | none =>
      rw [hdeclared] at hend
      obtain ⟨-, rfl⟩ := Reporting.yields_pure_iff.mp hend
      exact ⟨_, hcheck, hrun, .undeclared hdeclared, rfl⟩
    | some declared =>
      rw [hdeclared] at hend
      obtain ⟨e, hreconcile, hpure⟩ := Reporting.yields_bind_nil_iff.mp hend
      obtain ⟨-, rfl⟩ := Reporting.yields_pure_iff.mp hpure
      exact ⟨_, hcheck, hrun, .declared hdeclared hreconcile, rfl⟩
  · rintro ⟨pending, c, d, n, hcheck, hrun, hend, rfl⟩
    refine ⟨(pending, c), hcheck, (d, true), hrun, ?_⟩
    rw [if_pos rfl]
    cases hend with
    | undeclared hdeclared =>
      rw [hdeclared]
      exact Reporting.yields_pure_iff.mpr ⟨rfl, rfl⟩
    | declared hdeclared hreconcile =>
      rw [hdeclared]
      exact Reporting.yields_bind_nil_iff.mpr
        ⟨_, hreconcile, Reporting.yields_pure_iff.mpr ⟨rfl, rfl⟩⟩
    | failed hne => exact absurd rfl hne

/-- The ends of related chains make related nodes. -/
theorem Simulates.ends {n : GraphNode} (hsim : Simulates settings W Q R S)
    (htrust : settings.trustDeclared = false) (hrestated : planned.Restated W planned')
    (hinput : R input input') (hc : Chain.Related R S c c')
    (h : planned.Ends settings input c [] n) :
    ∃ n', planned'.Ends settings input' c' [] n' ∧ GraphNode.Related R S n n' := by
  have hrelated {e e' : Chain} {output output' : Shape} (he : Chain.Related R S e e')
      (houtput : R output output') :
      GraphNode.Related R S (planned.finish input e output) (planned'.finish input' e' output') :=
    ⟨hrestated.index, hrestated.label, hrestated.submodel, he.steps, hinput, he.shape, houtput⟩
  have hW := hrestated.declared
  cases h with
  | undeclared hnone =>
    cases hnone' : planned'.declared with
    | none => exact ⟨_, .undeclared hnone', hrelated hc hc.shape⟩
    | some declared' =>
      rw [hnone, hnone'] at hW
      exact absurd hW (hsim.undeclared declared')
  | @declared shape _ d hsome hreconcile =>
    obtain ⟨hsubstitute, hmatches⟩ := (reconcile_yields_nil_iff htrust).mp hreconcile
    cases hdeclared' : planned'.declared with
    | none =>
      rw [hsome, hdeclared'] at hW
      obtain ⟨hshape, hd⟩ := hsim.drop _ _ _ _ hc hW hsubstitute hmatches
      exact ⟨_, .undeclared hdeclared', hrelated hd hshape⟩
    | some declared' =>
      rw [hsome, hdeclared'] at hW
      obtain ⟨hshape, d', hsubstitute', hmatches', hd⟩ :=
        hsim.keep _ _ _ _ _ hc hW hsubstitute hmatches
      exact ⟨_, .declared hdeclared'
        ((reconcile_yields_nil_iff htrust).mpr ⟨hsubstitute', hmatches'⟩), hrelated hd hshape⟩
  | failed hne => exact absurd rfl hne

/-- A node that is made without diagnostics is matched by a related one of the other plan. -/
theorem Simulates.inferNode {made : Option GraphNode} (hsim : Simulates settings W Q R S)
    (htrust : settings.trustDeclared = false) (hrestated : planned.Restated W planned')
    (hsteps : ∀ step ∈ planned.steps, Q step)
    (hordered : planned.checkpoints.Pairwise (·.after ≤ ·.after)) (hinput : R input input')
    (h : (Shapeline.inferNode settings planned input).Yields [] made) :
    ∃ n n', made = some n ∧ (Shapeline.inferNode settings planned' input').Yields [] (some n') ∧
      GraphNode.Related R S n n' := by
  obtain ⟨pending, c, d, n, hcheck, hrun, hend, rfl⟩ := inferNode_yields_nil_iff.mp h
  have hstart : Chain.Related R S ⟨[], input⟩ ⟨[], input'⟩ := ⟨.nil, hinput⟩
  obtain ⟨hsuffix, hlater, pending', c', hcheck', hpending, hc⟩ :=
    hsim.checkDue htrust hrestated.index hrestated.checkpoints hordered (fun _ _ => Nat.zero_le _)
      hstart hcheck
  obtain ⟨-, d', hrun', hd⟩ := hsim.runSteps htrust hrestated.index hsteps hpending
    (hordered.sublist hsuffix.sublist) hlater hc hrun
  obtain ⟨n', hend', hn⟩ := hsim.ends htrust hrestated hinput hd hend
  rw [← hrestated.steps] at hrun'
  exact ⟨n, n', rfl, inferNode_yields_nil_iff.mpr
    ⟨pending', c', d', n', hcheck', hrun', hend', rfl⟩, hn⟩

/-- Nodes that are made without diagnostics are matched by related ones of the other plan. -/
theorem Simulates.inferNodes {plan plan' : List PlannedNode} {nodes : List GraphNode}
    {complete : Bool} (hsim : Simulates settings W Q R S) (htrust : settings.trustDeclared = false)
    (hplan : List.Forall₂ (PlannedNode.Restated W) plan plan')
    (hsteps : ∀ planned ∈ plan, ∀ step ∈ planned.steps, Q step)
    (hordered : ∀ planned ∈ plan, planned.checkpoints.Pairwise (·.after ≤ ·.after))
    (hinput : R input input')
    (h : (Shapeline.inferNodes settings plan input).Yields [] (nodes, complete)) :
    complete = true ∧ ∃ nodes',
      (Shapeline.inferNodes settings plan' input').Yields [] (nodes', true) ∧
        List.Forall₂ (GraphNode.Related R S) nodes nodes' := by
  induction hplan generalizing input input' nodes with
  | nil =>
    obtain ⟨-, rfl, rfl⟩ := yields_inferNodes_nil_iff.mp h
    exact ⟨rfl, [], yields_inferNodes_nil_iff.mpr ⟨rfl, rfl, rfl⟩, .nil⟩
  | cons hrestated _ ih =>
    obtain ⟨hstep, hsteps'⟩ := List.forall_mem_cons.mp hsteps
    obtain ⟨hfirst, hordered'⟩ := List.forall_mem_cons.mp hordered
    rcases yields_inferNodes_cons_iff.mp h with
      ⟨hmade, -, -⟩ | ⟨first, second, made, others, hmade, hothers, hnil, rfl⟩
    · obtain ⟨_, _, hnone, -⟩ := hsim.inferNode htrust hrestated hstep hfirst hinput hmade
      cases hnone
    · obtain ⟨rfl, rfl⟩ := List.append_eq_nil_iff.mp hnil.symm
      obtain ⟨n, n', hsome, hn', hn⟩ := hsim.inferNode htrust hrestated hstep hfirst hinput hmade
      obtain rfl := Option.some.inj hsome
      obtain ⟨hcomplete, others', hothers', hrelated⟩ := ih hsteps' hordered' hn.output hothers
      exact ⟨hcomplete, n' :: others', yields_inferNodes_cons_iff.mpr
        (Or.inr ⟨[], [], n', others', hn', hothers', rfl, rfl⟩), .cons hn hrelated⟩

end Shapeline
