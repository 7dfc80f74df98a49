import Shapeline.Proofs.Inference.Run

/-!
# Invariants of inference

Along every run of inference the recorded steps are valid and only the first extent of the shape
that is carried on mentions placeholders. If declared shapes are not trusted and nothing is
recorded against them, the shapes before and after every boundary between steps agree as well.
-/

namespace Shapeline

variable {settings : InferenceSettings} {planned : PlannedNode} {σ π : Substitution}
  {c d start : Chain} {a b input : Shape} {steps steps' : List LayerStep}
  {errors : List Diagnostic} {n : GraphNode}

/-- The parameters and the declared shapes of a planned node can be written by an author. -/
structure PlannedNode.Written (planned : PlannedNode) : Prop where
  /-- The parameters of the steps can be written. -/
  steps : ∀ step ∈ planned.steps, step.params.Written
  /-- The shapes that an inline model declares can be written. -/
  checkpoints : ∀ checkpoint ∈ planned.checkpoints, checkpoint.shape.Written
  /-- The shape that the node declares can be written. -/
  declared : ∀ shape, planned.declared = some shape → shape.Written

/-- The parameters and the declared shapes of a planned node have symbols of the author only. -/
structure PlannedNode.Authored (planned : PlannedNode) : Prop where
  /-- The parameters of the steps have symbols of the author only. -/
  steps : ∀ step ∈ planned.steps, ∀ name t, step.params.term? name .absent = some t → t.Authored
  /-- The shapes that an inline model declares have symbols of the author only. -/
  checkpoints : ∀ checkpoint ∈ planned.checkpoints, checkpoint.shape.Authored
  /-- The shape that the node declares has symbols of the author only. -/
  declared : ∀ shape, planned.declared = some shape → shape.Authored

/-- What can be written has symbols of the author only. -/
theorem PlannedNode.Written.authored (h : planned.Written) : planned.Authored where
  steps step hstep name t ht := (h.steps step hstep name t ht).authored
  checkpoints checkpoint hcheckpoint := (h.checkpoints checkpoint hcheckpoint).authored
  declared shape hshape := (h.declared shape hshape).authored

/-- A chain on its way through inference. -/
structure Chain.Valid (σ : Substitution) (c : Chain) : Prop where
  /-- The steps are valid. -/
  steps : ∀ s ∈ c.steps, ∃ layer, s.Valid σ layer
  /-- The shape occurs in inference. -/
  shape : c.shape.Flowing

/-- A node that inference has made. -/
structure GraphNode.Valid (σ : Substitution) (n : GraphNode) : Prop where
  /-- The steps are valid. -/
  steps : ∀ s ∈ n.steps, ∃ layer, s.Valid σ layer
  /-- The inferred shape occurs in inference. -/
  inferred : n.inferred.Flowing
  /-- The output occurs in inference. -/
  output : n.output.Flowing

/-- The names of placeholders are marked. -/
theorem marked_mintPlaceholder (layer : LayerType) (node : Int) (step : Nat) (parameter : String) :
    Marked (mintPlaceholder layer node step parameter).name := by
  simp only [Marked, mintPlaceholder, placeholderName, String.toList_append, List.mem_append]
  exact Or.inl (Or.inl (Or.inl (Or.inr (Or.inl (by decide)))))

/-- Replacing placeholders keeps a chain valid. -/
theorem Chain.Valid.substitute (hc : c.Valid σ) (hσ : σ.Written) (hπ : π.Fills)
    (h : c.substitute π = .ok d) : d.Valid σ := by
  obtain ⟨hshape, hsteps⟩ := Chain.substitute_eq_ok_iff.mp h
  refine ⟨fun t ht => ?_, hc.shape.substitute hπ hshape⟩
  obtain ⟨s, hs, hst⟩ := exists_of_mem_right hsteps ht
  obtain ⟨layer, hvalid⟩ := hc.steps s hs
  exact ⟨layer, hvalid.substitute hσ hπ hst⟩

/-- The chain that a node starts with is valid. -/
theorem Chain.Valid.initial (h : input.Flowing) : Chain.Valid σ ⟨[], input⟩ := ⟨by simp, h⟩

/-- Comparing a valid chain with a shape of the author leaves a valid chain. -/
theorem Chain.Valid.reconcile {node : Int} {what : String} (hc : c.Valid σ) (hσ : σ.Written)
    (ha : a.Written) (h : (reconcile settings node c a what).Yields errors d) : d.Valid σ :=
  hc.substitute hσ (hc.shape.fills_binding ha) (reconcile_yields_iff.mp h).1

/-- Applying a step to the shape of a valid chain records a valid step. -/
theorem valid_of_applyStep {node : Int} {position : Nat} {step : PlannedStep} {s : LayerStep}
    (h : applyStep settings node position step a = .ok s) (hstep : step.params.Written)
    (ha : a.Flowing) :
    (∃ layer, s.Valid (.ofTerms settings.bindings) layer) ∧ s.input = a ∧ s.output.Flowing := by
  obtain ⟨outcome, houtcome, h⟩ := bind_eq_ok_iff.mp h
  obtain rfl := pure_eq_ok_iff.mp h
  obtain ⟨hvalid, hflow⟩ := LayerStep.valid_of_apply houtcome hstep ha
    (marked_mintPlaceholder step.layerType node position)
  exact ⟨⟨step.layerType, hvalid⟩, rfl, hflow⟩

/-- Chains stay valid along a run. -/
theorem Chain.Evolves.valid (h : start.Evolves settings planned errors c)
    (hσ : (Substitution.ofTerms settings.bindings).Written) (hplanned : planned.Written)
    (hstart : start.Valid (.ofTerms settings.bindings)) :
    c.Valid (.ofTerms settings.bindings) := by
  induction h with
  | refl => exact hstart
  | apply _ hstep happly ih =>
    obtain ⟨hvalid, _, houtput⟩ := valid_of_applyStep happly (hplanned.steps _ hstep) ih.shape
    refine ⟨fun s hs => ?_, houtput⟩
    rcases List.mem_append.mp hs with hs | hs
    · exact ih.steps s hs
    · exact List.mem_singleton.mp hs ▸ hvalid
  | check _ hcheckpoint hreconcile ih =>
    have hwritten := hplanned.checkpoints _ hcheckpoint
    exact ⟨(ih.reconcile hσ hwritten hreconcile).steps, hwritten.flowing⟩

/-- The next node starts from a shape that this one declares although a rule has failed. -/
theorem declared_of_fallbackShape (h : fallbackShape planned = some a) :
    planned.declared = some a ∨ ∃ checkpoint ∈ planned.checkpoints, checkpoint.shape = a := by
  unfold fallbackShape at h
  rcases Option.or_eq_some_iff.mp h with hdeclared | ⟨_, hlast⟩
  · exact Or.inl hdeclared
  · obtain ⟨checkpoint, hcheckpoint, hshape⟩ := Option.bind_eq_some_iff.mp hlast
    split at hshape
    · exact Or.inr ⟨checkpoint, List.mem_of_getLast? hcheckpoint, Option.some.inj hshape⟩
    · cases hshape

/-- The shape that the next node starts from after a failure can be written by an author if all
declared shapes can. -/
theorem PlannedNode.Written.fallback (hplanned : planned.Written)
    (h : fallbackShape planned = some a) : a.Written := by
  rcases declared_of_fallbackShape h with hdeclared | ⟨checkpoint, hcheckpoint, rfl⟩
  · exact hplanned.declared a hdeclared
  · exact hplanned.checkpoints checkpoint hcheckpoint

/-- The end of a valid chain is a valid node. -/
theorem PlannedNode.Ends.valid (h : planned.Ends settings input c errors n)
    (hσ : (Substitution.ofTerms settings.bindings).Written) (hplanned : planned.Written)
    (hc : c.Valid (.ofTerms settings.bindings)) : n.Valid (.ofTerms settings.bindings) := by
  cases h with
  | undeclared => exact ⟨hc.steps, hc.shape, hc.shape⟩
  | declared hshape hreconcile =>
    have hwritten := hplanned.declared _ hshape
    have hd := hc.reconcile hσ hwritten hreconcile
    exact ⟨hd.steps, hd.shape, hwritten.flowing⟩
  | failed _ houtput => exact ⟨hc.steps, hc.shape, (hplanned.fallback houtput).flowing⟩

/-- Along a run of a node only such shapes occur. -/
theorem Chain.Evolves.flowing (h : start.Evolves settings planned errors c)
    (hplanned : planned.Written) (hstart : start.shape.Flowing) : c.shape.Flowing := by
  induction h with
  | refl => exact hstart
  | apply _ hstep happly ih => exact (valid_of_applyStep happly (hplanned.steps _ hstep) ih).2.2
  | check _ hcheckpoint _ _ => exact (hplanned.checkpoints _ hcheckpoint).flowing

/-- A node that ends with such a shape has such an output. -/
theorem PlannedNode.Ends.flowing (h : planned.Ends settings input c errors n)
    (hplanned : planned.Written) (hc : c.shape.Flowing) : n.output.Flowing := by
  cases h with
  | undeclared => exact hc
  | declared hshape _ => exact (hplanned.declared _ hshape).flowing
  | failed _ houtput => exact (hplanned.fallback houtput).flowing

/-- Every node starts from such a shape. -/
theorem Infers.flowing {plan : List PlannedNode} {nodes : List GraphNode}
    (h : Infers settings plan input errors nodes) (hplan : ∀ planned ∈ plan, planned.Written)
    (hinput : input.Flowing) : ∀ n ∈ nodes, n.input.Flowing := by
  induction h with
  | nil => simp
  | cons hmade _ ih =>
    obtain ⟨hplanned, hrest⟩ := List.forall_mem_cons.mp hplan
    obtain ⟨c, _, _, hevolves, hends, _⟩ := ends_of_inferNode hmade
    have houtput := hends.flowing hplanned (hevolves.flowing hplanned hinput)
    refine List.forall_mem_cons.mpr ⟨?_, ih hrest houtput⟩
    cases hends <;> exact hinput
  | stop => simp

/-- Every step starts from a shape that agrees with the one before it, and the last shape agrees
with the output of the last step. -/
def Linked (σ : Substitution) : Shape → List LayerStep → Shape → Prop
  | start, [], last => start.AgreesUnder σ last
  | start, s :: rest, last => start.AgreesUnder σ s.input ∧ Linked σ s.output rest last

/-- A further step starts from the last shape. -/
theorem Linked.snoc {s : LayerStep} (h : Linked σ a steps s.input) :
    Linked σ a (steps ++ [s]) s.output := by
  induction steps generalizing a with
  | nil => exact ⟨h, Shape.AgreesUnder.refl σ s.output⟩
  | cons t rest ih => exact ⟨h.1, ih h.2⟩

/-- The last shape may be replaced by one that agrees with it. -/
theorem Linked.trans {last last' : Shape} (h : Linked σ a steps last)
    (hlast : last.substitute σ = .ok last') (hlow : ∀ x ∈ last'.axes, x.Lowers)
    (hb : last.AgreesUnder σ b) : Linked σ a steps b := by
  induction steps generalizing a with
  | nil => exact Shape.AgreesUnder.trans h hlast hlow hb
  | cons t rest ih => exact ⟨h.1, ih h.2⟩

/-- Shapes still agree when placeholders are replaced in all of them. -/
theorem Linked.substitute {last a' last' : Shape} (h : Linked σ a steps last) (hπ : π.Apart σ)
    (ha : a.substitute π = .ok a') (hlast : last.substitute π = .ok last')
    (hsteps : List.Forall₂ (fun s t => s.substitute π = .ok t) steps steps') :
    Linked σ a' steps' last' := by
  induction hsteps generalizing a a' with
  | nil => exact Shape.AgreesUnder.substitute h hπ ha hlast
  | cons hst _ ih =>
    obtain ⟨_, _, hinput, houtput⟩ := LayerStep.substitute_eq_ok_iff.mp hst
    exact ⟨h.1.substitute hπ ha hinput, ih h.2 houtput⟩

/-- The extents of a shape that is found to be the same as another one lower after the
substitution. -/
theorem Shape.Matches.exists_lowers (h : a.Matches σ b) (hσ : σ.Written) (ha : a.Flowing) :
    ∃ a', a.substitute σ = .ok a' ∧ ∀ x ∈ a'.axes, x.Lowers := by
  obtain ⟨axes, haxes⟩ : ∃ axes, List.Forall₂ (fun x y => x.substitute σ = .ok y) a.axes axes := by
    refine exists_forall₂ fun x hx => ?_
    obtain ⟨y, _, x', _, hx', _⟩ := exists_of_mem_left h hx
    exact ⟨x', hx'⟩
  refine ⟨⟨axes⟩, substitute_eq_ok_iff.mpr haxes, fun y hy => ?_⟩
  obtain ⟨x, hx, hxy⟩ := exists_of_mem_right haxes hy
  exact hσ.lowers_substitute (ha.axes x hx).lowers hxy

/-- The shapes of a chain still agree after a comparison that finds no difference, and the shape
agrees with the declared one. -/
theorem Linked.reconcile {node : Int} {what : String}
    (h : Linked (.ofTerms settings.bindings) input c.steps c.shape)
    (hσ : (Substitution.ofTerms settings.bindings).Written)
    (hc : c.Valid (.ofTerms settings.bindings)) (hinput : input.Written) (ha : a.Written)
    (htrust : settings.trustDeclared = false)
    (hrun : (reconcile settings node c a what).Yields [] d) :
    Linked (.ofTerms settings.bindings) input d.steps d.shape ∧
      Linked (.ofTerms settings.bindings) input d.steps a ∧
      d.shape.AgreesUnder (.ofTerms settings.bindings) a := by
  obtain ⟨hsub, found, hfound, herrors⟩ := reconcile_yields_iff.mp hrun
  have hd := hc.reconcile hσ ha hrun
  have hfills := hc.shape.fills_binding ha
  obtain ⟨hshape, hsteps⟩ := Chain.substitute_eq_ok_iff.mp hsub
  have hself : input.substitute (c.shape.binding a) = .ok input :=
    Shape.substitute_eq_self fun x hx => hfills.substitute_eq_self (hinput x hx).authored
  have hlinked := h.substitute (hfills.apart hσ) hself hshape hsteps
  have hmatches := matches_of_discrepancyErrors hfound htrust herrors.symm
  obtain ⟨shape, hsubstitute, hlow⟩ := hmatches.exists_lowers hσ hd.shape
  exact ⟨hlinked, hlinked.trans hsubstitute hlow hmatches.agreesUnder, hmatches.agreesUnder⟩

/-- Along a run that records nothing against declared shapes the shapes at every boundary agree. -/
theorem Chain.Evolves.linked (h : Chain.Evolves settings planned ⟨[], input⟩ errors c)
    (hσ : (Substitution.ofTerms settings.bindings).Written) (hplanned : planned.Written)
    (hinput : input.Written) (htrust : settings.trustDeclared = false) (herrors : errors = []) :
    Linked (.ofTerms settings.bindings) input c.steps c.shape := by
  have hstart : Chain.Valid (.ofTerms settings.bindings) ⟨[], input⟩ := .initial hinput.flowing
  induction h with
  | refl => exact Shape.AgreesUnder.refl _ input
  | apply hevolves hstep happly ih =>
    have hvalid := hevolves.valid hσ hplanned hstart
    obtain ⟨_, hsame, _⟩ := valid_of_applyStep happly (hplanned.steps _ hstep) hvalid.shape
    exact (hsame ▸ ih herrors).snoc
  | check hevolves hcheckpoint hreconcile ih =>
    obtain ⟨hfirst, hsecond⟩ := List.append_eq_nil_iff.mp herrors
    have hvalid := hevolves.valid hσ hplanned hstart
    rw [hsecond] at hreconcile
    exact ((ih hfirst).reconcile hσ hvalid hinput (hplanned.checkpoints _ hcheckpoint) htrust
      hreconcile).2.1

/-- The shapes of a node agree at every boundary between its steps and with its output. -/
structure GraphNode.Consistent (σ : Substitution) (n : GraphNode) : Prop extends
    GraphNode.Valid σ n where
  /-- The shapes at every boundary agree. -/
  linked : Linked σ n.input n.steps n.inferred
  /-- The output agrees with the inferred shape. -/
  agrees : n.inferred.AgreesUnder σ n.output

/-- A node that starts from a shape of the author and is made without diagnostics is consistent. -/
theorem consistent_of_inferNode (h : (inferNode settings planned input).Yields [] (some n))
    (hσ : (Substitution.ofTerms settings.bindings).Written) (hplanned : planned.Written)
    (hinput : input.Written) (htrust : settings.trustDeclared = false) :
    n.Consistent (.ofTerms settings.bindings) ∧ n.input = input := by
  obtain ⟨c, first, second, hevolves, hends, herrors⟩ := ends_of_inferNode h
  obtain ⟨rfl, rfl⟩ := List.append_eq_nil_iff.mp herrors.symm
  have hstart : Chain.Valid (.ofTerms settings.bindings) ⟨[], input⟩ := .initial hinput.flowing
  have hc := hevolves.valid hσ hplanned hstart
  have hlinked := hevolves.linked hσ hplanned hinput htrust rfl
  have hvalid := hends.valid hσ hplanned hc
  cases hends with
  | undeclared => exact ⟨⟨hvalid, hlinked, Shape.AgreesUnder.refl _ _⟩, rfl⟩
  | declared hshape hreconcile =>
    obtain ⟨hd, _, hagrees⟩ :=
      hlinked.reconcile hσ hc hinput (hplanned.declared _ hshape) htrust hreconcile
    exact ⟨⟨hvalid, hd, hagrees⟩, rfl⟩
  | failed hne => exact absurd rfl hne

/-- Every node starts from the output of the one before, the first from a given shape. -/
def Chained : Shape → List GraphNode → Prop
  | _, [] => True
  | input, n :: rest => n.input = input ∧ Chained n.output rest

/-- A node that is made has the number and the declared shape of the planned node and starts from
the given shape. -/
theorem made_of_inferNode (h : (inferNode settings planned input).Yields errors (some n)) :
    n.index = planned.index ∧ n.declared = planned.declared ∧ n.input = input := by
  obtain ⟨c, _, _, _, hends, _⟩ := ends_of_inferNode h
  cases hends <;> exact ⟨rfl, rfl, rfl⟩

/-- The nodes that inference makes form a chain. -/
theorem Infers.chained {plan : List PlannedNode} {nodes : List GraphNode}
    (h : Infers settings plan input errors nodes) : Chained input nodes := by
  induction h with
  | nil => trivial
  | cons hmade _ ih => exact ⟨(made_of_inferNode hmade).2.2, ih⟩
  | stop => trivial

/-- The nodes that inference makes are valid. -/
theorem Infers.valid {plan : List PlannedNode} {nodes : List GraphNode}
    (h : Infers settings plan input errors nodes)
    (hσ : (Substitution.ofTerms settings.bindings).Written)
    (hplan : ∀ planned ∈ plan, planned.Written) (hinput : input.Flowing) :
    ∀ n ∈ nodes, n.Valid (.ofTerms settings.bindings) := by
  induction h with
  | nil => simp
  | cons hmade _ ih =>
    obtain ⟨c, _, _, hevolves, hends, _⟩ := ends_of_inferNode hmade
    obtain ⟨hplanned, hrest⟩ := List.forall_mem_cons.mp hplan
    have hc := hevolves.valid hσ hplanned (.initial hinput)
    have hvalid := hends.valid hσ hplanned hc
    intro n hn
    rcases List.mem_cons.mp hn with rfl | hn
    · exact hvalid
    · exact ih hrest hvalid.output n hn
  | stop => simp

/-- The nodes that inference makes without diagnostics are consistent, as long as no output mentions
a placeholder. -/
theorem Infers.consistent {plan : List PlannedNode} {nodes : List GraphNode}
    (h : Infers settings plan input errors nodes) (herrors : errors = [])
    (hσ : (Substitution.ofTerms settings.bindings).Written)
    (hplan : ∀ planned ∈ plan, planned.Written) (hinput : input.Written)
    (htrust : settings.trustDeclared = false)
    (houtputs : ∀ n ∈ nodes, ∀ name ∈ n.output.axes.flatMap Term.symbols, ¬ Marked name) :
    ∀ n ∈ nodes, n.Consistent (.ofTerms settings.bindings) := by
  induction h with
  | nil => simp
  | cons hmade _ ih =>
    obtain ⟨rfl, rfl⟩ := List.append_eq_nil_iff.mp herrors
    obtain ⟨hplanned, hrest⟩ := List.forall_mem_cons.mp hplan
    obtain ⟨houtput, hothers⟩ := List.forall_mem_cons.mp houtputs
    obtain ⟨hconsistent, _⟩ := consistent_of_inferNode hmade hσ hplanned hinput htrust
    intro n hn
    rcases List.mem_cons.mp hn with rfl | hn
    · exact hconsistent
    · refine ih rfl hrest (fun x hx => ?_) hothers n hn
      have hflow := hconsistent.output.axes x hx
      have hnames : ∀ name ∈ x.symbols, ¬ Marked name := fun name hname =>
        houtput name (List.mem_flatMap.mpr ⟨x, hx, hname⟩)
      exact ⟨hflow.distinguished.authored hnames, hflow.lowers⟩
  | stop => simp

end Shapeline
