import Shapeline.Proofs.Parameters

/-!
# What rules compute

Once all parameters of a rule are known, the shape that it yields is given by a formula. A recorded
step computes its output: wherever the formula has a value, the simplified output has the same.
Substituting in a step does not change that.
-/

namespace Shapeline

/-- A family divides extents by a stride. -/
def RuleFamily.IsStrided (f : RuleFamily) : Prop := f = convolution ∨ f = pooling

namespace Rule

/-- The extents that a rule yields when its parameters are known, before they are simplified. -/
def formula (r : Rule) (p : Parameters) (axes : List Term) : Option (List Term) :=
  match r.family with
  | .convolution =>
    match axes with
    | [] => none
    | _ :: spatial => do
      let channels ← p.term? outputChannels .absent
      let step ← p.term? stride (.int 1)
      pure (channels :: spatial.map (.op .div · step))
  | .pooling =>
    match axes with
    | [] => none
    | first :: spatial => do
      let step ← p.term? stride (.int 1)
      pure (first :: spatial.map (.op .div · step))
  | .dense => do
    let features ← p.term? outputFeatures .absent
    pure [features]
  | .flatten => pure (Shape.product ⟨axes⟩).axes
  | .pointwise | .softmax => pure axes

end Rule

/-- Wherever a term has a value, another term has the same. -/
def Term.KeptBy (t u : Term) : Prop := ∀ ρ x, t.valueAt ρ = some x → u.valueAt ρ = some x

/-- The output of a step is what its layer type makes of its input. -/
structure LayerStep.Computes (layer : LayerType) (s : LayerStep) : Prop where
  /-- The step applies the layer type. -/
  layerType : s.layerType = some layer
  /-- The output keeps the values of the rule's formula. -/
  formula : ∃ raw, layer.rule.formula s.params s.input.axes = some raw ∧
    List.Forall₂ Term.KeptBy raw s.output.axes
  /-- Where an extent that was divided has a value, the stride is not zero. -/
  divisor : layer.rule.family.IsStrided → ∀ step, s.params.term? stride (.int 1) = some step →
    ∀ u ∈ s.output.axes.tail, ∀ ρ y z, step.valueAt ρ = some y → u.valueAt ρ = some z → y ≠ 0

namespace Rule

variable {r : Rule} {p : Parameters} {axes raw : List Term} {x : Term}

/-- An extent after the first is divided by the stride if the rule has one, and taken over
otherwise. -/
theorem mem_tail_formula (h : r.formula p axes = some raw) (hx : x ∈ raw.tail) :
    (r.family.IsStrided ∧ ∃ step, p.term? stride (.int 1) = some step ∧
        ∃ y ∈ axes.tail, x = .op .div y step) ∨
      ¬ r.family.IsStrided ∧ x ∈ axes.tail := by
  obtain ⟨family, rank⟩ := r
  cases family with
  | convolution =>
    cases axes with
    | nil => cases h
    | cons first spatial =>
      obtain ⟨channels, _, h⟩ := Option.bind_eq_some_iff.mp h
      obtain ⟨step, hstep, h⟩ := Option.bind_eq_some_iff.mp h
      obtain rfl := Option.some.inj h
      obtain ⟨y, hy, rfl⟩ := List.mem_map.mp hx
      exact Or.inl ⟨Or.inl rfl, step, hstep, y, hy, rfl⟩
  | pooling =>
    cases axes with
    | nil => cases h
    | cons first spatial =>
      obtain ⟨step, hstep, h⟩ := Option.bind_eq_some_iff.mp h
      obtain rfl := Option.some.inj h
      obtain ⟨y, hy, rfl⟩ := List.mem_map.mp hx
      exact Or.inl ⟨Or.inr rfl, step, hstep, y, hy, rfl⟩
  | dense =>
    obtain ⟨features, _, h⟩ := Option.bind_eq_some_iff.mp h
    obtain rfl := Option.some.inj h
    cases hx
  | flatten =>
    obtain rfl := Option.some.inj h
    cases axes <;> cases hx
  | pointwise =>
    obtain rfl := Option.some.inj h
    exact Or.inr ⟨by simp [RuleFamily.IsStrided], hx⟩
  | softmax =>
    obtain rfl := Option.some.inj h
    exact Or.inr ⟨by simp [RuleFamily.IsStrided], hx⟩

/-- The first extent is a parameter, the first extent of the input or a product of its extents. So
it has a property that these have and that products keep. -/
theorem head_formula {P : Term → Prop} (h : r.formula p axes = some raw) (hx : raw.head? = some x)
    (hp : ∀ name t, p.term? name .absent = some t → P t) (haxes : ∀ y ∈ axes, P y)
    (hone : P (.const 1)) (hmul : ∀ y z, P y → P z → P (.op .mul y z)) : P x := by
  obtain ⟨family, rank⟩ := r
  cases family with
  | convolution =>
    cases axes with
    | nil => cases h
    | cons first spatial =>
      obtain ⟨channels, hchannels, h⟩ := Option.bind_eq_some_iff.mp h
      obtain ⟨step, _, h⟩ := Option.bind_eq_some_iff.mp h
      obtain rfl := Option.some.inj h
      obtain rfl := Option.some.inj hx
      exact hp outputChannels channels hchannels
  | pooling =>
    cases axes with
    | nil => cases h
    | cons first spatial =>
      obtain ⟨step, _, h⟩ := Option.bind_eq_some_iff.mp h
      obtain rfl := Option.some.inj h
      obtain rfl := Option.some.inj hx
      exact haxes first List.mem_cons_self
  | dense =>
    obtain ⟨features, hfeatures, h⟩ := Option.bind_eq_some_iff.mp h
    obtain rfl := Option.some.inj h
    obtain rfl := Option.some.inj hx
    exact hp outputFeatures features hfeatures
  | flatten =>
    obtain rfl := Option.some.inj h
    cases axes with
    | nil =>
      obtain rfl := Option.some.inj hx
      exact hone
    | cons first rest =>
      obtain rfl := Option.some.inj hx
      obtain ⟨hfirst, hrest⟩ := List.forall_mem_cons.mp haxes
      exact List.foldlRecOn rest _ hfirst fun product hproduct y hy => hmul _ _ hproduct (hrest y hy)
  | pointwise =>
    obtain rfl := Option.some.inj h
    exact haxes x (List.mem_of_head? hx)
  | softmax =>
    obtain rfl := Option.some.inj h
    exact haxes x (List.mem_of_head? hx)

end Rule

namespace Term

/-- A term has, everywhere, the value that another term has under a substitution. -/
def Follows (π : Substitution) (t u : Term) : Prop :=
  ∀ ρ : Instantiation, u.valueAt ρ = t.valueAt (ρ.under π)

variable {π : Substitution}

/-- A term after a substitution has the values under it. -/
theorem follows_of_substitute {t u : Term} (h : t.substitute π = .ok u) : Follows π t u :=
  fun _ => valueAt_of_substitute h

/-- An operator follows its operands. -/
theorem Follows.op {o : Operator} {l r l' r' : Term} (hl : Follows π l l') (hr : Follows π r r') :
    Follows π (op o l r) (op o l' r') := by
  intro ρ
  rw [valueAt, valueAt, hl ρ, hr ρ]

/-- A product follows its factors. -/
theorem Follows.product {first first' : Term} {rest rest' : List Term}
    (hfirst : Follows π first first') (hrest : List.Forall₂ (Follows π) rest rest') :
    Follows π (rest.foldl (.op .mul) first) (rest'.foldl (.op .mul) first') := by
  induction hrest generalizing first first' with
  | nil => exact hfirst
  | cons hx _ ih => exact ih (hfirst.op hx)

end Term

variable {π : Substitution} {p q : Parameters}

/-- Quotients follow the dividends and the divisor. -/
theorem follows_quotients {step step' : Term} {axes axes' : List Term}
    (hstep : step.Follows π step') (haxes : List.Forall₂ (Term.Follows π) axes axes') :
    List.Forall₂ (Term.Follows π) (axes.map (.op .div · step)) (axes'.map (.op .div · step')) := by
  rw [List.forall₂_map_left_iff, List.forall₂_map_right_iff]
  exact haxes.imp fun _ _ hx => hx.op hstep

/-- A parameter that is a term is still one after a substitution. -/
theorem Parameters.follows_term? (hp : p.substitute π = .ok q) {name : String} {default : Value}
    (hdefault : ∀ t, default.toTerm? = some t → t.substitute π = .ok t) {t : Term}
    (ht : p.term? name default = some t) :
    ∃ u, q.term? name default = some u ∧ t.Follows π u := by
  rcases term?_substitute hp hdefault name with ⟨hnone, _⟩ | ⟨t', u, ht', hu, hq⟩
  · cases hnone.symm.trans ht
  · obtain rfl := Option.some.inj (ht'.symm.trans ht)
    exact ⟨u, hq, Term.follows_of_substitute hu⟩

/-- The formula after a substitution follows the one before. -/
theorem Rule.formula_substitute {r : Rule} {axes axes' raw : List Term}
    (hp : p.substitute π = .ok q)
    (haxes : List.Forall₂ (fun x y => x.substitute π = .ok y) axes axes')
    (h : r.formula p axes = some raw) :
    ∃ raw', r.formula q axes' = some raw' ∧ List.Forall₂ (Term.Follows π) raw raw' := by
  have hfollows := haxes.imp fun _ _ => Term.follows_of_substitute
  obtain ⟨family, rank⟩ := r
  cases family with
  | convolution =>
    cases hfollows with
    | nil => cases h
    | cons hfirst hspatial =>
      obtain ⟨channels, hchannels, h⟩ := Option.bind_eq_some_iff.mp h
      obtain ⟨step, hstep, h⟩ := Option.bind_eq_some_iff.mp h
      obtain rfl := Option.some.inj h
      obtain ⟨channels', hchannels', hc⟩ :=
        Parameters.follows_term? hp Parameters.substitute_absent hchannels
      obtain ⟨step', hstep', hs⟩ :=
        Parameters.follows_term? hp (Parameters.substitute_int 1) hstep
      exact ⟨_, by simp [formula, hchannels', hstep'],
        List.Forall₂.cons hc (follows_quotients hs hspatial)⟩
  | pooling =>
    cases hfollows with
    | nil => cases h
    | cons hfirst hspatial =>
      obtain ⟨step, hstep, h⟩ := Option.bind_eq_some_iff.mp h
      obtain rfl := Option.some.inj h
      obtain ⟨step', hstep', hs⟩ :=
        Parameters.follows_term? hp (Parameters.substitute_int 1) hstep
      exact ⟨_, by simp [formula, hstep'],
        List.Forall₂.cons hfirst (follows_quotients hs hspatial)⟩
  | dense =>
    obtain ⟨features, hfeatures, h⟩ := Option.bind_eq_some_iff.mp h
    obtain rfl := Option.some.inj h
    obtain ⟨features', hfeatures', hf⟩ :=
      Parameters.follows_term? hp Parameters.substitute_absent hfeatures
    exact ⟨_, by simp [formula, hfeatures'], List.Forall₂.cons hf List.Forall₂.nil⟩
  | flatten =>
    obtain rfl := Option.some.inj h
    refine ⟨_, rfl, ?_⟩
    cases hfollows with
    | nil => exact List.Forall₂.cons (fun _ => rfl) List.Forall₂.nil
    | cons hfirst hrest => exact List.Forall₂.cons (hfirst.product hrest) List.Forall₂.nil
  | pointwise =>
    obtain rfl := Option.some.inj h
    exact ⟨_, rfl, hfollows⟩
  | softmax =>
    obtain rfl := Option.some.inj h
    exact ⟨_, rfl, hfollows⟩

namespace LayerStep

variable {layer : LayerType} {s s' : LayerStep}

/-- A substitution in a step is one in its parameters and its shapes. -/
theorem substitute_eq_ok_iff :
    s.substitute π = .ok s' ↔
      s'.layerType = s.layerType ∧ s.params.substitute π = .ok s'.params ∧
        s.input.substitute π = .ok s'.input ∧ s.output.substitute π = .ok s'.output := by
  simp only [substitute, bind_eq_ok_iff, pure_eq_ok_iff]
  constructor
  · rintro ⟨params, hparams, input, hinput, output, houtput, rfl⟩
    exact ⟨rfl, hparams, hinput, houtput⟩
  · rintro ⟨hlayer, hparams, hinput, houtput⟩
    exact ⟨_, hparams, _, hinput, _, houtput, by rw [← hlayer]⟩

/-- A step still computes its output after a substitution. -/
theorem Computes.substitute (hs : s.Computes layer) (h : s.substitute π = .ok s') :
    s'.Computes layer := by
  obtain ⟨hlayer, hparams, hinput, houtput⟩ := substitute_eq_ok_iff.mp h
  have houtput := Shape.substitute_eq_ok_iff.mp houtput
  obtain ⟨raw, hraw, hkept⟩ := hs.formula
  refine ⟨hlayer.trans hs.layerType, ?_, fun hstrided step' hstep' u' hu' ρ y z hy hz => ?_⟩
  · obtain ⟨raw', hraw', hfollows⟩ :=
      Rule.formula_substitute hparams (Shape.substitute_eq_ok_iff.mp hinput) hraw
    refine ⟨raw', hraw', forall₂_transport ?_ hkept hfollows houtput⟩
    intro t u t' u' hkept htt' huu' ρ x hx
    rw [htt' ρ] at hx
    rw [Term.valueAt_of_substitute huu']
    exact hkept _ x hx
  · have htail := List.forall₂_drop 1 houtput
    rw [List.drop_one, List.drop_one] at htail
    obtain ⟨u, hu, huu'⟩ := exists_of_mem_right htail hu'
    rcases Parameters.term?_substitute hparams (Parameters.substitute_int 1) stride with
      ⟨_, hnone⟩ | ⟨step, step'', hstep, hsub, hstep''⟩
    · cases hnone.symm.trans hstep'
    · obtain rfl := Option.some.inj (hstep''.symm.trans hstep')
      rw [Term.valueAt_of_substitute hsub] at hy
      rw [Term.valueAt_of_substitute huu'] at hz
      exact hs.divisor hstrided step hstep u hu _ y z hy hz

end LayerStep

end Shapeline
