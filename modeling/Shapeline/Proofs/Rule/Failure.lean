import Shapeline.Proofs.Parameters

/-!
# How rules fail

A rule raises diagnostics of few kinds: an operation on terms has no value, a shape has the wrong
number of axes, a kernel is too large, or the channels or features of the input differ from a
parameter. None of them can be taken for a diagnostic about a declared shape. A rule whose
parameters are dimensions fails in no other way than by raising a diagnostic.
-/

namespace Shapeline

variable {α β : Type} {P Q : Diagnostic → Prop} {excuse : Prop}

/-- An operation that fails does so with a single diagnostic that has a property or, where that is
excused, with something that is no diagnostic. -/
def Fails (excuse : Prop) (P : Diagnostic → Prop) (x : Outcome α) : Prop :=
  ∀ failure, x = .error failure →
    (∃ d, failure = .problem d ∧ P d) ∨ excuse ∧ ∀ d, failure ≠ .problem d

namespace Fails

/-- A success does not fail. -/
theorem of_pure (a : α) : Fails excuse P (pure a : Outcome α) := fun _ h => by cases h

/-- A failure with a diagnostic. -/
theorem of_problem {d : Diagnostic} (h : P d) :
    Fails excuse P (throw (.problem d) : Outcome α) := by
  intro failure hfailure
  cases hfailure
  exact Or.inl ⟨d, rfl, h⟩

/-- A failure without a diagnostic. -/
theorem of_excuse {failure : Failure} (h : excuse) (hfailure : ∀ d, failure ≠ .problem d) :
    Fails excuse P (throw failure : Outcome α) := by
  intro other hother
  cases hother
  exact Or.inr ⟨h, hfailure⟩

/-- A sequence of operations fails as its parts do. -/
theorem of_bind {x : Outcome α} {f : α → Outcome β} (hx : Fails excuse P x)
    (hf : ∀ a, x = .ok a → Fails excuse P (f a)) : Fails excuse P (x >>= f) := by
  intro failure h
  cases hx' : x with
  | error other =>
    rw [hx'] at h
    exact hx failure (hx'.trans (congrArg _ (Except.error.inj h)))
  | ok a =>
    rw [hx'] at h
    exact hf a hx' failure h

/-- A choice fails as its branches do. -/
theorem of_ite {c : Prop} [Decidable c] {x y : Outcome α} (hx : c → Fails excuse P x)
    (hy : ¬ c → Fails excuse P y) : Fails excuse P (if c then x else y) := by
  split
  · exact hx ‹_›
  · exact hy ‹_›

/-- An operation on every item of a list fails as it does on the items. -/
theorem of_mapM {f : α → Outcome β} {items : List α} (h : ∀ item, Fails excuse P (f item)) :
    Fails excuse P (items.mapM f) := by
  induction items with
  | nil => exact of_pure []
  | cons item rest ih =>
    rw [List.mapM_cons]
    exact of_bind (h item) fun b _ => of_bind ih fun bs _ => of_pure (b :: bs)

/-- The diagnostics have every property that follows from one that they have. -/
theorem imp {x : Outcome α} (h : Fails excuse P x) (hPQ : ∀ d, P d → Q d) :
    Fails excuse Q x := fun failure hfailure =>
  (h failure hfailure).imp_left fun ⟨d, hd, hP⟩ => ⟨d, hd, hPQ d hP⟩

/-- What is added to a diagnostic may change its property. -/
theorem mapProblem {x : Outcome α} {f : Diagnostic → Diagnostic} (h : Fails excuse P x)
    (hf : ∀ d, P d → Q (f d)) : Fails excuse Q (x.mapError (Failure.mapProblem f)) := by
  intro failure hfailure
  cases x with
  | ok a => cases hfailure
  | error other =>
    cases hfailure
    rcases h other rfl with ⟨d, rfl, hd⟩ | ⟨hexcuse, hne⟩
    · exact Or.inl ⟨f d, rfl, hf d hd⟩
    · refine Or.inr ⟨hexcuse, fun d hd => ?_⟩
      cases other with
      | problem other => exact hne other rfl
      | _ => cases hd

/-- Without an excuse there is a diagnostic. -/
theorem exists_problem {x : Outcome α} (h : Fails False P x) {failure : Failure}
    (hfailure : x = .error failure) : ∃ d, failure = .problem d ∧ P d :=
  (h failure hfailure).resolve_right fun hexcuse => hexcuse.1

/-- A diagnostic that is raised has the property. -/
theorem of_error {x : Outcome α} (h : Fails excuse P x) {d : Diagnostic}
    (hd : x = .error (.problem d)) : P d := by
  rcases h _ hd with ⟨other, hother, hP⟩ | ⟨_, hne⟩
  · exact Failure.problem.inj hother ▸ hP
  · exact absurd rfl (hne d)

end Fails

/-- A diagnostic says that a divisor is zero, and knows nothing about where that is. -/
def Diagnostic.IsDivision (d : Diagnostic) : Prop := ∃ quotient, d = .divisionByZero quotient

namespace Term

variable {t left right : Term} {o : Operator} {σ : Substitution} {names : List String}

/-- Normal forms fail on divisions only. -/
theorem fails_fraction : Fails excuse Diagnostic.IsDivision (t.fraction names) := by
  induction t with
  | op o left right ihl ihr =>
    refine ihl.of_bind fun l _ => ihr.of_bind fun r _ => ?_
    cases o with
    | div => exact .of_ite (fun _ => .of_problem ⟨_, rfl⟩) fun _ => .of_pure _
    | _ => exact .of_pure _
  | _ => exact .of_pure _

/-- Divisors are checked by their normal forms. -/
theorem fails_isZero : Fails excuse Diagnostic.IsDivision t.isZero :=
  fails_fraction.of_bind fun _ _ => .of_pure _

/-- A quotient fails if the divisor is zero. -/
theorem fails_divide : Fails excuse Diagnostic.IsDivision (left.divide right) :=
  fails_isZero.of_bind fun _ _ =>
    .of_ite (fun _ => .of_problem ⟨_, rfl⟩) fun _ => .of_pure _

/-- An operator fails as a quotient only. -/
theorem fails_apply : Fails excuse Diagnostic.IsDivision (apply o left right) := by
  cases o with
  | div => exact fails_divide
  | _ => exact .of_pure _

/-- A substitution by terms fails on divisions only. -/
theorem fails_substitute (hσ : ∀ name r, σ name = some r → ∃ t, r = .ok t) :
    Fails excuse Diagnostic.IsDivision (t.substitute σ) := by
  have hleaf (name : String) (stays : Term) :
      Fails excuse Diagnostic.IsDivision ((σ name).getD (pure stays)) := by
    cases hmap : σ name with
    | none => exact .of_pure stays
    | some r =>
      obtain ⟨u, rfl⟩ := hσ name r hmap
      exact .of_pure u
  induction t with
  | const n => exact .of_pure _
  | sym name => exact hleaf name _
  | hole p => exact hleaf p.name _
  | op o left right ihl ihr =>
    rw [substitute]
    exact .of_ite (fun _ => ihl.of_bind fun _ _ => ihr.of_bind fun _ _ => fails_apply)
      fun _ => .of_pure _

/-- A comparison fails on divisions only. -/
theorem fails_equivalent : Fails excuse Diagnostic.IsDivision (left.equivalent right) :=
  .of_ite (fun _ => .of_pure _)
    fun _ => fails_fraction.of_bind fun _ _ => fails_fraction.of_bind fun _ _ => .of_pure _

/-- Whether a term is constant is told by its normal form. -/
theorem fails_isConcrete : Fails excuse Diagnostic.IsDivision t.isConcrete :=
  fails_fraction.of_bind fun _ _ => .of_pure _

/-- The number that a term denotes can be told if the term is constant. -/
theorem fails_concreteValue (h : t.isConcrete = .ok true) :
    Fails excuse P t.concreteValue := by
  obtain ⟨x, hx⟩ := exists_concreteValue h
  exact hx ▸ .of_pure x

/-- Folding two simplified operands fails on divisions only. -/
theorem fails_combine : Fails excuse Diagnostic.IsDivision (combine o left right) := by
  unfold combine
  split
  · rename_i a b _ _
    refine Fails.of_bind ?_ fun folded _ => ?_
    · cases o with
      | div => exact .of_ite (fun _ => .of_problem ⟨_, rfl⟩) fun _ => .of_pure _
      | _ => exact .of_pure _
    · cases folded <;> exact .of_pure _
  · have hchoice {c : Prop} [Decidable c] {u : Term} {x : Outcome Term}
        (hx : Fails excuse Diagnostic.IsDivision x) :
        Fails excuse Diagnostic.IsDivision (if c then pure u else x) :=
      .of_ite (fun _ => .of_pure u) fun _ => hx
    cases o with
    | add => exact hchoice (hchoice (.of_pure _))
    | sub => exact hchoice (.of_pure _)
    | mul => exact hchoice (hchoice (hchoice (.of_pure _)))
    | div => exact hchoice fails_divide

/-- Simplification fails on divisions only. -/
theorem fails_simplify : Fails excuse Diagnostic.IsDivision t.simplify := by
  induction t with
  | op o left right ihl ihr => exact ihl.of_bind fun _ _ => ihr.of_bind fun _ _ => fails_combine
  | _ => exact .of_pure _

end Term

/-- The causes that rules have for complaints. -/
def Cause.OfRule : Cause → Prop
  | arithmetic _ => True
  | arity _ _ => True
  | kernelExtent _ _ _ => True
  | mismatch what _ _ _ => ∃ name : String, what = s!"'{name}'"
  | _ => False

/-- A diagnostic has a cause that rules have. -/
def Diagnostic.OfRule (d : Diagnostic) : Prop := d.cause.OfRule

/-- A rule raises a diagnostic: the cause is one that rules have, and the node is left to the
caller. -/
structure Diagnostic.RaisedByRule (d : Diagnostic) : Prop where
  /-- The cause is one that rules have. -/
  ofRule : d.OfRule
  /-- The node is not known. -/
  node : d.node = none

/-- Rules complain about divisions by zero. -/
theorem Fails.raisedByRule {x : Outcome α} (h : Fails excuse Diagnostic.IsDivision x) :
    Fails excuse Diagnostic.RaisedByRule x := by
  refine h.imp fun d hd => ?_
  obtain ⟨quotient, rfl⟩ := hd
  exact ⟨trivial, rfl⟩

/-- The parameters that rules read as dimensions. -/
def dimensionParameters : List String :=
  [inputChannels, outputChannels, inputFeatures, outputFeatures, kernelSize, stride]

/-- Whatever rules read as a dimension is one. -/
def Parameters.Readable (p : Parameters) : Prop :=
  ∀ name ∈ dimensionParameters, ∀ v, p.get? name = some v → v.isDimension = true

variable {σ : Substitution} {layer name : String} {p derived : Parameters} {default v : Value}
  {mint : String → Placeholder} {kernel extent t : Term} {spatial : List Term} {shape : Shape}

/-- A parameter that is given is there. -/
theorem Parameters.get?_of_given? (h : p.given? name = some v) : p.get? name = some v := by
  unfold given? at h
  split at h
  · cases h
  · exact h

/-- A parameter that is found to have no value is absent. -/
theorem Parameters.absent_of_dimension (h : p.dimension name default = .ok none) :
    (p.get? name).getD default = .absent := by
  unfold dimension at h
  split at h
  · assumption
  · obtain ⟨t, _, h⟩ := bind_eq_ok_iff.mp h
    cases pure_eq_ok_iff.mp h

/-- That a value is no dimension is not a diagnostic. -/
theorem fails_toTerm (hv : ¬ excuse → v.isDimension = true) : Fails excuse P v.toTerm := by
  unfold Value.toTerm
  split
  · exact .of_pure _
  · rename_i hnone
    refine .of_excuse (Classical.not_not.mp fun hexcuse => ?_) fun _ h => by cases h
    have hv := hv hexcuse
    rw [Value.isDimension, hnone] at hv
    cases hv

/-- That a parameter is no dimension is not a diagnostic. -/
theorem fails_dimension (hp : ¬ excuse → p.Readable) (hname : name ∈ dimensionParameters)
    (hdefault : default ≠ .absent → default.isDimension = true) :
    Fails excuse P (p.dimension name default) := by
  unfold Parameters.dimension
  split
  · exact .of_pure _
  · rename_i hne
    refine Fails.of_bind (fails_toTerm fun hexcuse => ?_) fun _ _ => .of_pure _
    cases hget : p.get? name with
    | none => exact hdefault fun h => hne (by rw [hget, h]; rfl)
    | some v => exact hp hexcuse name hname v hget

/-- The output parameter is taken as it is. -/
theorem fails_resolveOutput (hp : ¬ excuse → p.Readable) (hname : name ∈ dimensionParameters) :
    Fails excuse P (resolveOutput p name mint derived) := by
  unfold resolveOutput
  split
  · exact .of_pure _
  · rename_i v hv
    refine Fails.of_bind (fails_toTerm fun hexcuse => ?_) fun _ _ => .of_pure _
    exact hp hexcuse name hname v (Parameters.get?_of_given? hv)

/-- An axis is made out from the number that a term denotes. -/
theorem fails_resolveAxis {rank : Int} :
    Fails excuse Diagnostic.IsDivision (resolveAxis v rank) := by
  unfold resolveAxis
  cases v with
  | dim term =>
    refine Term.fails_isConcrete.of_bind fun concrete hconcrete => ?_
    refine .of_ite (fun htrue => ?_) fun _ => .of_pure _
    refine (Term.fails_concreteValue (htrue ▸ hconcrete)).of_bind fun number _ => ?_
    refine (Fails.of_pure _).of_bind fun selected _ => ?_
    cases selected <;> exact .of_pure _
  | _ => exact .of_pure _

section

variable (hσ : ∀ name r, σ name = some r → ∃ t, r = .ok t) (hp : ¬ excuse → p.Readable)

include hσ

/-- A kernel is compared with an extent. -/
theorem fails_checkKernel {position : Nat} :
    Fails excuse Diagnostic.RaisedByRule (checkKernel layer position extent kernel σ) := by
  refine (Term.fails_substitute hσ).raisedByRule.of_bind fun boundExtent _ =>
    (Term.fails_substitute hσ).raisedByRule.of_bind fun boundKernel _ => ?_
  refine Term.fails_isConcrete.raisedByRule.of_bind fun _ hextent => ?_
  refine .of_ite (fun hextent' => ?_) fun _ => .of_pure _
  refine Term.fails_isConcrete.raisedByRule.of_bind fun _ hkernel => ?_
  refine .of_ite (fun hkernel' => ?_) fun _ => .of_pure _
  refine (Term.fails_concreteValue (hextent' ▸ hextent)).of_bind fun _ _ => ?_
  refine (Term.fails_concreteValue (hkernel' ▸ hkernel)).of_bind fun _ _ => ?_
  exact .of_ite (fun _ => .of_problem ⟨trivial, rfl⟩) fun _ => .of_pure _

/-- A kernel is compared with every extent. -/
theorem fails_checkKernels {position : Nat} :
    Fails excuse Diagnostic.RaisedByRule (checkKernels layer kernel σ position spatial) := by
  induction spatial generalizing position with
  | nil => exact .of_pure _
  | cons extent rest ih => exact (fails_checkKernel hσ).of_bind fun _ _ => ih

include hp

/-- The input is compared with a parameter that is named in quotes. -/
theorem fails_checkInput (hname : name ∈ dimensionParameters) :
    Fails excuse Diagnostic.RaisedByRule (checkInput layer p name t σ) := by
  unfold checkInput
  split
  · exact .of_pure _
  · rename_i v hv
    have hdimension (hexcuse : ¬ excuse) : v.isDimension = true :=
      hp hexcuse name hname v (Parameters.get?_of_given? hv)
    refine (fails_toTerm hdimension).of_bind fun expected _ =>
      (Term.fails_substitute hσ).raisedByRule.of_bind fun _ _ =>
        (Term.fails_substitute hσ).raisedByRule.of_bind fun _ _ => ?_
    refine Term.fails_equivalent.raisedByRule.of_bind fun same _ => ?_
    exact .of_ite (fun _ => .of_pure _) fun _ => .of_problem ⟨⟨name, rfl⟩, rfl⟩

/-- The stride is checked for zero. -/
theorem fails_checkStride : Fails excuse Diagnostic.RaisedByRule (checkStride layer p σ) := by
  have hmem : stride ∈ dimensionParameters := by decide
  refine (fails_dimension hp hmem fun _ => rfl).of_bind fun found hfound => ?_
  cases found with
  | none =>
    refine .of_excuse (Classical.not_not.mp fun hexcuse => ?_) fun _ h => by cases h
    have habsent := Parameters.absent_of_dimension hfound
    cases hget : p.get? stride with
    | none => simp [hget] at habsent
    | some v =>
      have hv := hp hexcuse stride hmem v hget
      simp only [hget, Option.getD_some] at habsent
      simp [habsent, Value.isDimension, Value.toTerm?] at hv
  | some step =>
    refine (Term.fails_substitute hσ).raisedByRule.of_bind fun bound _ => ?_
    refine Term.fails_isConcrete.raisedByRule.of_bind fun concrete hconcrete => ?_
    refine .of_ite (fun htrue => ?_) fun _ => .of_pure _
    refine (Term.fails_concreteValue (htrue ▸ hconcrete)).of_bind fun value _ => ?_
    exact .of_ite (fun _ => .of_problem ⟨trivial, rfl⟩) fun _ => .of_pure _

/-- Extents are divided after stride and kernel have been checked. -/
theorem fails_downsample : Fails excuse Diagnostic.RaisedByRule (downsample layer spatial p t σ) := by
  have hdivide (step : Term) : Fails excuse Diagnostic.RaisedByRule (spatial.mapM (·.divide step)) :=
    .of_mapM fun _ => Term.fails_divide.raisedByRule
  refine (fails_checkStride hσ hp).of_bind fun step _ =>
    (fails_dimension hp (by decide) fun h => absurd rfl h).of_bind fun found _ => ?_
  cases found with
  | none => exact (hdivide step).of_bind fun _ _ => .of_pure _
  | some kernel =>
    exact (fails_checkKernels hσ).of_bind fun _ _ => (hdivide step).of_bind fun _ _ => .of_pure _

/-- A rule that fails on a shape complains about one of these things, if its parameters are
dimensions and the shape has an axis. -/
theorem Rule.fails_transform {r : Rule}
    (hfirst : ¬ excuse → r.family ∈ [.convolution, .pooling, .dense] → shape.axes ≠ []) :
    Fails excuse Diagnostic.RaisedByRule (r.transform layer shape p mint σ) := by
  have hsplit (hfamily : r.family ∈ [.convolution, .pooling, .dense]) :
      Fails excuse Diagnostic.RaisedByRule (splitFirst shape) := by
    unfold splitFirst
    split
    · rename_i hnil
      refine .of_excuse (Classical.not_not.mp fun hexcuse => ?_) fun _ h => by cases h
      exact hfirst hexcuse hfamily hnil
    · exact .of_pure _
  obtain ⟨family, rank⟩ := r
  cases family with
  | convolution =>
    exact (hsplit (by simp)).of_bind fun _ _ =>
      (fails_checkInput hσ hp (by decide)).of_bind fun _ _ =>
        (fails_resolveOutput hp (by decide)).of_bind fun _ _ =>
          (fails_downsample hσ hp).of_bind fun _ _ => .of_pure _
  | pooling =>
    exact (hsplit (by simp)).of_bind fun _ _ =>
      (fails_downsample hσ hp).of_bind fun _ _ => .of_pure _
  | dense =>
    exact (hsplit (by simp)).of_bind fun _ _ =>
      (fails_checkInput hσ hp (by decide)).of_bind fun _ _ =>
        (fails_resolveOutput hp (by decide)).of_bind fun _ _ => .of_pure _
  | pointwise => exact .of_pure _
  | flatten => exact .of_pure _
  | softmax =>
    refine fails_resolveAxis.raisedByRule.of_bind fun selected _ => ?_
    cases selected <;> exact .of_pure _

/-- A rule that fails complains about one of these things, if its parameters are dimensions and no
accepted number of axes is zero by mistake. -/
theorem Rule.fails_apply {r : Rule} (hrank : ¬ excuse → 0 ≤ r.spatialRank) :
    Fails excuse Diagnostic.RaisedByRule (r.apply layer shape p mint σ) := by
  refine .of_ite (fun haccepts => ?_) fun _ => .of_problem ⟨trivial, rfl⟩
  have hfirst (hexcuse : ¬ excuse) (hfamily : r.family ∈ [.convolution, .pooling, .dense]) :
      shape.axes ≠ [] := by
    rintro hnil
    have hrank := hrank hexcuse
    obtain ⟨family, rank⟩ := r
    have hzero : shape.rank = 0 := by rw [Shape.rank, hnil]; rfl
    rw [hzero] at haccepts
    cases family <;> simp [acceptsRank] at haccepts hfamily
    all_goals
      dsimp only at hrank
      omega
  refine (r.fails_transform hσ hp hfirst).of_bind fun outcome _ => Fails.of_bind ?_ fun _ _ =>
    .of_pure _
  exact (Fails.of_mapM fun _ => Term.fails_simplify.raisedByRule).of_bind fun _ _ => .of_pure _

end

/-- A rule complains about nothing else, whatever its parameters are. -/
theorem Rule.fails_apply_excused (r : Rule) (hσ : ∀ name r, σ name = some r → ∃ t, r = .ok t) :
    Fails True Diagnostic.RaisedByRule (r.apply layer shape p mint σ) :=
  r.fails_apply hσ (fun h => absurd trivial h) fun h => absurd trivial h

end Shapeline
