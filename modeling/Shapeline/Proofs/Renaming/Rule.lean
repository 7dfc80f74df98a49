import Shapeline.Proofs.Parameters
import Shapeline.Proofs.Renaming.Substitution
import Shapeline.Rule

/-!
# Rules on renamed shapes

Rules look at extents through the operations on terms only, and at parameters by the names of the
parameters, which are no symbols. A rule on a shape and parameters with renamed symbols therefore
yields the renamed outcome, as long as the placeholders that it mints keep their names.
-/

namespace Shapeline

variable {f : String → String} (π : Equiv.Perm String) {σ : Substitution}

namespace Shape

/-- A shape with its symbols renamed. -/
def rename (f : String → String) (s : Shape) : Shape := ⟨s.axes.map (Term.rename f)⟩

variable {s t : Shape} {name : String}

/-- The renamed shape has as many axes. -/
@[simp] theorem rank_rename : (s.rename f).rank = s.rank := List.length_map _

/-- The symbols of a renamed shape are the new names. -/
theorem mem_symbols_rename : name ∈ (s.rename f).symbols ↔ ∃ old ∈ s.symbols, f old = name := by
  simp only [mem_symbols, rename, List.mem_map, exists_exists_and_eq_and, Term.mem_symbols_rename]
  exact ⟨fun ⟨x, hx, old, hold, h⟩ => ⟨old, ⟨x, hx, hold⟩, h⟩,
    fun ⟨old, ⟨x, hx, hold⟩, h⟩ => ⟨x, hx, old, hold, h⟩⟩

/-- Only the new names of the symbols of a shape matter. -/
theorem rename_congr {g : String → String} (h : ∀ name ∈ s.symbols, f name = g name) :
    s.rename f = s.rename g :=
  congrArg Shape.mk (List.map_congr_left fun x hx =>
    Term.rename_congr fun name hname => h name (mem_symbols.mpr ⟨x, hx, hname⟩))

/-- The product of renamed axes is the renamed product. -/
theorem product_rename : (s.rename f).product = s.product.rename f := by
  obtain ⟨axes⟩ := s
  cases axes with
  | nil => rfl
  | cons first rest =>
    have hfold : (rest.map (Term.rename f)).foldl (Term.op .mul) (first.rename f) =
        (rest.foldl (Term.op .mul) first).rename f := by
      induction rest generalizing first with
      | nil => rfl
      | cons axis rest ih => exact ih (.op .mul first axis)
    exact congrArg (fun axis => Shape.mk [axis]) hfold

/-- The renamed substitution takes a renamed shape to the renamed result. -/
theorem mirrors_substitute :
    Mirrors (rename π) (s.substitute σ) ((s.rename π).substitute (σ.rename π)) :=
  (Mirrors.of_mapM (fun _ => Term.mirrors_substitute π) s.axes).of_bind fun axes =>
    .of_pure (Shape.mk axes)

/-- A renamed shape is simplified to the renamed result. -/
theorem mirrors_simplify : Mirrors (rename π) s.simplify (s.rename π).simplify :=
  (Mirrors.of_mapM (fun _ => Term.mirrors_simplify π) s.axes).of_bind fun axes =>
    .of_pure (Shape.mk axes)

/-- Renamed extents differ at the same positions. -/
theorem mirrors_mismatchesFrom (position : Nat) (as bs : List Term) :
    Mirrors id (mismatchesFrom σ position as bs) (mismatchesFrom (σ.rename π) position
      (as.map (Term.rename π)) (bs.map (Term.rename π))) := by
  induction as generalizing position bs with
  | nil => exact .of_pure []
  | cons a as ih =>
    cases bs with
    | nil => exact .of_pure []
    | cons b bs =>
      refine (Term.mirrors_substitute π).of_bind fun a' => ?_
      refine (Term.mirrors_substitute π).of_bind fun b' => ?_
      refine (Term.mirrors_equivalent π).of_bind fun same => ?_
      exact (ih (position + 1) bs).of_bind fun rest => .of_pure _

/-- Renamed shapes differ at the same positions. -/
theorem mirrors_mismatches :
    Mirrors id (s.mismatches σ t) ((s.rename π).mismatches (σ.rename π) (t.rename π)) :=
  mirrors_mismatchesFrom π 0 s.axes t.axes

/-- What axes stand for is renamed with them. -/
theorem foldl_unifyAxis_rename (axes : List (Term × Term)) (bindings : Dictionary Term) :
    (axes.map (Prod.map (Term.rename π) (Term.rename π))).foldl unifyAxis
        (bindings.rename π (Term.rename π)) =
      (axes.foldl unifyAxis bindings).rename π (Term.rename π) := by
  induction axes generalizing bindings with
  | nil => rfl
  | cons axis rest ih =>
    have hstep : unifyAxis (bindings.rename π (Term.rename π))
        (axis.map (Term.rename π) (Term.rename π)) =
          (unifyAxis bindings axis).rename π (Term.rename π) := by
      obtain ⟨inferred, want⟩ := axis
      cases inferred with
      | hole p => exact (Dictionary.insertNew_rename π want).symm
      | _ => rfl
    rw [List.map_cons, List.foldl_cons, List.foldl_cons, hstep]
    exact ih _

/-- What the placeholders of a shape stand for is renamed with the shapes. -/
theorem unify_rename : (s.rename π).unify (t.rename π) = (s.unify t).rename π (Term.rename π) := by
  unfold unify
  rw [rank_rename, rank_rename]
  split
  · change ((s.axes.map (Term.rename π)).zip (t.axes.map (Term.rename π))).foldl _ _ = _
    rw [List.zip_map]
    exact foldl_unifyAxis_rename π _ .empty
  · rfl

end Shape

/-- Only the new names of the symbols of a value matter. -/
theorem Value.rename_congr {g : String → String} {v : Value}
    (h : ∀ t, v.toTerm? = some t → ∀ name ∈ t.symbols, f name = g name) :
    v.rename f = v.rename g := by
  cases v with
  | dim t => exact congrArg dim (Term.rename_congr (h t rfl))
  | _ => rfl

/-- A value with its symbols renamed to themselves is the value itself. -/
@[simp] theorem Value.rename_id {v : Value} : v.rename id = v := by
  cases v with
  | dim t => exact congrArg dim Term.rename_id
  | _ => rfl

/-- A term of a renamed value is the renamed term. -/
theorem Value.mirrors_toTerm {v : Value} :
    Mirrors (Term.rename f) v.toTerm (v.rename f).toTerm := by
  cases v <;> rfl

namespace Parameters

/-- Parameters with the symbols of their values renamed. -/
def rename (f : String → String) (p : Parameters) : Parameters := p.map fun _ v => v.rename f

variable {p q : Parameters} {name : String} {default : Value}

/-- A parameter has the renamed value. -/
@[simp] theorem get?_rename : (p.rename f).get? name = (p.get? name).map (Value.rename f) :=
  Dictionary.get?_map

/-- A parameter that has a value has the renamed value. -/
@[simp] theorem given?_rename :
    (p.rename f).given? name = (p.given? name).map (Value.rename f) := by
  unfold given?
  rw [get?_rename]
  cases p.get? name with
  | none => rfl
  | some v => cases v <;> rfl

/-- A parameter that is a term is the renamed term. -/
@[simp] theorem term?_rename :
    (p.rename f).term? name .absent = (p.term? name .absent).map (Term.rename f) := by
  unfold term?
  rw [get?_rename]
  cases p.get? name with
  | none => rfl
  | some v => exact v.toTerm?_rename f

/-- Only the new names of the symbols in the terms of parameters matter. -/
theorem rename_congr {g : String → String}
    (h : ∀ name t, p.term? name .absent = some t → ∀ s ∈ t.symbols, f s = g s) :
    p.rename f = p.rename g := by
  refine Dictionary.eq_of_entries_eq (List.map_congr_left fun entry hentry => ?_)
  have hget := Dictionary.mem_entries_iff.mp hentry
  exact congrArg (Prod.mk entry.1)
    (Value.rename_congr fun t ht => h entry.1 t (term?_absent_iff.mpr ⟨_, hget, ht⟩))

/-- Parameters with their symbols renamed to themselves are the parameters themselves. -/
@[simp] theorem rename_id : p.rename id = p := by
  refine Dictionary.eq_of_entries_eq ?_
  change p.entries.map (fun entry => (entry.1, entry.2.rename id)) = p.entries
  simp

/-- Setting a parameter sets the renamed value. -/
theorem insert_rename (v : Value) :
    rename f (p.insert name v) = (p.rename f).insert name (v.rename f) :=
  Dictionary.insert_rename (Equiv.refl _) v

/-- Parameters that are set in order are set to the renamed values. -/
theorem insertAll_rename (entries : List (String × Value)) :
    rename f (p.insertAll entries) =
      (p.rename f).insertAll (entries.map fun (name, v) => (name, v.rename f)) := by
  induction entries generalizing p with
  | nil => rfl
  | cons entry rest ih =>
    change rename f ((p.insert entry.1 entry.2).insertAll rest) = _
    rw [ih, insert_rename]
    rfl

/-- Parameters that take precedence are renamed with the others. -/
theorem merged_rename : (p.merged q).rename f = (p.rename f).merged (q.rename f) :=
  insertAll_rename _

/-- A parameter is read as the renamed dimension. -/
theorem mirrors_dimension (hdefault : default.rename f = default) :
    Mirrors (Option.map (Term.rename f)) (p.dimension name default)
      ((p.rename f).dimension name default) := by
  have hvalue : ((p.rename f).get? name).getD default = ((p.get? name).getD default).rename f := by
    rw [get?_rename]
    cases p.get? name with
    | none => exact hdefault.symm
    | some v => rfl
  unfold dimension
  rw [hvalue]
  cases (p.get? name).getD default with
  | absent => exact .of_pure none
  | _ => exact Value.mirrors_toTerm.of_bind fun t => .of_pure (some t)

/-- The renamed substitution takes renamed parameters to the renamed results. -/
theorem mirrors_substitute :
    Mirrors (rename π) (p.substitute σ) ((p.rename π).substitute (σ.rename π)) := by
  refine (Mirrors.of_mapM (u := fun entry : String × Value => (entry.1, entry.2.rename π))
    (f := fun entry : String × Value => (entry.1, entry.2.rename π)) (fun entry => ?_)
    p.entries).of_bind fun entries => ?_
  · obtain ⟨name, v⟩ := entry
    cases v with
    | dim t =>
      have hvalue : Mirrors (Value.rename π) (do return Value.dim (← t.substitute σ))
          (do return Value.dim (← (t.rename π).substitute (σ.rename π))) :=
        (Term.mirrors_substitute π).of_bind fun t => .of_pure (Value.dim t)
      exact hvalue.of_bind fun v => .of_pure (name, v)
    | _ => exact .of_pure _
  · have himage : rename π (.ofList entries) =
        .ofList (entries.map fun (name, v) => (name, v.rename π)) := insertAll_rename entries
    exact himage ▸ .of_pure _

end Parameters

/-- The outcome of a rule with all symbols renamed. -/
def RuleOutcome.rename (f : String → String) (o : RuleOutcome) : RuleOutcome :=
  ⟨o.shape.rename f, o.derived.rename f⟩

variable {layer : String} {params derived : Parameters} {mint : String → Placeholder}
  {shape : Shape} {name : String}

/-- Renamed input channels are compared with the renamed ones, or derived. -/
theorem mirrors_checkInput {actual : Term} :
    Mirrors (Parameters.rename π) (checkInput layer params name actual σ)
      (checkInput layer (params.rename π) name (actual.rename π) (σ.rename π)) := by
  unfold checkInput
  rw [Parameters.given?_rename]
  cases params.given? name with
  | none => exact .of_pure _
  | some expected =>
    refine Value.mirrors_toTerm.of_bind fun t => ?_
    refine (Term.mirrors_substitute π).of_bind fun t' => ?_
    refine (Term.mirrors_substitute π).of_bind fun actual' => ?_
    refine (Term.mirrors_equivalent π).of_bind fun same => ?_
    exact .of_ite (.of_pure Dictionary.empty) .of_throw

/-- Renamed output channels are the renamed ones, or the same placeholder. -/
theorem mirrors_resolveOutput (hmint : (mint name).rename π = mint name) :
    Mirrors (Prod.map (Term.rename π) (Parameters.rename π))
      (resolveOutput params name mint derived)
      (resolveOutput (params.rename π) name mint (derived.rename π)) := by
  unfold resolveOutput
  rw [Parameters.given?_rename]
  cases params.given? name with
  | none =>
    have hhole : (Term.hole (mint name)).rename π = .hole (mint name) := congrArg Term.hole hmint
    have hvalue : (Value.dim (.hole (mint name))).rename π = .dim (.hole (mint name)) :=
      congrArg Value.dim hhole
    have himage : Prod.map (Term.rename π) (Parameters.rename π)
          (Term.hole (mint name), derived.insert name (.dim (.hole (mint name)))) =
        (.hole (mint name), (derived.rename π).insert name (.dim (.hole (mint name)))) := by
      rw [Prod.map, hhole, Parameters.insert_rename, hvalue]
    exact himage ▸ .of_pure _
  | some v => exact Value.mirrors_toTerm.of_bind fun t => .of_pure (t, derived)

/-- A renamed stride passes if the stride does. -/
theorem mirrors_checkStride :
    Mirrors (Term.rename π) (checkStride layer params σ)
      (checkStride layer (params.rename π) (σ.rename π)) := by
  refine (Parameters.mirrors_dimension rfl).of_bind fun found => ?_
  cases found with
  | none => exact .of_throw
  | some step =>
    refine (Term.mirrors_substitute π).of_bind fun bound => ?_
    refine (Term.mirrors_isConcrete π).of_bind fun concrete => ?_
    refine .of_ite ?_ (.of_pure step)
    refine (Term.mirrors_concreteValue π).of_bind fun value => ?_
    exact .of_ite .of_throw (.of_pure step)

/-- A renamed kernel fits a renamed extent if the kernel fits the extent. -/
theorem mirrors_checkKernel {position : Nat} {extent kernel : Term} :
    Mirrors id (checkKernel layer position extent kernel σ)
      (checkKernel layer position (extent.rename π) (kernel.rename π) (σ.rename π)) := by
  refine (Term.mirrors_substitute π).of_bind fun boundExtent => ?_
  refine (Term.mirrors_substitute π).of_bind fun boundKernel => ?_
  refine (Term.mirrors_isConcrete π).of_bind fun concrete => .of_ite ?_ (.of_pure ())
  refine (Term.mirrors_isConcrete π).of_bind fun concrete => .of_ite ?_ (.of_pure ())
  refine (Term.mirrors_concreteValue π).of_bind fun x => ?_
  refine (Term.mirrors_concreteValue π).of_bind fun y => ?_
  exact .of_ite .of_throw (.of_pure ())

/-- A renamed kernel fits renamed extents if the kernel fits the extents. -/
theorem mirrors_checkKernels {kernel : Term} (position : Nat) (extents : List Term) :
    Mirrors id (checkKernels layer kernel σ position extents)
      (checkKernels layer (kernel.rename π) (σ.rename π) position
        (extents.map (Term.rename π))) := by
  induction extents generalizing position with
  | nil => exact .of_pure ()
  | cons extent rest ih => exact (mirrors_checkKernel π).of_bind fun _ => ih (position + 1)

/-- Renamed extents are divided by the renamed stride. -/
theorem mirrors_downsample {spatial : List Term} {channels : Term} :
    Mirrors (Shape.rename π) (downsample layer spatial params channels σ)
      (downsample layer (spatial.map (Term.rename π)) (params.rename π) (channels.rename π)
        (σ.rename π)) := by
  have hdivide (step : Term) : Mirrors (List.map (Term.rename π))
      (spatial.mapM fun extent => extent.divide step)
      ((spatial.map (Term.rename π)).mapM fun extent => extent.divide (step.rename π)) := by
    refine Mirrors.of_mapM (fun extent => ?_) spatial
    exact Term.mirrors_divide π
  refine (mirrors_checkStride π).of_bind fun step => ?_
  refine (Parameters.mirrors_dimension rfl).of_bind fun kernel => ?_
  cases kernel with
  | none => exact (hdivide step).of_bind fun axes => .of_pure (Shape.mk (channels :: axes))
  | some kernel =>
    refine (mirrors_checkKernels π 1 spatial).of_bind fun _ => ?_
    exact (hdivide step).of_bind fun axes => .of_pure (Shape.mk (channels :: axes))

/-- A renamed shape is taken apart like the shape. -/
theorem mirrors_splitFirst :
    Mirrors (Prod.map (Term.rename π) (List.map (Term.rename π))) (splitFirst shape)
      (splitFirst (shape.rename π)) := by
  obtain ⟨axes⟩ := shape
  cases axes with
  | nil => exact .of_throw
  | cons first rest => exact .of_pure (first, rest)

/-- A renamed value selects the same axis. -/
theorem mirrors_resolveAxis {v : Value} {rank : Int} :
    Mirrors id (resolveAxis v rank) (resolveAxis (v.rename π) rank) := by
  cases v with
  | dim t =>
    refine (Term.mirrors_isConcrete π).of_bind fun concrete => .of_ite ?_ (.refl _)
    exact (Term.mirrors_concreteValue π).of_bind fun number => .refl _
  | _ => exact .refl _

namespace Rule

variable {r : Rule}

/-- A rule transforms a renamed shape into the renamed outcome. -/
theorem mirrors_transform (hmint : ∀ name, (mint name).rename π = mint name) :
    Mirrors (RuleOutcome.rename π) (r.transform layer shape params mint σ)
      (r.transform layer (shape.rename π) (params.rename π) mint (σ.rename π)) := by
  unfold transform
  cases r.family with
  | convolution =>
    refine (mirrors_splitFirst π).of_bind fun parts => ?_
    refine (mirrors_checkInput π).of_bind fun derived => ?_
    refine (mirrors_resolveOutput π (hmint _)).of_bind fun output => ?_
    exact (mirrors_downsample π).of_bind fun result => .of_pure (RuleOutcome.mk result output.2)
  | pooling =>
    refine (mirrors_splitFirst π).of_bind fun parts => ?_
    exact (mirrors_downsample π).of_bind fun result => .of_pure (RuleOutcome.mk result .empty)
  | dense =>
    refine (mirrors_splitFirst π).of_bind fun parts => ?_
    refine (mirrors_checkInput π).of_bind fun derived => ?_
    exact (mirrors_resolveOutput π (hmint _)).of_bind fun output =>
      .of_pure (RuleOutcome.mk ⟨[output.1]⟩ output.2)
  | pointwise => exact .of_pure (RuleOutcome.mk shape .empty)
  | flatten =>
    dsimp only
    rw [Shape.product_rename]
    exact .of_pure (RuleOutcome.mk shape.product .empty)
  | softmax =>
    have hvalue : ((params.rename π).get? axisParameter).getD (.int (-1)) =
        ((params.get? axisParameter).getD (.int (-1))).rename π := by
      rw [Parameters.get?_rename]
      cases params.get? axisParameter <;> rfl
    dsimp only
    rw [hvalue, Shape.rank_rename]
    refine (mirrors_resolveAxis π).of_bind fun found => ?_
    cases found with
    | none => exact .of_pure (RuleOutcome.mk shape .empty)
    | some position =>
      exact .of_pure
        (RuleOutcome.mk shape (Dictionary.empty.insert axisParameter (.int position)))

/-- A rule applied to a renamed shape yields the renamed outcome. -/
theorem mirrors_apply (hmint : ∀ name, (mint name).rename π = mint name) :
    Mirrors (RuleOutcome.rename π) (r.apply layer shape params mint σ)
      (r.apply layer (shape.rename π) (params.rename π) mint (σ.rename π)) := by
  unfold apply
  rw [Shape.rank_rename]
  refine .of_ite ?_ .of_throw
  refine (mirrors_transform π hmint).of_bind fun outcome => ?_
  exact (Shape.mirrors_simplify π).of_bind fun s => .of_pure (RuleOutcome.mk s outcome.derived)

end Rule

end Shapeline
