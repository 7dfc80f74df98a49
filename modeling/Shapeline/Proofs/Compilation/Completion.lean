import Shapeline.Compilation
import Shapeline.Proofs.Inference.Completion
import Shapeline.Proofs.Inference.Simulation

/-!
# Plans that are inferred to the end

The standard library reads a parameter as a dimension only if the kind of the parameter makes it
one, so no rule of a plan can fail without a diagnostic, and all of these are recorded. What remains
is the comparison with declared shapes.
-/

namespace Shapeline

variable {model : ResolvedModel} {plan : List PlannedNode} {definition : Definition}

/-- Among the kinds of integers and dimensions one accepts none but these. -/
theorem ValueKind.mem_of_accepts {kind given : ValueKind} (h : kind.accepts given = true)
    (hkind : kind ∈ [.int, .uint, .dim]) : given ∈ [.int, .uint, .dim] := by
  cases kind <;> cases given <;> simp_all [accepts]

/-- Integers and dimensions are what a parameter of these kinds takes. -/
theorem ParameterSpec.Takes.isDimension {spec : ParameterSpec} {v : Value} (h : spec.Takes v)
    (hkind : spec.kind ∈ [.int, .uint, .dim]) : v.isDimension = true := by
  obtain ⟨given, hgiven, haccepts⟩ := h
  have hnumber := ValueKind.mem_of_accepts haccepts hkind
  cases v with
  | int n => rfl
  | dim t => rfl
  | list items => cases hgiven
  | _ =>
    obtain rfl := pure_eq_ok_iff.mp hgiven
    simp at hnumber

namespace Standard

/-- A registered layer type is one of the standard library. -/
theorem mem_layers_of_get? {name : String} {layer : LayerType}
    (h : registry.get? name = some layer) : layer ∈ layers := by
  obtain ⟨standard, hmem, heq⟩ := List.mem_map.mp (Dictionary.mem_of_get?_ofList h)
  obtain ⟨_, rfl⟩ := Prod.mk.inj heq
  exact hmem

/-- No layer type of the standard library has a negative number of spatial axes. -/
theorem spatialRank_nonneg {layer : LayerType} (h : layer ∈ layers) :
    0 ≤ layer.rule.spatialRank := by
  have hall : (layers.all fun layer => decide (0 ≤ layer.rule.spatialRank)) = true := by
    decide +kernel
  exact of_decide_eq_true (List.all_eq_true.mp hall layer h)

/-- What selects an axis is not derived in the standard library. -/
theorem fixesAxes {layer : LayerType} (h : layer ∈ layers) : layer.FixesAxes := by
  have hall : (layers.all fun layer => layer.axisParameters.all fun name =>
      decide (¬ Parameters.IsDerived name)) = true := by
    decide +kernel
  intro name hname
  exact of_decide_eq_true (List.all_eq_true.mp (List.all_eq_true.mp hall layer h) name hname)

/-- The parameters that are dimensions or select axes. -/
def numericParameters : List String := axisParameter :: dimensionParameters

/-- A numeric parameter of the standard library takes integers and dimensions only, and has one of
these as its default or none. -/
theorem kind_of_numericParameters {layer : LayerType} (h : layer ∈ layers)
    {spec : ParameterSpec} (hspec : spec ∈ layer.parameters)
    (hname : spec.name ∈ numericParameters) :
    spec.kind ∈ [.int, .uint, .dim] ∧
      (spec.isRequired = true ∨ spec.default.isDimension = true) := by
  have hall : (layers.all fun layer => layer.parameters.all fun spec =>
      decide (spec.name ∈ numericParameters → spec.kind ∈ [.int, .uint, .dim] ∧
        (spec.isRequired = true ∨ spec.default.isDimension = true))) = true := by
    decide +kernel
  have hlayer := List.all_eq_true.mp hall layer h
  exact of_decide_eq_true (List.all_eq_true.mp hlayer spec hspec) hname

/-- The numeric parameters of the standard library are integers or dimensions by default. -/
theorem isDimension_of_defaults {layer : LayerType} (h : layer ∈ layers) {name : String}
    (hname : name ∈ numericParameters) {v : Value} (hv : layer.defaults.get? name = some v) :
    v.isDimension = true := by
  obtain ⟨spec, hspec, heq⟩ := List.mem_map.mp (Dictionary.mem_of_get?_ofList hv)
  obtain ⟨rfl, rfl⟩ := Prod.mk.inj heq
  obtain ⟨hspec, hdefault⟩ := List.mem_filter.mp hspec
  refine (kind_of_numericParameters h hspec hname).2.resolve_left fun hrequired => ?_
  simp [hrequired] at hdefault

end Standard

/-- The steps of a plan apply layer types of the standard library. -/
theorem mem_layers_of_planModel {warn : Bool} {warnings : List Warning}
    (hresolved : resolve Standard.registry warn definition = .ok (model, warnings))
    (hplanned : planModel model = .ok plan) :
    ∀ planned ∈ plan, ∀ step ∈ planned.steps, step.layerType ∈ Standard.layers := by
  obtain ⟨hregistered, -⟩ := all_resolve (Q := fun _ _ _ => True) (fun _ _ _ _ _ _ => trivial)
    (fun _ _ _ _ _ _ _ _ _ _ => trivial) hresolved
  intro planned hmem step hstep
  have hall := all_planModel (Q := fun _ _ _ => True) (fun _ _ _ _ _ _ _ _ => trivial)
    (fun _ _ _ _ _ _ _ _ _ _ _ _ => trivial) hplanned planned hmem step hstep
  obtain ⟨name, hname⟩ := hall.layerType
  exact Standard.mem_layers_of_get? (hregistered _ _ hname)

/-- The numeric parameters of a plan that is made from the standard library are integers or
dimensions. -/
theorem isDimension_of_planModel {warn : Bool} {warnings : List Warning}
    (hresolved : resolve Standard.registry warn definition = .ok (model, warnings))
    (hplanned : planModel model = .ok plan) :
    ∀ planned ∈ plan, ∀ step ∈ planned.steps, ∀ name ∈ Standard.numericParameters, ∀ v,
      step.params.get? name = some v → v.isDimension = true := by
  let Q : LayerType → String → Value → Prop := fun _ name v =>
    name ∈ Standard.numericParameters → v.isDimension = true
  have htakes : ∀ v name layer, Standard.registry.get? name = some layer →
      ∀ spec ∈ layer.parameters, spec.Takes v → Q layer spec.name v :=
    fun v name layer hlayer spec hspec hv hname => hv.isDimension
      (Standard.kind_of_numericParameters (Standard.mem_layers_of_get? hlayer) hspec hname).1
  obtain ⟨hregistered, hparameters⟩ := all_resolve (Q := Q)
    (fun name layer hlayer other v hv hname =>
      Standard.isDimension_of_defaults (Standard.mem_layers_of_get? hlayer) hname hv)
    (fun _ _ a _ => htakes a.value) hresolved
  have hmodel : model.All Q := by
    intro name layer p hlayer hp
    obtain ⟨other, hother, hall⟩ := hparameters name p hp
    exact Option.some.inj (hlayer.symm.trans hother) ▸ hall
  intro planned hmem step hstep name hname v hv
  have hall := all_planModel hmodel (fun _ _ _ _ a _ name layer hlayer =>
    htakes a.value name layer (hregistered name layer hlayer)) hplanned planned hmem step hstep
  exact hall.params name v hv hname

/-- Every step that is planned from the standard library can be applied or raises a diagnostic. -/
theorem applicable_planModel {warn : Bool} {warnings : List Warning}
    (hresolved : resolve Standard.registry warn definition = .ok (model, warnings))
    (hplanned : planModel model = .ok plan) :
    ∀ planned ∈ plan, ∀ step ∈ planned.steps, step.Applicable := by
  intro planned hmem step hstep
  have hlayer := mem_layers_of_planModel hresolved hplanned planned hmem step hstep
  refine ⟨Standard.spatialRank_nonneg hlayer, fun name hname => ?_⟩
  exact isDimension_of_planModel hresolved hplanned planned hmem step hstep name (.tail _ hname)

/-- **Inference breaks off only where a declared shape is compared.** Over every plan that is made
with the standard library, and under any values of the model's variables, inference comes to its
end, unless it reaches a declared shape whose comparison meets a divisor that is zero. It then
raises the diagnostic about this divisor, which names no node. -/
theorem infer_returns_or_breaks (trust : Bool) (bindings : Dictionary Term) {warn : Bool}
    {warnings : List Warning}
    (hresolved : resolve Standard.registry warn definition = .ok (model, warnings))
    (hplanned : planModel model = .ok plan) :
    (∃ nodes complete errors, (infer ⟨trust, bindings⟩ plan).Yields errors (nodes, complete)) ∨
      ∃ first rest shape d, plan = first :: rest ∧ first.declared = some shape ∧
        Breaks ⟨trust, bindings⟩ rest shape d ∧ d.IsDivision ∧
        (infer ⟨trust, bindings⟩ plan).outcome = .error (.problem d) := by
  have happlicable := applicable_planModel hresolved hplanned
  obtain ⟨first, rest, shape, rfl, hdeclared⟩ := (planModel_eq_ok hplanned).2
  cases houtcome : (infer ⟨trust, bindings⟩ (first :: rest)).outcome with
  | ok result => exact Or.inl ⟨result.1, result.2, _, houtcome, rfl⟩
  | error failure =>
    have h := houtcome
    unfold infer at h
    simp only [hdeclared] at h
    rcases Reporting.outcome_bind_eq_error h with h | ⟨_, _, h⟩
    · obtain ⟨d, rfl, hbreaks⟩ :=
        breaks_of_inferNodes (List.forall_mem_cons.mp happlicable).2 h
      exact Or.inr ⟨first, rest, shape, d, rfl, hdeclared, hbreaks, hbreaks.isDivision, rfl⟩
    · cases h

/-- A model whose first node does not have the declared shape, and whose second one divides by zero
in its declared shape. -/
def brokenProgram : Program where
  imports := ["ReLU"]
  model := some {
    name := "Broken"
    declarations := [{ description := "N", value := some (.literal (.int 10)) }]
    lines := [
      { index := 0, shape := some [.identifier "C"] },
      { index := 1, calls := [{ name := "ReLU" }], shape := some [.identifier "H"] },
      { index := 2, calls := [{ name := "ReLU" }]
        shape := some [.binary "/" (.identifier "C")
          (.binary "-" (.identifier "N") (.literal (.int 10)))] },
      { index := 3, calls := [{ name := "ReLU" }], shape := some [.identifier "H"] }] }

/-- Inference of the model breaks off at the division, and what was recorded at the first node does
not get out. -/
theorem brokenProgram_breaks :
    ∃ definition model warnings plan bindings, lowerProgram brokenProgram = .ok definition ∧
      resolve Standard.registry true definition = .ok (model, warnings) ∧
      planModel model = .ok plan ∧
      resolveBindings model.hyperparameterValues = .ok bindings ∧
      (infer ⟨false, bindings⟩ plan).report.errors.length = 1 ∧
      ∃ first rest shape d, plan = first :: rest ∧ first.declared = some shape ∧
        Breaks ⟨false, bindings⟩ rest shape d ∧ d.IsDivision ∧
        (infer ⟨false, bindings⟩ plan).outcome = .error (.problem d) := by
  have hrun : (lowerProgram brokenProgram).toOption.any (fun definition =>
      (resolve Standard.registry true definition).toOption.any fun resolved =>
        (planModel resolved.1).toOption.any fun plan =>
          (resolveBindings resolved.1.hyperparameterValues).toOption.any fun bindings =>
            (infer ⟨false, bindings⟩ plan).report.errors.length == 1 &&
              !(infer ⟨false, bindings⟩ plan).outcome.toOption.isSome) = true := by
    decide +kernel
  simp only [Option.any_eq_true, Bool.and_eq_true, beq_iff_eq, toOption_eq_some_iff,
    Bool.not_eq_true', Option.isSome_eq_false_iff, Option.isNone_iff_eq_none] at hrun
  obtain ⟨definition, hlowered, ⟨model, warnings⟩, hresolved, plan, hplan, bindings, hbindings,
    herrors, houtcome⟩ := hrun
  refine ⟨definition, model, warnings, plan, bindings, hlowered, hresolved, hplan, hbindings,
    herrors, ?_⟩
  rcases infer_returns_or_breaks false bindings hresolved hplan with
    ⟨nodes, complete, errors, hyields, _⟩ | hbreaks
  · rw [hyields] at houtcome
    cases houtcome
  · exact hbreaks

end Shapeline
