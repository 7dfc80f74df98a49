import Shapeline.Proofs.Inference.Invariants
import Shapeline.Proofs.Lowering
import Shapeline.Standard

/-!
# Resolving and planning a definition

Resolution and planning move values around but make no new ones, except for the defaults of layer
types. A property of terms that integers have is one of the terms of the defaults of the standard
library. So if the terms of a definition have it, so have those of the parameters, of the declared
shapes of the plan and of the values of the model's variables.
-/

namespace Shapeline

/-- The terms of the defaults of all layer types of a registry have a property. -/
def Registry.TermsSatisfy (T : Term → Prop) (registry : Registry) : Prop :=
  ∀ name layer, registry.get? name = some layer → layer.defaults.TermsSatisfy T

/-- The defaults of all layer types of a registry can be written by an author. -/
def Registry.Written (registry : Registry) : Prop := registry.TermsSatisfy Term.Written

/-- The terms of a resolved model have a property. -/
structure ResolvedModel.TermsSatisfy (T : Term → Prop) (model : ResolvedModel) : Prop where
  /-- The definition has the property. -/
  definition : model.definition.TermsSatisfy T
  /-- The parameters of the layer types have the property. -/
  typeParameters : ∀ name p, model.typeParameters.get? name = some p → p.TermsSatisfy T
  /-- The values of the variables have the property. -/
  hyperparameters : ∀ name h, model.hyperparameters.get? name = some h → h.value.TermsSatisfy T

/-- The terms of a resolved model can be written by an author, and its variables have an author's
names. -/
structure ResolvedModel.Written (model : ResolvedModel) : Prop where
  /-- The terms can be written. -/
  terms : model.TermsSatisfy Term.Written
  /-- The variables have an author's names. -/
  names : ∀ name h, model.hyperparameters.get? name = some h → h.symbol = name ∧ ¬ Marked name

variable {registry : Registry} {definition : Definition} {model : ResolvedModel}
  {layer : LayerType} {base p : Parameters} {name tier : String} {node : Option Int}
  {number : Int} {seen : List String} {T : Term → Prop}

/-- Every parameter has a property, which may depend on its name. -/
def Parameters.All (Q : String → Value → Prop) (p : Parameters) : Prop :=
  ∀ name v, p.get? name = some v → Q name v

/-- A parameter accepts a value. -/
def ParameterSpec.Takes (spec : ParameterSpec) (v : Value) : Prop :=
  ∃ given, ValueKind.ofValue v = .ok given ∧ spec.kind.accepts given = true

/-- The terms of parameters have a property if all their values do. -/
theorem Parameters.termsSatisfy_iff : p.TermsSatisfy T ↔ p.All fun _ v => v.TermsSatisfy T := by
  constructor
  · intro h name v hv t ht
    exact h name t (term?_absent_iff.mpr ⟨v, hv, ht⟩)
  · intro h name t ht
    obtain ⟨v, hv, ht⟩ := term?_absent_iff.mp ht
    exact h name v hv t ht

/-- A further parameter with a property. -/
theorem Parameters.All.insert {Q : String → Value → Prop} {v : Value} (hp : p.All Q)
    (hv : Q name v) : Parameters.All Q (Dictionary.insert p name v) := by
  intro other w hw
  rw [Dictionary.get?_insert] at hw
  split at hw
  · rename_i hname
    exact hname ▸ Option.some.inj hw ▸ hv
  · exact hp other w hw

/-- What an assignment does to the parameters of a tier. -/
inductive Merge.Assigns (layer : LayerType) (tier : String) (node : Option Int) (m : Merge)
    (a : Assignment) : Merge → Prop
  /-- No parameter has the key. -/
  | unknown (hspec : layer.spec? a.key = none) :
    Assigns layer tier node m a { m with
      errors := m.errors ++ [.unknownParameter layer.name a.key node layer.parameterNames] }
  /-- The parameter was set before. -/
  | duplicate (spec : ParameterSpec) (hspec : layer.spec? a.key = some spec)
    (hseen : spec.name ∈ m.seen) :
    Assigns layer tier node m a { m with
      errors := m.errors ++ [.duplicateOverride layer.name spec.name tier node] }
  /-- The parameter does not accept values of the kind. -/
  | wrong (spec : ParameterSpec) (given : ValueKind) (hspec : layer.spec? a.key = some spec)
    (hseen : spec.name ∉ m.seen) (hgiven : ValueKind.ofValue a.value = .ok given)
    (hrefuses : spec.kind.accepts given = false) :
    Assigns layer tier node m a { m with
      errors := m.errors ++
        [.valueType (some layer.name) spec.name spec.kind.name a.value.literal node]
      seen := Names.insert spec.name m.seen }
  /-- The parameter gets the value. -/
  | set (spec : ParameterSpec) (hspec : layer.spec? a.key = some spec)
    (hseen : spec.name ∉ m.seen) (htakes : spec.Takes a.value) :
    Assigns layer tier node m a { m with
      params := m.params.insert spec.name a.value
      seen := Names.insert spec.name m.seen }

/-- An assignment that succeeds does one of these things. -/
theorem Merge.assign_eq_ok_iff {a : Assignment} {m next : Merge} :
    m.assign layer tier node a = .ok next ↔ m.Assigns layer tier node a next := by
  unfold assign
  constructor
  · intro h
    split at h
    · exact pure_eq_ok_iff.mp h ▸ .unknown ‹_›
    · rename_i spec hspec
      split at h
      · rename_i hseen
        exact pure_eq_ok_iff.mp h ▸ .duplicate spec hspec (List.contains_iff_mem.mp hseen)
      · rename_i hseen
        rw [List.contains_iff_mem] at hseen
        obtain ⟨given, hgiven, h⟩ := bind_eq_ok_iff.mp h
        split at h
        · rename_i haccepts
          exact pure_eq_ok_iff.mp h ▸ .set spec hspec hseen ⟨given, hgiven, haccepts⟩
        · rename_i hrefuses
          exact pure_eq_ok_iff.mp h ▸
            .wrong spec given hspec hseen hgiven (Bool.not_eq_true _ ▸ hrefuses)
  · intro h
    cases h with
    | unknown hspec => rw [hspec]; rfl
    | duplicate spec hspec hseen =>
      rw [hspec]
      exact if_pos (List.contains_iff_mem.mpr hseen)
    | wrong spec given hspec hseen hgiven hrefuses =>
      rw [hspec, hgiven]
      refine (if_neg (List.contains_iff_mem.not.mpr hseen)).trans ?_
      exact if_neg (Bool.not_eq_true _ ▸ hrefuses)
    | set spec hspec hseen htakes =>
      obtain ⟨given, hgiven, haccepts⟩ := htakes
      rw [hspec, hgiven]
      refine (if_neg (List.contains_iff_mem.not.mpr hseen)).trans ?_
      exact if_pos haccepts

/-- Merging keeps what the parameters have in common with all assignments that are accepted. -/
theorem all_mergeParameters {Q : String → Value → Prop} {assignments : List Assignment}
    {merge : Merge} (hbase : base.All Q)
    (hassignments : ∀ a ∈ assignments, ∀ spec ∈ layer.parameters, spec.Takes a.value →
      Q spec.name a.value)
    (h : mergeParameters layer base assignments tier node seen = .ok merge) :
    merge.params.All Q := by
  refine foldlM_keeps (P := fun m : Merge => m.params.All Q) (fun a ha m m' hm h => ?_) hbase h
  cases Merge.assign_eq_ok_iff.mp h with
  | set spec hspec _ htakes =>
    exact hm.insert (hassignments a ha spec (List.mem_of_find?_eq_some hspec) htakes)
  | _ => exact hm

/-- The terms of the defaults of a layer type have a property if each default has it. -/
theorem LayerType.termsSatisfy_defaults
    (h : ∀ spec ∈ layer.parameters, spec.default.TermsSatisfy T) :
    layer.defaults.TermsSatisfy T := by
  refine Parameters.termsSatisfy_iff.mpr fun name v hv => ?_
  obtain ⟨spec, hspec, heq⟩ := List.mem_map.mp (Dictionary.mem_of_get?_ofList hv)
  obtain ⟨_, rfl⟩ := Prod.mk.inj heq
  exact h spec (List.mem_filter.mp hspec).1

/-- The terms of the defaults of the standard library have a property that integers have. -/
theorem Standard.termsSatisfy_registry (hT : Term.Arithmetic T) :
    Standard.registry.TermsSatisfy T := by
  intro name layer h
  obtain ⟨standard, hmem, heq⟩ := List.mem_map.mp (Dictionary.mem_of_get?_ofList h)
  obtain ⟨_, rfl⟩ := Prod.mk.inj heq
  have hplain : (layers.all fun layer => layer.parameters.all fun spec =>
      spec.default.isPlain) = true := rfl
  refine LayerType.termsSatisfy_defaults fun spec hspec => .of_isPlain hT ?_
  exact List.all_eq_true.mp (List.all_eq_true.mp hplain standard hmem) spec hspec

/-- The defaults of the standard library can be written. -/
theorem Standard.written_registry : Standard.registry.Written :=
  Standard.termsSatisfy_registry Term.arithmetic_written

/-- Collecting names without repetitions adds no name. -/
theorem mem_of_mem_foldl_appendNew {names start : List String} {name : String}
    (h : name ∈ names.foldl appendNew start) : name ∈ start ∨ name ∈ names := by
  induction names generalizing start with
  | nil => exact Or.inl h
  | cons first rest ih =>
    rcases ih h with hstart | hrest
    · unfold appendNew at hstart
      split at hstart
      · exact Or.inl hstart
      · rcases List.mem_append.mp hstart with hstart | hfirst
        · exact Or.inl hstart
        · exact Or.inr (List.mem_singleton.mp hfirst ▸ List.mem_cons_self)
    · exact Or.inr (List.mem_cons_of_mem _ hrest)

/-- Collecting names without repetitions loses no name. -/
theorem mem_foldl_appendNew {names start : List String} {name : String}
    (h : name ∈ start ∨ name ∈ names) :
    name ∈ names.foldl appendNew start := by
  induction names generalizing start with
  | nil => exact h.resolve_right List.not_mem_nil
  | cons first rest ih =>
    refine ih ?_
    by_cases hrest : name ∈ rest
    · exact Or.inr hrest
    refine Or.inl ?_
    unfold appendNew
    split
    · rename_i hfirst
      rcases h with h | h
      · exact h
      · obtain rfl := (List.mem_cons.mp h).resolve_right hrest
        exact List.contains_iff_mem.mp hfirst
    · rcases h with h | h
      · exact List.mem_append_left _ h
      · obtain rfl := (List.mem_cons.mp h).resolve_right hrest
        exact List.mem_append_right _ (List.mem_singleton.mpr rfl)

/-- A layer type that is looked up is registered. -/
theorem get?_of_lookup (h : registry.lookup name = .ok layer) :
    registry.get? name = some layer := by
  unfold Registry.lookup at h
  split at h
  · rename_i found hfound
    exact pure_eq_ok_iff.mp h ▸ hfound
  · cases h

/-- The layer types in scope are registered. -/
theorem registered_of_lookups {imported : List String} {layers : List (String × LayerType)}
    (hlayers : (imported.mapM fun name => do return (name, ← registry.lookup name)) = .ok layers)
    (h : (Dictionary.ofList layers).get? name = some layer) : registry.get? name = some layer := by
  obtain ⟨other, _, hlookup⟩ :=
    exists_of_mem_right (mapM_eq_ok_iff.mp hlayers) (Dictionary.mem_of_get?_ofList h)
  obtain ⟨found, hfound, hlookup⟩ := bind_eq_ok_iff.mp hlookup
  obtain ⟨rfl, rfl⟩ := Prod.mk.inj (pure_eq_ok_iff.mp hlookup)
  exact get?_of_lookup hfound

/-- Parameters by layer type belong to layer types in scope and have a property, which may depend
on the layer type. -/
def OverrideState.All (Q : LayerType → String → Value → Prop) (layerTypes : Dictionary LayerType)
    (state : OverrideState) : Prop :=
  ∀ name p, state.parameters.get? name = some p →
    ∃ layer, layerTypes.get? name = some layer ∧ p.All (Q layer)

/-- An override block keeps what the parameters have in common with all assignments that are
accepted. -/
theorem OverrideState.All.applyBlock {Q : LayerType → String → Value → Prop}
    {layerTypes : Dictionary LayerType} {state next : OverrideState} {block : TypeOverride}
    (hstate : state.All Q layerTypes)
    (hblock : ∀ a ∈ block.assignments, ∀ name layer, layerTypes.get? name = some layer →
      ∀ spec ∈ layer.parameters, spec.Takes a.value → Q layer spec.name a.value)
    (h : state.applyBlock registry layerTypes block = .ok next) : next.All Q layerTypes := by
  unfold OverrideState.applyBlock at h
  split at h
  · exact pure_eq_ok_iff.mp h ▸ hstate
  · rename_i layer hlayer
    obtain ⟨merge, hmerge, h⟩ := bind_eq_ok_iff.mp h
    obtain rfl := pure_eq_ok_iff.mp h
    have hbase : ((state.parameters.get? block.layer).getD .empty).All (Q layer) := by
      cases hget : state.parameters.get? block.layer with
      | none => exact fun name v hv => by cases hv
      | some p =>
        obtain ⟨other, hother, hall⟩ := hstate block.layer p hget
        exact Option.some.inj (hlayer.symm.trans hother) ▸ hall
    have hmerged := all_mergeParameters hbase
      (fun a ha spec hspec => hblock a ha block.layer layer hlayer spec hspec) hmerge
    intro name p hp
    rw [Dictionary.get?_insert] at hp
    split at hp
    · rename_i hname
      exact ⟨layer, hname ▸ hlayer, Option.some.inj hp ▸ hmerged⟩
    · exact hstate name p hp

/-- The layer types of a resolved model are registered, and its parameters keep what the defaults
have in common with all assignments of override blocks that are accepted. -/
theorem all_resolve {Q : LayerType → String → Value → Prop} {warn : Bool}
    {warnings : List Warning}
    (hdefaults : ∀ name layer, registry.get? name = some layer → layer.defaults.All (Q layer))
    (hblocks : ∀ block ∈ definition.typeOverrides, ∀ a ∈ block.assignments,
      ∀ name layer, registry.get? name = some layer →
        ∀ spec ∈ layer.parameters, spec.Takes a.value → Q layer spec.name a.value)
    (h : resolve registry warn definition = .ok (model, warnings)) :
    (∀ name layer, model.layerTypes.get? name = some layer → registry.get? name = some layer) ∧
      ∀ name p, model.typeParameters.get? name = some p →
        ∃ layer, model.layerTypes.get? name = some layer ∧ p.All (Q layer) := by
  unfold resolve at h
  generalize resolveImports registry definition.imports = imports at h
  obtain ⟨imported, importErrors⟩ := imports
  obtain ⟨layers, hlayers, h⟩ := bind_eq_ok_iff.mp h
  obtain ⟨overrides, hoverrides, h⟩ := bind_eq_ok_iff.mp h
  generalize collectHyperparameters definition.name definition.hyperparameters = collected at h
  dsimp only at h
  split at h
  · obtain ⟨rfl, _⟩ := Prod.mk.inj (pure_eq_ok_iff.mp h)
    have hregistered : ∀ name layer, (Dictionary.ofList layers).get? name = some layer →
        registry.get? name = some layer := fun name layer => registered_of_lookups hlayers
    refine ⟨hregistered, foldlM_keeps
      (P := OverrideState.All Q (Dictionary.ofList layers)) (fun block hblock s s' hs h => ?_) ?_
      hoverrides⟩
    · exact hs.applyBlock (fun a ha name layer hlayer =>
        hblocks block hblock a ha name layer (hregistered name layer hlayer)) h
    · intro name p hp
      rw [Dictionary.get?_map] at hp
      obtain ⟨layer, hlayer, rfl⟩ := Option.map_eq_some_iff.mp hp
      exact ⟨layer, hlayer, hdefaults name layer (hregistered name layer hlayer)⟩
  · cases h

/-- The collected variables are declared ones, each under its symbol. -/
theorem mem_of_collectHyperparameters {model name : String} {declared : List Hyperparameter}
    {h : Hyperparameter} (hget : (collectHyperparameters model declared).1.get? name = some h) :
    h ∈ declared ∧ h.symbol = name := by
  revert hget
  unfold collectHyperparameters
  refine List.foldlRecOn
    (motive := fun (known : Dictionary Hyperparameter × List Diagnostic) =>
      known.1.get? name = some h → h ∈ declared ∧ h.symbol = name)
    declared _ (fun hempty => by simp at hempty) fun known ih item hitem hget => ?_
  dsimp only at hget
  split at hget
  · exact ih hget
  · rw [Dictionary.get?_insert] at hget
    split at hget
    · rename_i hname
      obtain rfl := Option.some.inj hget
      exact ⟨hitem, hname.symm⟩
    · exact ih hget

/-- A resolved model keeps the definition, and its variables are declared ones. -/
theorem resolve_eq_ok {warn : Bool} {warnings : List Warning}
    (h : resolve registry warn definition = .ok (model, warnings)) :
    model.definition = definition ∧ model.hyperparameters =
      (collectHyperparameters definition.name definition.hyperparameters).1 := by
  unfold resolve at h
  obtain ⟨layers, _, h⟩ := bind_eq_ok_iff.mp h
  obtain ⟨overrides, _, h⟩ := bind_eq_ok_iff.mp h
  dsimp only at h
  split at h
  · obtain ⟨rfl, _⟩ := Prod.mk.inj (pure_eq_ok_iff.mp h)
    exact ⟨rfl, rfl⟩
  · cases h

/-- The terms of a resolved model have a property if those of the definition and of the defaults
do. -/
theorem termsSatisfy_resolve {warn : Bool} {warnings : List Warning}
    (hregistry : registry.TermsSatisfy T) (hdefinition : definition.TermsSatisfy T)
    (h : resolve registry warn definition = .ok (model, warnings)) : model.TermsSatisfy T := by
  obtain ⟨_, hparameters⟩ := all_resolve (Q := fun _ _ v => v.TermsSatisfy T)
    (fun name layer hlayer => Parameters.termsSatisfy_iff.mp (hregistry name layer hlayer))
    (fun block hblock a ha _ _ _ _ _ _ => hdefinition.typeOverrides block hblock a ha) h
  obtain ⟨hsame, hvariables⟩ := resolve_eq_ok h
  refine ⟨hsame ▸ hdefinition, fun name p hp => ?_, fun name variable' hget => ?_⟩
  · obtain ⟨_, _, hall⟩ := hparameters name p hp
    exact Parameters.termsSatisfy_iff.mpr hall
  · exact hdefinition.hyperparameters variable'
      (mem_of_collectHyperparameters (hvariables ▸ hget)).1

/-- A definition that can be written is resolved to a model that can be written. -/
theorem written_resolve {warn : Bool} {warnings : List Warning} (hregistry : registry.Written)
    (hdefinition : definition.Written)
    (h : resolve registry warn definition = .ok (model, warnings)) : model.Written := by
  refine ⟨termsSatisfy_resolve hregistry hdefinition.terms h, fun name variable' hget => ?_⟩
  obtain ⟨hmem, hsymbol⟩ := mem_of_collectHyperparameters ((resolve_eq_ok h).2 ▸ hget)
  exact ⟨hsymbol, hsymbol ▸ hdefinition.names variable' hmem⟩

end Shapeline
