import Shapeline.Proofs.Reported.Lowering
import Shapeline.Proofs.Resolution

/-!
# What resolution reports

Resolution looks up every name that is imported. It succeeds in that if the groups of the registry
name registered layer types, as those of the standard library do. All other problems are collected.
In a model without such problems every layer that a node uses is in scope.
-/

namespace Shapeline

variable {registry : Registry} {definition : Definition} {model : ResolvedModel}
  {layer : LayerType} {base : Parameters} {tier : String} {node : Option Int} {seen : List String}
  {assignments : List Assignment} {layerTypes : Dictionary LayerType} {scope : List String}
  {nodes : List NodeSpec}

/-- An assignment is applied or rejected unless its value is a list. -/
theorem Merge.exists_assign {a : Assignment} (h : a.value.isAtomic = true) (m : Merge) :
    ∃ next, m.assign layer tier node a = .ok next := by
  obtain ⟨given, hgiven⟩ := Value.exists_kind h
  simp only [assign_eq_ok_iff]
  cases hspec : layer.spec? a.key with
  | none => exact ⟨_, .unknown hspec⟩
  | some spec =>
    by_cases hseen : spec.name ∈ m.seen
    · exact ⟨_, .duplicate spec hspec hseen⟩
    · cases haccepts : spec.kind.accepts given with
      | true => exact ⟨_, .set spec hspec hseen ⟨given, hgiven, haccepts⟩⟩
      | false => exact ⟨_, .wrong spec given hspec hseen hgiven haccepts⟩

/-- Assignments are merged, or their problems collected, unless a value is a list. -/
theorem returns_mergeParameters (h : ∀ a ∈ assignments, a.value.isAtomic = true) :
    Returns (fun merge => ∀ d ∈ merge.errors, d.Single)
      (mergeParameters layer base assignments tier node seen) := by
  refine .of_foldlM (fun a ha m hm => ?_) (by simp)
  obtain ⟨next, hnext⟩ := m.exists_assign (h a ha)
  refine ⟨next, hnext, ?_⟩
  cases Merge.assign_eq_ok_iff.mp hnext with
  | set _ _ _ _ => exact hm
  | _ => exact single_append hm (List.forall_mem_singleton.mpr nofun)

/-- A name that is not in scope is a single problem. -/
theorem single_notInScope {name : String} : (notInScope registry name node).Single := by
  unfold notInScope
  split <;> exact nofun

/-- Every layer type in scope has parameters, and the problems so far are single. -/
structure OverrideState.Complete (layerTypes : Dictionary LayerType) (state : OverrideState) :
    Prop where
  /-- There are parameters for every layer type in scope. -/
  covered : ∀ name layer, layerTypes.get? name = some layer →
    ∃ p, state.parameters.get? name = some p
  /-- The problems are single. -/
  single : ∀ d ∈ state.errors, d.Single

/-- An override block is applied, or its problems are collected. -/
theorem OverrideState.Complete.applyBlock {state : OverrideState} {block : TypeOverride}
    (hstate : state.Complete layerTypes)
    (hblock : ∀ a ∈ block.assignments, a.value.isAtomic = true) :
    Returns (OverrideState.Complete layerTypes) (state.applyBlock registry layerTypes block) := by
  unfold OverrideState.applyBlock
  split
  · exact .of_pure ⟨hstate.covered,
      single_append hstate.single (List.forall_mem_singleton.mpr single_notInScope)⟩
  · refine (returns_mergeParameters hblock).of_bind fun merge hmerge =>
      .of_pure ⟨fun name other hother => ?_, single_append hstate.single hmerge⟩
    rw [Dictionary.get?_insert]
    split
    · exact ⟨_, rfl⟩
    · exact hstate.covered name other hother

/-- Every member of a group is registered. -/
def Registry.Closed (registry : Registry) : Prop :=
  ∀ name members, registry.groups.get? name = some members →
    ∀ member ∈ members, ∃ layer, registry.get? member = some layer

/-- What an import brings into scope is registered. -/
theorem Registry.Closed.exists_of_members? {name : String} {members : List String}
    (hclosed : registry.Closed) (h : registry.members? name = some members) :
    ∀ member ∈ members, ∃ layer, registry.get? member = some layer := by
  unfold Registry.members? at h
  split at h
  · rename_i found hgroup
    exact hclosed name members (Option.some.inj h ▸ hgroup)
  · split at h
    · rename_i hlayer
      obtain rfl := Option.some.inj h
      exact List.forall_mem_singleton.mpr (Dictionary.contains_iff.mp hlayer)
    · cases h

/-- The names in scope are registered, and the problems of imports are single. -/
theorem Registry.Closed.resolveImports (hclosed : registry.Closed) (imports : List String) :
    (∀ name ∈ (Shapeline.resolveImports registry imports).1,
      ∃ layer, registry.get? name = some layer) ∧
      ∀ d ∈ (Shapeline.resolveImports registry imports).2, d.Single := by
  unfold Shapeline.resolveImports
  refine List.foldlRecOn (motive := fun found : List String × List Diagnostic =>
    (∀ name ∈ found.1, ∃ layer, registry.get? name = some layer) ∧ ∀ d ∈ found.2, d.Single)
    imports _ ⟨by simp, by simp⟩ fun found hfound name _ => ?_
  obtain ⟨hscope, herrors⟩ := hfound
  dsimp only
  split
  · rename_i members hmembers
    refine ⟨fun member hmember => ?_, herrors⟩
    rcases mem_of_mem_foldl_appendNew hmember with hmember | hmember
    · exact hscope member hmember
    · exact hclosed.exists_of_members? hmembers member hmember
  · exact ⟨hscope, single_append herrors (List.forall_mem_singleton.mpr nofun)⟩

/-- Registered names are looked up, and their layer types are in scope. -/
theorem returns_lookups (h : ∀ name ∈ scope, ∃ layer, registry.get? name = some layer) :
    Returns
      (fun layers => ∀ name ∈ scope, ∃ layer, (Dictionary.ofList layers).get? name = some layer)
      (scope.mapM fun name => do return (name, ← registry.lookup name)) := by
  have hlookup : ∀ name ∈ scope, ∃ entry : String × LayerType, entry.1 = name ∧
      (do return (name, ← registry.lookup name) : Outcome (String × LayerType)) = .ok entry := by
    intro name hname
    obtain ⟨layer, hlayer⟩ := h name hname
    refine ⟨(name, layer), rfl, bind_eq_ok_iff.mpr ⟨layer, ?_, rfl⟩⟩
    rw [Registry.lookup, hlayer]
    rfl
  obtain ⟨layers, hlayers⟩ := exists_forall₂ hlookup
  refine ⟨layers, mapM_eq_ok_iff.mpr (hlayers.imp fun _ _ hentry => hentry.2), fun name hname => ?_⟩
  obtain ⟨entry, hentry, rfl, -⟩ := exists_of_mem_left hlayers hname
  exact Dictionary.exists_get?_ofList hentry

/-- Without such problems, all layers that nodes other than the input use are in scope. -/
theorem mem_of_checkReferences (h : checkReferences registry scope nodes = []) {n : NodeSpec}
    (hn : n ∈ nodes) (hindex : n.index ≠ 0) : ∀ name ∈ n.layerNames, name ∈ scope := by
  intro name hname
  have hnone := List.flatMap_eq_nil_iff.mp h n (List.mem_filter.mpr ⟨hn, by simpa using hindex⟩)
  have hfilter := List.filter_eq_nil_iff.mp (List.map_eq_nil_iff.mp hnone) name hname
  simpa using hfilter

end Shapeline
