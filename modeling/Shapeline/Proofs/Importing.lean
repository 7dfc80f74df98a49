import Shapeline.Proofs.Registration
import Shapeline.Proofs.Resolvable

/-!
# The advice to import a name

A definition may use a name that the registry knows but that none of its imports brings into scope.
The author is then advised to import the name. This helps if an import of the name brings the name
itself into scope, as that of a layer type does. The import of a group brings its members into scope
and not the group, so for the name of a group the advice is given again after it was followed.
-/

namespace Shapeline

/-- The diagnostic for a name that is used and could be imported but is not. -/
def Diagnostic.notImported (name : String) (node : Option Int) : Diagnostic :=
  { unresolvedImport name "not imported" with node, hint := some s!"add 'use {name}'" }

/-- A diagnostic says of a name that it is not imported. -/
def Diagnostic.SaysNotImported (name : String) (d : Diagnostic) : Prop :=
  d.cause = .unresolvedImport name "not imported"

/-- A definition uses a name at a node that is not the input or, if no node is given, for one of its
override blocks. -/
def Definition.RefersTo (definition : Definition) (name : String) (node : Option Int) : Prop :=
  (node = none ∧ ∃ block ∈ definition.typeOverrides, block.layer = name) ∨
    ∃ n ∈ definition.nodes, n.index ≠ 0 ∧ name ∈ n.layerNames ∧ node = some n.index

/-- The definition with one more import. -/
def Definition.importing (definition : Definition) (name : String) : Definition :=
  { definition with imports := definition.imports ++ [name] }

variable {registry : Registry} {definition : Definition} {layerTypes : Dictionary LayerType}
  {state last : OverrideState} {blocks : List TypeOverride} {block : TypeOverride}
  {scope : List String} {nodes : List NodeSpec} {name other : String} {node : Option Int}
  {d : Diagnostic} {failure : Failure}

/-- For a name that the registry knows the advice is to import it. -/
theorem notInScope_of_contains (h : registry.contains name = true) :
    notInScope registry name node = .notImported name node := by
  unfold notInScope
  rw [if_pos h]
  rfl

/-- A use of a name that is not in scope is one of a name that is not imported if the registry knows
the name. -/
theorem saysNotImported_notInScope_iff :
    (notInScope registry other node).SaysNotImported name ↔
      other = name ∧ registry.contains name = true := by
  by_cases hcontains : registry.contains other = true
  · rw [notInScope_of_contains hcontains]
    constructor
    · intro h
      obtain ⟨rfl, -⟩ := Cause.unresolvedImport.inj h
      exact ⟨rfl, hcontains⟩
    · rintro ⟨rfl, -⟩
      rfl
  · unfold notInScope
    rw [if_neg hcontains]
    refine iff_of_false nofun ?_
    rintro ⟨rfl, hknown⟩
    exact hcontains hknown

/-- What imports complain about is that they are not known. -/
theorem not_saysNotImported_resolveImports (imports : List String) :
    ∀ d ∈ (resolveImports registry imports).2, ¬ d.SaysNotImported name := by
  unfold resolveImports
  refine List.foldlRecOn (motive := fun found : List String × List Diagnostic =>
    ∀ d ∈ found.2, ¬ d.SaysNotImported name) imports _ (by simp) fun found hfound imported _ => ?_
  dsimp only
  split
  · exact hfound
  · refine List.forall_mem_append.mpr ⟨hfound, List.forall_mem_singleton.mpr fun h => ?_⟩
    exact absurd (Cause.unresolvedImport.inj h).2 (by decide)

/-- What assignments complain about is no import. -/
theorem not_saysNotImported_mergeParameters {layer : LayerType} {base : Parameters}
    {assignments : List Assignment} {tier : String} {seen : List String} {merge : Merge}
    (h : mergeParameters layer base assignments tier node seen = .ok merge) :
    ∀ d ∈ merge.errors, ¬ d.SaysNotImported name := by
  refine foldlM_keeps (P := fun m : Merge => ∀ d ∈ m.errors, ¬ d.SaysNotImported name)
    (fun a _ m next hm hnext => ?_) (by simp) h
  cases Merge.assign_eq_ok_iff.mp hnext with
  | set _ _ _ _ => exact hm
  | _ => exact List.forall_mem_append.mpr ⟨hm, List.forall_mem_singleton.mpr nofun⟩

/-- What variables complain about is no import. -/
theorem not_saysNotImported_collectHyperparameters (model : String)
    (declared : List Hyperparameter) :
    ∀ d ∈ (collectHyperparameters model declared).2, ¬ d.SaysNotImported name := by
  unfold collectHyperparameters
  refine List.foldlRecOn (motive := fun found : Dictionary Hyperparameter × List Diagnostic =>
    ∀ d ∈ found.2, ¬ d.SaysNotImported name) declared _ (by simp) fun found hfound item _ => ?_
  dsimp only
  split
  · exact List.forall_mem_append.mpr ⟨hfound, List.forall_mem_singleton.mpr nofun⟩
  · exact hfound

/-- An override block is of a name that is not imported if it says so itself. -/
theorem mem_applyBlock_iff (hsaid : d.SaysNotImported name)
    (h : state.applyBlock registry layerTypes block = .ok last) :
    d ∈ last.errors ↔ d ∈ state.errors ∨
      layerTypes.get? block.layer = none ∧ d = notInScope registry block.layer none := by
  unfold OverrideState.applyBlock at h
  split at h
  · rename_i hnone
    simp [pure_eq_ok_iff.mp h, hnone]
  · rename_i layer hlayer
    obtain ⟨merge, hmerge, h⟩ := bind_eq_ok_iff.mp h
    have hnot : d ∉ merge.errors :=
      fun hd => not_saysNotImported_mergeParameters hmerge d hd hsaid
    simp [pure_eq_ok_iff.mp h, hlayer, hnot]

/-- Override blocks are of names that are not imported if one of them is. -/
theorem mem_applyBlocks_iff (hsaid : d.SaysNotImported name)
    (h : blocks.foldlM (OverrideState.applyBlock registry layerTypes) state = .ok last) :
    d ∈ last.errors ↔ d ∈ state.errors ∨ ∃ block ∈ blocks,
      layerTypes.get? block.layer = none ∧ d = notInScope registry block.layer none := by
  induction blocks generalizing state with
  | nil => simp [pure_eq_ok_iff.mp h]
  | cons block rest ih =>
    obtain ⟨next, hnext, h⟩ := bind_eq_ok_iff.mp h
    rw [ih h, mem_applyBlock_iff hsaid hnext, or_assoc]
    simp only [List.mem_cons, exists_eq_or_imp]

/-- References are checked at all nodes but the input. -/
theorem mem_checkReferences_iff :
    d ∈ checkReferences registry scope nodes ↔ ∃ n ∈ nodes, n.index ≠ 0 ∧
      ∃ name ∈ n.layerNames, name ∉ scope ∧ d = notInScope registry name (some n.index) := by
  simp only [checkReferences, List.mem_flatMap, List.mem_filter, List.mem_map, decide_eq_true_eq,
    Bool.not_eq_true', List.contains_eq_mem, decide_eq_false_iff_not, ne_eq, and_assoc,
    eq_comm (a := d)]

/-- A value that has no kind cannot be a parameter. -/
theorem unsupported_of_ofValue {v : Value} (h : ValueKind.ofValue v = .error failure) :
    ∃ literal, failure = .unsupportedValue literal := by
  unfold ValueKind.ofValue at h
  split at h <;> cases h
  exact ⟨_, rfl⟩

/-- Override blocks are applied unless a value cannot be a parameter. -/
theorem unsupported_of_applyBlocks
    (h : blocks.foldlM (OverrideState.applyBlock registry layerTypes) state = .error failure) :
    ∃ literal, failure = .unsupportedValue literal := by
  obtain ⟨block, -, state, hblock⟩ := exists_of_foldlM_eq_error h
  unfold OverrideState.applyBlock at hblock
  split at hblock
  · cases hblock
  · rcases bind_eq_error_iff.mp hblock with hmerge | ⟨_, -, hrest⟩
    · obtain ⟨a, -, m, hassign⟩ := exists_of_foldlM_eq_error hmerge
      unfold Merge.assign at hassign
      split at hassign
      · cases hassign
      · split at hassign
        · cases hassign
        · rcases bind_eq_error_iff.mp hassign with hvalue | ⟨_, -, hrest⟩
          · exact unsupported_of_ofValue hvalue
          · split at hrest <;> cases hrest
    · cases hrest

/-- A definition has the problems that the stages of resolution find if layer types are looked up
and override blocks applied. -/
theorem resolve_of_overrides {layers : List (String × LayerType)} {overrides : OverrideState}
    {errors : List Diagnostic}
    (hlayers : ((resolveImports registry definition.imports).1.mapM fun name => do
      return (name, ← registry.lookup name)) = .ok layers)
    (hoverrides : definition.typeOverrides.foldlM
      (OverrideState.applyBlock registry (.ofList layers)) (.start (.ofList layers)) =
        .ok overrides)
    (herrors : errors = (resolveImports registry definition.imports).2 ++ overrides.errors ++
      checkReferences registry (resolveImports registry definition.imports).1 definition.nodes ++
      (collectHyperparameters definition.name definition.hyperparameters).2) (warn : Bool) :
    errors = [] ∧ (∃ result, resolve registry warn definition = .ok result) ∨
      errors ≠ [] ∧ resolve registry warn definition = .error (.problems errors) := by
  by_cases hnil : errors = []
  · have hnone := herrors.symm.trans hnil
    simp only [List.append_eq_nil_iff] at hnone
    obtain ⟨⟨⟨himports, hblocks⟩, hreferences⟩, hvariables⟩ := hnone
    exact Or.inl ⟨hnil, (_, _), resolve_eq_ok_iff.mpr ⟨layers, overrides, hlayers, hoverrides,
      himports, hblocks, hreferences, hvariables, rfl, rfl⟩⟩
  · refine Or.inr ⟨hnil, bind_eq_error_iff.mpr (Or.inr ⟨layers, hlayers,
      bind_eq_error_iff.mpr (Or.inr ⟨overrides, hoverrides, ?_⟩)⟩)⟩
    subst herrors
    dsimp only
    split
    · exact absurd ‹_› hnil
    · rfl

/-- With a registry whose groups have registered members a value that cannot be a parameter ends
resolution, or all problems are collected. Among these are the names that are not imported: those
that the registry knows and the definition uses and that no import brings into scope. -/
theorem Registry.Closed.resolve_cases (hclosed : registry.Closed) (warn : Bool)
    (definition : Definition) :
    (∃ literal, resolve registry warn definition = .error (.unsupportedValue literal)) ∨
      ∃ errors,
        (∀ d name, d.SaysNotImported name → (d ∈ errors ↔ ∃ node, d = .notImported name node ∧
          registry.contains name = true ∧ definition.RefersTo name node ∧
          ¬ registry.Imports definition.imports name)) ∧
        (errors = [] ∧ (∃ result, resolve registry warn definition = .ok result) ∨
          errors ≠ [] ∧ resolve registry warn definition = .error (.problems errors)) := by
  obtain ⟨-, hscope⟩ := resolveImports_eq registry definition.imports
  have hregistered := (hclosed.resolveImports definition.imports).1
  obtain ⟨layers, hlayers, -⟩ := returns_lookups hregistered
  cases hoverrides : definition.typeOverrides.foldlM
      (OverrideState.applyBlock registry (.ofList layers)) (.start (.ofList layers)) with
  | error failure =>
    obtain ⟨literal, rfl⟩ := unsupported_of_applyBlocks hoverrides
    exact Or.inl ⟨literal, bind_eq_error_iff.mpr (Or.inr ⟨layers, hlayers,
      bind_eq_error_iff.mpr (Or.inl hoverrides)⟩)⟩
  | ok overrides =>
    refine Or.inr ⟨_, fun d name hsaid => ?_, resolve_of_overrides hlayers hoverrides rfl warn⟩
    have himports : d ∈ (Shapeline.resolveImports registry definition.imports).2 →
        ¬ d.SaysNotImported name :=
      not_saysNotImported_resolveImports definition.imports d
    have hvariables : d ∈ (collectHyperparameters definition.name definition.hyperparameters).2 →
        ¬ d.SaysNotImported name :=
      not_saysNotImported_collectHyperparameters definition.name definition.hyperparameters d
    have hlayer : (Dictionary.ofList layers).get? name = none ↔
        ¬ registry.Imports definition.imports name := by
      rw [← hscope, ← not_iff_not, not_not, ← ne_eq, Option.ne_none_iff_exists']
      simp only [get?_of_lookups hlayers, exists_and_left, and_iff_left_iff_imp]
      exact hregistered name
    simp only [List.mem_append, mem_applyBlocks_iff hsaid hoverrides, mem_checkReferences_iff,
      hscope]
    constructor
    · rintro (((hd | hd | ⟨block, hblock, hnone, rfl⟩) |
        ⟨n, hn, hindex, used, hused, hnot, rfl⟩) | hd)
      · exact absurd hsaid (himports hd)
      · cases hd
      · obtain ⟨rfl, hcontains⟩ := saysNotImported_notInScope_iff.mp hsaid
        exact ⟨none, notInScope_of_contains hcontains, hcontains,
          Or.inl ⟨rfl, block, hblock, rfl⟩, hlayer.mp hnone⟩
      · obtain ⟨rfl, hcontains⟩ := saysNotImported_notInScope_iff.mp hsaid
        exact ⟨some n.index, notInScope_of_contains hcontains, hcontains,
          Or.inr ⟨n, hn, hindex, hused, rfl⟩, hnot⟩
      · exact absurd hsaid (hvariables hd)
    · rintro ⟨node, rfl, hcontains, hrefers, hnot⟩
      rw [← notInScope_of_contains hcontains]
      rcases hrefers with ⟨rfl, block, hblock, rfl⟩ | ⟨n, hn, hindex, hused, rfl⟩
      · exact Or.inl (Or.inl (Or.inr (Or.inr ⟨block, hblock, hlayer.mpr hnot, rfl⟩)))
      · exact Or.inl (Or.inr ⟨n, hn, hindex, name, hused, hnot, rfl⟩)

/-- One more import brings its members into scope. -/
theorem imports_importing_iff {members : List String} (h : registry.members? name = some members) :
    registry.Imports (definition.importing name).imports other ↔
      registry.Imports definition.imports other ∨ other ∈ members := by
  simp [Definition.importing, Registry.Imports, or_and_right, exists_or, h]

/-- A name that is no group is its own member. -/
theorem mem_members_of_not_group {members : List String} (h : registry.members? name = some members)
    (hgroup : registry.groups.get? name = none) : name ∈ members := by
  unfold Registry.members? at h
  rw [hgroup] at h
  dsimp only at h
  split at h
  · exact Option.some.inj h ▸ List.mem_singleton.mpr rfl
  · cases h

/-- Let a registry be built by any run of operations, and let resolution advise to import a name.
After the advice is followed the name is not reported as not imported any more if it is among the
names that its import brings into scope, as the name of every layer type is that no group shares.
For every other name, which is that of a group, the definition still is not resolved, and all
problems that are reported include the same one again. -/
theorem import_advice_helps (operations : List Registry.Operation) (warn : Bool)
    (definition : Definition) (name : String) (node : Option Int) (errors : List Diagnostic)
    (h : resolve (Registry.empty.run operations) warn definition = .error (.problems errors))
    (hadvised : Diagnostic.notImported name node ∈ errors) :
    ∃ members, (Registry.empty.run operations).members? name = some members ∧
      ((Registry.empty.run operations).groups.get? name = none → name ∈ members) ∧
      (name ∈ members → ∀ others,
        resolve (Registry.empty.run operations) warn (definition.importing name) =
          .error (.problems others) →
        ∀ d ∈ others, d.cause ≠ .unresolvedImport name "not imported") ∧
      (name ∉ members →
        (∃ literal, resolve (Registry.empty.run operations) warn (definition.importing name) =
          .error (.unsupportedValue literal)) ∨
        ∃ others, resolve (Registry.empty.run operations) warn (definition.importing name) =
          .error (.problems others) ∧ Diagnostic.notImported name node ∈ others) := by
  have hclosed := Registry.closed_empty.run operations
  generalize Registry.empty.run operations = registry at *
  obtain ⟨hcontains, hrefers, hnot⟩ : registry.contains name = true ∧
      definition.RefersTo name node ∧ ¬ registry.Imports definition.imports name := by
    rcases hclosed.resolve_cases warn definition with ⟨literal, hliteral⟩ | ⟨found, hfound, hcases⟩
    · exact absurd (h.symm.trans hliteral) nofun
    · rcases hcases with ⟨-, result, hresult⟩ | ⟨-, hproblems⟩
      · exact absurd (h.symm.trans hresult) nofun
      · obtain rfl := Failure.problems.inj (Except.error.inj (h.symm.trans hproblems))
        obtain ⟨other, hsame, hfacts⟩ := (hfound (.notImported name node) name rfl).mp hadvised
        obtain rfl : node = other := congrArg Diagnostic.node hsame
        exact hfacts
  obtain ⟨members, hmembers⟩ := Registry.contains_iff_exists_members?.mp hcontains
  refine ⟨members, hmembers, mem_members_of_not_group hmembers, fun hmem others hothers d hd hsaid =>
    ?_, fun hmem => ?_⟩
  · rcases hclosed.resolve_cases warn (definition.importing name) with
      ⟨literal, hliteral⟩ | ⟨found, hfound, hcases⟩
    · exact absurd (hothers.symm.trans hliteral) nofun
    · rcases hcases with ⟨-, result, hresult⟩ | ⟨-, hproblems⟩
      · exact absurd (hothers.symm.trans hresult) nofun
      · obtain rfl := Failure.problems.inj (Except.error.inj (hothers.symm.trans hproblems))
        obtain ⟨_, _, _, _, hstill⟩ := (hfound d name hsaid).mp hd
        exact hstill ((imports_importing_iff hmembers).mpr (Or.inr hmem))
  · rcases hclosed.resolve_cases warn (definition.importing name) with
      hliteral | ⟨found, hfound, hcases⟩
    · exact Or.inl hliteral
    · have hagain : Diagnostic.notImported name node ∈ found :=
        (hfound (.notImported name node) name rfl).mpr ⟨node, rfl, hcontains, hrefers,
          fun himports => ((imports_importing_iff hmembers).mp himports).elim hnot hmem⟩
      rcases hcases with ⟨rfl, -⟩ | ⟨-, hproblems⟩
      · cases hagain
      · exact Or.inr ⟨found, hproblems, hagain⟩

/-- A layer type and a group that it is a member of. -/
def filterRun : List Registry.Operation :=
  [.registerLayer { name := "Blur" }, .registerGroup "Filters" ["Blur"]]

/-- A definition that imports neither of them and uses both as layers. -/
def misnamedDefinition : Definition where
  name := "Photo"
  nodes := [{ index := 0 }, { index := 1, calls := [{ name := "Blur" }, { name := "Filters" }] }]

/-- The advice helps with the layer type and not with the group. -/
theorem import_advice_helps_misnamedDefinition :
    resolve (Registry.empty.run filterRun) true misnamedDefinition = .error (.problems
      [.notImported "Blur" (some 1), .notImported "Filters" (some 1)]) ∧
    (∀ others, resolve (Registry.empty.run filterRun) true (misnamedDefinition.importing "Blur") =
        .error (.problems others) →
      ∀ d ∈ others, d.cause ≠ .unresolvedImport "Blur" "not imported") ∧
    ((∃ literal, resolve (Registry.empty.run filterRun) true
        (misnamedDefinition.importing "Filters") = .error (.unsupportedValue literal)) ∨
      ∃ others, resolve (Registry.empty.run filterRun) true
        (misnamedDefinition.importing "Filters") = .error (.problems others) ∧
        Diagnostic.notImported "Filters" (some 1) ∈ others) := by
  have hresolve : resolve (Registry.empty.run filterRun) true misnamedDefinition = .error
      (.problems [.notImported "Blur" (some 1), .notImported "Filters" (some 1)]) := rfl
  obtain ⟨_, hblur, -, hhelps, -⟩ := import_advice_helps filterRun true misnamedDefinition "Blur"
    (some 1) _ hresolve (by simp)
  obtain ⟨_, hfilters, -, -, hagain⟩ := import_advice_helps filterRun true misnamedDefinition
    "Filters" (some 1) _ hresolve (by simp)
  obtain rfl := Option.some.inj ((by decide : _ = some ["Blur"]).symm.trans hblur)
  obtain rfl := Option.some.inj ((by decide : _ = some ["Blur"]).symm.trans hfilters)
  exact ⟨hresolve, hhelps (by decide), hagain (by decide)⟩

end Shapeline
