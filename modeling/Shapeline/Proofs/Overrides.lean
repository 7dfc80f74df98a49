import Shapeline.Proofs.Resolution

/-!
# Overrides without problems

Assignments are applied one after another, and each may be rejected. Nothing is rejected exactly if
every assignment sets a parameter to a value that it accepts and no parameter is set twice, and then
the parameters are the old ones with the assigned values put in. The override blocks of a model have
no problems exactly if, for each layer type in scope, the assignments of all its blocks together
have none; blocks for different layer types do not matter to each other.
-/

namespace Shapeline

/-- An assignment sets a parameter of a layer type to a value that the parameter accepts. -/
def LayerType.Sets (layer : LayerType) (a : Assignment) (entry : String × Value) : Prop :=
  ∃ spec, layer.spec? a.key = some spec ∧ spec.Takes a.value ∧ entry = (spec.name, a.value)

/-- Assignments set parameters, none of them twice and none that was set before. -/
structure LayerType.Accepts (layer : LayerType) (seen : List String)
    (assignments : List Assignment) (entries : List (String × Value)) : Prop where
  /-- Each assignment sets a parameter. -/
  sets : List.Forall₂ layer.Sets assignments entries
  /-- No parameter is set twice. -/
  distinct : (entries.map Prod.fst).Nodup
  /-- No parameter was set before. -/
  fresh : ∀ entry ∈ entries, entry.1 ∉ seen

/-- The names of the parameters that are set after some entries. -/
def remember (seen : List String) (entries : List (String × Value)) : List String :=
  entries.foldl (fun seen entry => Names.insert entry.1 seen) seen

/-- The assignments of all override blocks for a layer type, in order. -/
def assignmentsFor (blocks : List TypeOverride) (name : String) : List Assignment :=
  (blocks.filter (·.layer = name)).flatMap (·.assignments)

variable {layer : LayerType} {seen : List String} {a : Assignment}
  {assignments assignments' more : List Assignment} {entry entry' : String × Value}
  {entries entries' : List (String × Value)} {base : Parameters} {tier name : String}
  {node : Option Int} {m merge : Merge} {registry : Registry} {layerTypes : Dictionary LayerType}
  {state next last : OverrideState} {block : TypeOverride} {blocks : List TypeOverride}

/-- An assignment sets one parameter to one value. -/
theorem LayerType.Sets.unique (h : layer.Sets a entry) (h' : layer.Sets a entry') :
    entry = entry' := by
  obtain ⟨spec, hspec, -, rfl⟩ := h
  obtain ⟨spec', hspec', -, rfl⟩ := h'
  obtain rfl := Option.some.inj (hspec.symm.trans hspec')
  rfl

namespace LayerType.Accepts

/-- No assignments are accepted without effect. -/
theorem nil_iff : layer.Accepts seen [] entries ↔ entries = [] := by
  constructor
  · exact fun h => List.forall₂_nil_left_iff.mp h.sets
  · rintro rfl
    exact ⟨.nil, List.nodup_nil, nofun⟩

/-- Of several assignments the first is accepted, and the others are after it. -/
theorem cons_iff :
    layer.Accepts seen (a :: assignments) entries ↔
      ∃ entry rest, entries = entry :: rest ∧ layer.Sets a entry ∧ entry.1 ∉ seen ∧
        layer.Accepts (Names.insert entry.1 seen) assignments rest := by
  constructor
  · rintro ⟨hsets, hdistinct, hfresh⟩
    obtain ⟨entry, rest, hentry, hrest, rfl⟩ := List.forall₂_cons_left_iff.mp hsets
    obtain ⟨hnew, hdistinct⟩ := List.nodup_cons.mp hdistinct
    obtain ⟨hfirst, hfresh⟩ := List.forall_mem_cons.mp hfresh
    refine ⟨entry, rest, rfl, hentry, hfirst, hrest, hdistinct, fun other hother hmem => ?_⟩
    rcases Names.mem_insert.mp hmem with heq | hmem
    · exact hnew (heq ▸ List.mem_map_of_mem hother)
    · exact hfresh other hother hmem
  · rintro ⟨entry, rest, rfl, hentry, hfirst, hrest⟩
    have hnew (other : String × Value) (hother : other ∈ rest) :
        other.1 ≠ entry.1 ∧ other.1 ∉ seen := by
      have hother := hrest.fresh other hother
      rw [Names.mem_insert, not_or] at hother
      exact hother
    refine ⟨.cons hentry hrest.sets, List.nodup_cons.mpr ⟨fun hmem => ?_, hrest.distinct⟩, ?_⟩
    · obtain ⟨other, hother, heq⟩ := List.mem_map.mp hmem
      exact (hnew other hother).1 heq
    · exact List.forall_mem_cons.mpr ⟨hfirst, fun other hother => (hnew other hother).2⟩

/-- Assignments in a row are accepted if the first ones are and the others are after them. -/
theorem append_iff :
    layer.Accepts seen (assignments ++ more) entries ↔
      ∃ first second, entries = first ++ second ∧ layer.Accepts seen assignments first ∧
        layer.Accepts (remember seen first) more second := by
  induction assignments generalizing seen entries with
  | nil =>
    constructor
    · exact fun h => ⟨[], entries, rfl, nil_iff.mpr rfl, h⟩
    · rintro ⟨first, second, rfl, hfirst, hsecond⟩
      obtain rfl := nil_iff.mp hfirst
      exact hsecond
  | cons a rest ih =>
    rw [List.cons_append, cons_iff]
    constructor
    · rintro ⟨entry, others, rfl, hentry, hnew, hothers⟩
      obtain ⟨first, second, rfl, hfirst, hsecond⟩ := ih.mp hothers
      exact ⟨entry :: first, second, rfl,
        cons_iff.mpr ⟨entry, first, rfl, hentry, hnew, hfirst⟩, hsecond⟩
    · rintro ⟨first, second, rfl, hfirst, hsecond⟩
      obtain ⟨entry, others, rfl, hentry, hnew, hothers⟩ := cons_iff.mp hfirst
      exact ⟨entry, others ++ second, rfl, hentry, hnew,
        ih.mpr ⟨others, second, rfl, hothers, hsecond⟩⟩

/-- The order of assignments does not matter to whether they are accepted. -/
theorem perm (h : layer.Accepts seen assignments entries) (hperm : assignments.Perm assignments') :
    ∃ entries', entries.Perm entries' ∧ layer.Accepts seen assignments' entries' := by
  obtain ⟨entries', hsets, hentries⟩ := List.perm_comp_forall₂ hperm.symm h.sets
  refine ⟨entries', hentries.symm, hsets, ?_, fun entry hentry => ?_⟩
  · exact (hentries.map Prod.fst).nodup_iff.mpr h.distinct
  · exact h.fresh entry (hentries.mem_iff.mp hentry)

/-- Accepted assignments set the parameters to one value each. -/
theorem unique (h : layer.Accepts seen assignments entries)
    (h' : layer.Accepts seen assignments entries') : entries = entries' := by
  have hsets : Relator.RightUnique layer.Sets := fun _ _ _ hentry hentry' => hentry.unique hentry'
  exact List.right_unique_forall₂' hsets h.sets h'.sets

end LayerType.Accepts

/-- Values that are put in under different names make the same mapping in any order. -/
theorem Dictionary.Same.insertAll_perm {α : Type} {d d' : Dictionary α}
    {entries entries' : List (String × α)} (h : d.Same d') (hperm : entries.Perm entries')
    (hdistinct : (entries.map Prod.fst).Nodup) :
    (d.insertAll entries).Same (d'.insertAll entries') := by
  have hdistinct' : (entries'.map Prod.fst).Nodup := (hperm.map Prod.fst).nodup_iff.mp hdistinct
  let added : Dictionary α := ⟨entries, hdistinct⟩
  let added' : Dictionary α := ⟨entries', hdistinct'⟩
  have hadded : added.Same added' := .of_perm hperm
  intro name
  change (d'.insertAll added'.entries).get? name = (d.insertAll added.entries).get? name
  rw [get?_insertAll_entries, get?_insertAll_entries, hadded name, h name]

/-- An assignment is applied without problems if it sets a parameter that was not set before. -/
theorem Merge.assign_iff :
    m.assign layer tier node a = .ok merge ∧ merge.errors = [] ↔
      m.errors = [] ∧ ∃ entry, layer.Sets a entry ∧ entry.1 ∉ m.seen ∧
        merge = ⟨m.params.insert entry.1 entry.2, [], Names.insert entry.1 m.seen⟩ := by
  constructor
  · rintro ⟨h, hnil⟩
    cases assign_eq_ok_iff.mp h with
    | set spec hspec hseen htakes =>
      have herrors : m.errors = [] := hnil
      exact ⟨herrors, (spec.name, a.value), ⟨spec, hspec, htakes, rfl⟩, hseen, by rw [herrors]⟩
    | _ => simp at hnil
  · rintro ⟨herrors, entry, ⟨spec, hspec, htakes, rfl⟩, hseen, rfl⟩
    refine ⟨assign_eq_ok_iff.mpr ?_, rfl⟩
    rw [← herrors]
    exact .set spec hspec hseen htakes

/-- The assignments of a tier are applied without problems exactly if they are accepted. -/
theorem mergeParameters_iff :
    mergeParameters layer base assignments tier node seen = .ok merge ∧ merge.errors = [] ↔
      ∃ entries, layer.Accepts seen assignments entries ∧
        merge = ⟨base.insertAll entries, [], remember seen entries⟩ := by
  have hfold (m : Merge) :
      assignments.foldlM (Merge.assign layer tier node) m = .ok merge ∧ merge.errors = [] ↔
        m.errors = [] ∧ ∃ entries, layer.Accepts m.seen assignments entries ∧
          merge = ⟨m.params.insertAll entries, [], remember m.seen entries⟩ := by
    induction assignments generalizing m with
    | nil =>
      constructor
      · rintro ⟨h, hnil⟩
        obtain rfl := pure_eq_ok_iff.mp h
        refine ⟨hnil, [], LayerType.Accepts.nil_iff.mpr rfl, ?_⟩
        obtain ⟨params, errors, seen⟩ := merge
        obtain rfl : errors = [] := hnil
        rfl
      · rintro ⟨hnil, entries, haccepts, rfl⟩
        obtain rfl := LayerType.Accepts.nil_iff.mp haccepts
        refine ⟨pure_eq_ok_iff.mpr ?_, rfl⟩
        obtain ⟨params, errors, seen⟩ := m
        obtain rfl : errors = [] := hnil
        rfl
    | cons a rest ih =>
      rw [List.foldlM_cons]
      constructor
      · rintro ⟨h, hnil⟩
        obtain ⟨next, hnext, h⟩ := bind_eq_ok_iff.mp h
        obtain ⟨hnone, entries, haccepts, rfl⟩ := (ih next).mp ⟨h, hnil⟩
        obtain ⟨herrors, entry, hentry, hnew, rfl⟩ := Merge.assign_iff.mp ⟨hnext, hnone⟩
        exact ⟨herrors, entry :: entries,
          LayerType.Accepts.cons_iff.mpr ⟨entry, entries, rfl, hentry, hnew, haccepts⟩, rfl⟩
      · rintro ⟨herrors, entries, haccepts, rfl⟩
        obtain ⟨entry, others, rfl, hentry, hnew, hothers⟩ :=
          LayerType.Accepts.cons_iff.mp haccepts
        obtain ⟨hnext, -⟩ := Merge.assign_iff.mpr ⟨herrors, entry, hentry, hnew, rfl⟩
        have hrest := (ih ⟨m.params.insert entry.1 entry.2, [], Names.insert entry.1 m.seen⟩).mpr
          ⟨rfl, others, hothers, rfl⟩
        exact ⟨bind_eq_ok_iff.mpr ⟨_, hnext, hrest.1⟩, rfl⟩
  rw [mergeParameters, hfold]
  simp

/-- A block adds its assignments to those for its layer type. -/
theorem assignmentsFor_cons_self :
    assignmentsFor (block :: blocks) block.layer =
      block.assignments ++ assignmentsFor blocks block.layer := by
  simp [assignmentsFor]

/-- A block does not add assignments for other layer types. -/
theorem assignmentsFor_cons_of_ne (h : name ≠ block.layer) :
    assignmentsFor (block :: blocks) name = assignmentsFor blocks name := by
  have hne : ¬ block.layer = name := fun heq => h heq.symm
  simp [assignmentsFor, hne]

/-- A block is applied without problems if its layer type is in scope and its assignments are
accepted after those of earlier blocks. -/
theorem OverrideState.applyBlock_iff :
    state.applyBlock registry layerTypes block = .ok next ∧ next.errors = [] ↔
      state.errors = [] ∧ ∃ layer entries, layerTypes.get? block.layer = some layer ∧
        layer.Accepts ((state.seen.get? block.layer).getD []) block.assignments entries ∧
        next = ⟨state.parameters.insert block.layer
            (((state.parameters.get? block.layer).getD .empty).insertAll entries),
          state.seen.insert block.layer
            (remember ((state.seen.get? block.layer).getD []) entries), []⟩ := by
  constructor
  · rintro ⟨h, hnil⟩
    unfold applyBlock at h
    split at h
    · obtain rfl := pure_eq_ok_iff.mp h
      simp at hnil
    · rename_i layer hlayer
      obtain ⟨merge, hmerge, h⟩ := bind_eq_ok_iff.mp h
      obtain rfl := pure_eq_ok_iff.mp h
      obtain ⟨hstate, hmerged⟩ := List.append_eq_nil_iff.mp hnil
      obtain ⟨entries, haccepts, rfl⟩ := mergeParameters_iff.mp ⟨hmerge, hmerged⟩
      exact ⟨hstate, layer, entries, hlayer, haccepts, by rw [hstate]; rfl⟩
  · rintro ⟨hstate, layer, entries, hlayer, haccepts, rfl⟩
    refine ⟨?_, rfl⟩
    have hmerge (base : Parameters) :
        mergeParameters layer base block.assignments "model-level type block" none
          ((state.seen.get? block.layer).getD []) =
          .ok ⟨base.insertAll entries, [],
            remember ((state.seen.get? block.layer).getD []) entries⟩ :=
      (mergeParameters_iff.mpr ⟨entries, haccepts, rfl⟩).1
    unfold applyBlock
    rw [hlayer]
    exact bind_eq_ok_iff.mpr ⟨_, hmerge _, by rw [hstate]; rfl⟩

/-- Override blocks that are applied without problems name layer types in scope, and for each of
these the assignments of all blocks are accepted and put in. -/
theorem accepts_of_applyBlocks
    (h : blocks.foldlM (OverrideState.applyBlock registry layerTypes) state = .ok last)
    (hnil : last.errors = []) :
    state.errors = [] ∧
      (∀ block ∈ blocks, ∃ layer, layerTypes.get? block.layer = some layer) ∧
      ∀ name layer, layerTypes.get? name = some layer → ∃ entries,
        layer.Accepts ((state.seen.get? name).getD []) (assignmentsFor blocks name) entries ∧
        ∀ base, state.parameters.get? name = some base →
          last.parameters.get? name = some (base.insertAll entries) := by
  induction blocks generalizing state with
  | nil =>
    obtain rfl := pure_eq_ok_iff.mp h
    exact ⟨hnil, nofun, fun name layer _ =>
      ⟨[], LayerType.Accepts.nil_iff.mpr rfl, fun base hbase => hbase⟩⟩
  | cons block rest ih =>
    obtain ⟨next, hnext, h⟩ := bind_eq_ok_iff.mp h
    obtain ⟨hnone, hscope, haccepts⟩ := ih h
    obtain ⟨hstate, own, entries, hown, hentries, rfl⟩ :=
      OverrideState.applyBlock_iff.mp ⟨hnext, hnone⟩
    refine ⟨hstate, List.forall_mem_cons.mpr ⟨⟨own, hown⟩, hscope⟩, fun name layer hlayer => ?_⟩
    obtain ⟨others, hothers, hlast⟩ := haccepts name layer hlayer
    simp only [Dictionary.get?_insert] at hothers hlast
    by_cases hname : name = block.layer
    · subst hname
      obtain rfl := Option.some.inj (hown.symm.trans hlayer)
      rw [if_pos rfl] at hothers hlast
      refine ⟨entries ++ others, ?_, fun base hbase => ?_⟩
      · rw [assignmentsFor_cons_self]
        exact LayerType.Accepts.append_iff.mpr ⟨entries, others, rfl, hentries, hothers⟩
      · rw [hlast _ rfl, hbase]
        exact congrArg some (List.foldl_append).symm
    · rw [if_neg hname] at hothers hlast
      rw [assignmentsFor_cons_of_ne hname]
      exact ⟨others, hothers, hlast⟩

/-- Override blocks are applied without problems if they name layer types in scope and if for each
of these the assignments of all blocks are accepted. -/
theorem exists_applyBlocks (hstate : state.errors = [])
    (hscope : ∀ block ∈ blocks, ∃ layer, layerTypes.get? block.layer = some layer)
    (haccepts : ∀ name layer, layerTypes.get? name = some layer → ∃ entries,
      layer.Accepts ((state.seen.get? name).getD []) (assignmentsFor blocks name) entries) :
    ∃ last, blocks.foldlM (OverrideState.applyBlock registry layerTypes) state = .ok last ∧
      last.errors = [] := by
  induction blocks generalizing state with
  | nil => exact ⟨state, rfl, hstate⟩
  | cons block rest ih =>
    obtain ⟨⟨own, hown⟩, hscope⟩ := List.forall_mem_cons.mp hscope
    obtain ⟨entries, hentries⟩ := haccepts block.layer own hown
    rw [assignmentsFor_cons_self] at hentries
    obtain ⟨first, second, -, hfirst, hsecond⟩ := LayerType.Accepts.append_iff.mp hentries
    have hnext : state.applyBlock registry layerTypes block = .ok _ ∧ _ :=
      OverrideState.applyBlock_iff.mpr ⟨hstate, own, first, hown, hfirst, rfl⟩
    obtain ⟨last, hlast, hnil⟩ := ih hnext.2 hscope fun name layer hlayer => by
      rw [Dictionary.get?_insert]
      split
      · rename_i hname
        subst hname
        obtain rfl := Option.some.inj (hown.symm.trans hlayer)
        exact ⟨second, hsecond⟩
      · rename_i hname
        obtain ⟨others, hothers⟩ := haccepts name layer hlayer
        rw [assignmentsFor_cons_of_ne hname] at hothers
        exact ⟨others, hothers⟩
    exact ⟨last, bind_eq_ok_iff.mpr ⟨_, hnext.1, hlast⟩, hnil⟩

end Shapeline
