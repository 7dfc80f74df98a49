import Shapeline.Proofs.Reported.Resolution

/-!
# One tier of assignments

The assignments of a tier are taken one after another, and each of them is either applied or
rejected with a diagnostic. Which of the two depends on the parameters that were named before it,
whether or not the assignments that named them were applied. So every assignment is accounted for
once, and a tier that is cut in two has the effect of the whole.
-/

namespace Shapeline

section Earlier

variable {α β : Type} {f g : List α → α → β} {items more : List α} {item : α} {image : β}

/-- Apply a function to every item of a list, together with the items that come before it. -/
def mapWithEarlier (f : List α → α → β) (items : List α) : List β :=
  items.mapIdx fun i item => f (items.take i) item

/-- Nothing comes before the first item, which comes before all others. -/
theorem mapWithEarlier_cons :
    mapWithEarlier f (item :: items) =
      f [] item :: mapWithEarlier (fun earlier => f (item :: earlier)) items :=
  List.mapIdx_cons

/-- The items of the first of two lists come before those of the second. -/
theorem mapWithEarlier_append :
    mapWithEarlier f (items ++ more) =
      mapWithEarlier f items ++ mapWithEarlier (fun earlier => f (items ++ earlier)) more := by
  induction items generalizing f with
  | nil => rfl
  | cons item rest ih =>
    rw [List.cons_append, mapWithEarlier_cons, mapWithEarlier_cons, ih, List.cons_append]
    rfl

/-- The function is applied to every item with the part of the list before it. -/
theorem mem_mapWithEarlier :
    image ∈ mapWithEarlier f items ↔
      ∃ earlier item later, items = earlier ++ item :: later ∧ f earlier item = image := by
  constructor
  · intro h
    obtain ⟨i, hi, himage⟩ := List.mem_mapIdx.mp h
    refine ⟨items.take i, items[i], items.drop (i + 1), ?_, himage⟩
    rw [← List.drop_eq_getElem_cons hi, List.take_append_drop]
  · rintro ⟨earlier, item, later, rfl, rfl⟩
    rw [mapWithEarlier_append, mapWithEarlier_cons, List.append_nil]
    exact List.mem_append_right _ List.mem_cons_self

/-- Only what the function does to items and the items before them matters. -/
theorem mapWithEarlier_congr (h : ∀ earlier item, f earlier item = g earlier item) :
    mapWithEarlier f items = mapWithEarlier g items := by
  unfold mapWithEarlier
  simp only [h]

end Earlier

/-- What becomes of an assignment. -/
inductive Verdict
  /-- It gives a parameter a value. -/
  | applied (name : String) (value : Value)
  /-- It is left out, for a reason. -/
  | rejected (problem : Diagnostic)

namespace Verdict

/-- The parameter that is set and its value. -/
def entry? : Verdict → Option (String × Value)
  | applied name value => some (name, value)
  | rejected _ => none

/-- The reason why an assignment is left out. -/
def problem? : Verdict → Option Diagnostic
  | applied _ _ => none
  | rejected problem => some problem

end Verdict

/-- Whether a parameter accepts a value is decided by their kinds. -/
instance (spec : ParameterSpec) (v : Value) : Decidable (spec.Takes v) :=
  match h : ValueKind.ofValue v with
  | .ok given => decidable_of_iff (spec.kind.accepts given = true)
      ⟨fun haccepts => ⟨given, h, haccepts⟩, fun ⟨_, hgiven, haccepts⟩ =>
        Except.ok.inj (h.symm.trans hgiven) ▸ haccepts⟩
  | .error _ => isFalse fun ⟨_, hgiven, _⟩ => nomatch h.symm.trans hgiven

namespace LayerType

/-- The names of the parameters that assignments name, by their names or their short names. -/
def named (layer : LayerType) (assignments : List Assignment) : List String :=
  assignments.filterMap fun a => (layer.spec? a.key).map (·.name)

/-- What becomes of an assignment after some parameters have been named: its key must be that of a
parameter, the parameter must not be among those that were named, and it must accept the value. -/
def judge (layer : LayerType) (tier : String) (node : Option Int) (taken : List String)
    (a : Assignment) : Verdict :=
  match layer.spec? a.key with
  | none => .rejected (.unknownParameter layer.name a.key node layer.parameterNames)
  | some spec =>
    if spec.name ∈ taken then .rejected (.duplicateOverride layer.name spec.name tier node)
    else if spec.Takes a.value then .applied spec.name a.value
    else .rejected
      (.valueType (some layer.name) spec.name spec.kind.name a.value.literal node)

/-- What becomes of the assignments of a tier. Each is judged after those before it. -/
def verdicts (layer : LayerType) (tier : String) (node : Option Int) (seen : List String)
    (assignments : List Assignment) : List Verdict :=
  mapWithEarlier (fun earlier a => layer.judge tier node (seen ++ layer.named earlier) a)
    assignments

/-- The diagnostics of the assignments of a tier that are rejected, in order. -/
def rejections (layer : LayerType) (tier : String) (node : Option Int) (seen : List String)
    (assignments : List Assignment) : List Diagnostic :=
  (layer.verdicts tier node seen assignments).filterMap Verdict.problem?

/-- An assignment that comes after others sets a parameter: its key is that of the parameter, which
accepts the value and which nothing has named before. -/
structure Applies (layer : LayerType) (seen : List String) (earlier : List Assignment)
    (a : Assignment) (spec : ParameterSpec) : Prop where
  /-- The key is that of the parameter. -/
  names : layer.spec? a.key = some spec
  /-- The parameter was not named before the tier. -/
  fresh : spec.name ∉ seen
  /-- No earlier assignment names the parameter. -/
  first : spec.name ∉ layer.named earlier
  /-- The parameter accepts the value. -/
  takes : spec.Takes a.value

end LayerType

variable {layer : LayerType} {tier name : String} {node : Option Int} {seen seen' : List String}
  {a : Assignment} {assignments earlier later : List Assignment} {spec : ParameterSpec}
  {m next last merge : Merge} {base : Parameters} {value : Value}

namespace LayerType

/-- Parameters are named by the assignments of both parts of a list. -/
@[simp] theorem named_append :
    layer.named (assignments ++ later) = layer.named assignments ++ layer.named later :=
  List.filterMap_append

/-- A verdict depends on which parameters were named, not on how often or in which order. -/
theorem judge_congr (h : ∀ name, name ∈ seen ↔ name ∈ seen') :
    layer.judge tier node seen a = layer.judge tier node seen' a := by
  unfold judge
  simp only [h]

/-- The verdicts on a tier depend on which parameters were named before. -/
theorem verdicts_congr (h : ∀ name, name ∈ seen ↔ name ∈ seen') :
    layer.verdicts tier node seen assignments = layer.verdicts tier node seen' assignments :=
  mapWithEarlier_congr fun _ _ => judge_congr fun name => by
    rw [List.mem_append, List.mem_append, h]

/-- The first assignment is judged by itself and the others after it. -/
theorem verdicts_cons :
    layer.verdicts tier node seen (a :: assignments) =
      layer.judge tier node seen a ::
        layer.verdicts tier node (seen ++ layer.named [a]) assignments := by
  unfold verdicts
  rw [mapWithEarlier_cons, named, List.filterMap_nil, List.append_nil]
  refine congrArg _ (mapWithEarlier_congr fun earlier item => ?_)
  rw [List.append_assoc, ← named_append, List.singleton_append]

/-- An assignment that sets a parameter is applied to it, and no other one is. -/
theorem judge_eq_applied_iff :
    layer.judge tier node (seen ++ layer.named earlier) a = .applied name value ↔
      ∃ spec, layer.Applies seen earlier a spec ∧ name = spec.name ∧ value = a.value := by
  unfold judge
  constructor
  · intro h
    split at h
    · cases h
    · rename_i spec hspec
      split at h
      · cases h
      · rename_i hnew
        rw [List.mem_append, not_or] at hnew
        split at h
        · rename_i htakes
          obtain ⟨rfl, rfl⟩ := Verdict.applied.inj h
          exact ⟨spec, ⟨hspec, hnew.1, hnew.2, htakes⟩, rfl, rfl⟩
        · cases h
  · rintro ⟨spec, ⟨hspec, hfresh, hfirst, htakes⟩, rfl, rfl⟩
    rw [hspec]
    simp only [List.mem_append, hfresh, hfirst, or_self, if_false, htakes, if_true]

/-- The parameters that a tier sets are those that its assignments set in their turn. -/
theorem mem_entries_iff :
    (name, value) ∈ (layer.verdicts tier node seen assignments).filterMap Verdict.entry? ↔
      ∃ earlier a later spec, assignments = earlier ++ a :: later ∧
        layer.Applies seen earlier a spec ∧ name = spec.name ∧ value = a.value := by
  have hentry (v : Verdict) : v.entry? = some (name, value) ↔ v = .applied name value := by
    cases v <;> simp [Verdict.entry?]
  simp only [List.mem_filterMap, hentry, exists_eq_right, verdicts, mem_mapWithEarlier,
    judge_eq_applied_iff, exists_and_left]

/-- A tier sets every parameter once at most, and none that was named before. -/
theorem nodup_entries (layer : LayerType) (tier : String) (node : Option Int) (seen : List String)
    (assignments : List Assignment) :
    (((layer.verdicts tier node seen assignments).filterMap Verdict.entry?).map
      Prod.fst).Nodup := by
  induction assignments generalizing seen with
  | nil => exact List.nodup_nil
  | cons a rest ih =>
    rw [verdicts_cons]
    cases hverdict : layer.judge tier node seen a with
    | rejected problem => exact ih _
    | applied name value =>
      refine List.nodup_cons.mpr ⟨fun hmem => ?_, ih _⟩
      obtain ⟨⟨other, otherValue⟩, hother, rfl⟩ := List.mem_map.mp hmem
      obtain ⟨earlier, b, later, spec, -, happlies, rfl, -⟩ := mem_entries_iff.mp hother
      have hverdict : layer.judge tier node (seen ++ layer.named []) a =
          .applied spec.name value := by rwa [named, List.filterMap_nil, List.append_nil]
      obtain ⟨found, hfound, hname, -⟩ := judge_eq_applied_iff.mp hverdict
      refine happlies.fresh (List.mem_append_right _ (List.mem_filterMap.mpr ⟨a, ?_⟩))
      simp [hfound.names, hname]

/-- Every assignment has one verdict, by which it either sets a parameter or is rejected. -/
theorem length_entries_add_length_rejections :
    ((layer.verdicts tier node seen assignments).filterMap Verdict.entry?).length +
      (layer.rejections tier node seen assignments).length = assignments.length := by
  have hsplit (verdicts : List Verdict) : (verdicts.filterMap Verdict.entry?).length +
      (verdicts.filterMap Verdict.problem?).length = verdicts.length := by
    induction verdicts with
    | nil => rfl
    | cons verdict rest ih =>
      rw [List.length_cons, ← ih]
      cases verdict with
      | applied name value => exact Nat.succ_add ..
      | rejected problem => rfl
  rw [rejections, hsplit, verdicts, mapWithEarlier, List.length_mapIdx]

end LayerType

/-- Parameters have gone through some verdicts, in which parameters of the given names were
named. -/
structure Merge.Follows (verdicts : List Verdict) (names : List String) (m next : Merge) :
    Prop where
  /-- What is applied is set. -/
  params : next.params = m.params.insertAll (verdicts.filterMap Verdict.entry?)
  /-- The reasons of what is rejected are reported. -/
  errors : next.errors = m.errors ++ verdicts.filterMap Verdict.problem?
  /-- What is named is remembered. -/
  seen : ∀ name, name ∈ next.seen ↔ name ∈ m.seen ∨ name ∈ names

/-- One list of verdicts after another is the list of both. -/
theorem Merge.Follows.trans {verdicts verdicts' : List Verdict} {names names' : List String}
    (h : Merge.Follows verdicts names m next) (h' : Merge.Follows verdicts' names' next last) :
    Merge.Follows (verdicts ++ verdicts') (names ++ names') m last := by
  refine ⟨?_, ?_, fun name => ?_⟩
  · rw [h'.params, h.params, List.filterMap_append]
    exact List.foldl_append.symm
  · rw [h'.errors, h.errors, List.filterMap_append, List.append_assoc]
  · rw [h'.seen, h.seen, List.mem_append, or_assoc]

/-- An assignment has the effect of the verdict on it. -/
theorem Merge.returns_assign (ha : a.value.isAtomic = true) :
    Returns (Merge.Follows [layer.judge tier node m.seen a] (layer.named [a]) m)
      (m.assign layer tier node a) := by
  obtain ⟨next, hnext⟩ := m.exists_assign ha
  refine ⟨next, hnext, ?_⟩
  have hinsert {spec : ParameterSpec} (hspec : layer.spec? a.key = some spec) (name : String) :
      name ∈ Names.insert spec.name m.seen ↔ name ∈ m.seen ∨ name ∈ layer.named [a] := by
    simp [LayerType.named, hspec, Names.mem_insert, or_comm]
  unfold LayerType.judge
  cases assign_eq_ok_iff.mp hnext with
  | unknown hspec =>
    rw [hspec]
    exact ⟨rfl, rfl, fun name => by simp [LayerType.named, hspec]⟩
  | duplicate spec hspec hseen =>
    rw [hspec]
    simp only [if_pos hseen]
    refine ⟨rfl, rfl, fun name => ?_⟩
    rw [← hinsert hspec, Names.mem_insert, or_iff_right_of_imp]
    exact fun hname => hname ▸ hseen
  | wrong spec given hspec hseen hgiven hrefuses =>
    have hrejects : ¬ spec.Takes a.value := by simp [ParameterSpec.Takes, hgiven, hrefuses]
    rw [hspec]
    simp only [if_neg hseen, if_neg hrejects]
    exact ⟨rfl, rfl, hinsert hspec⟩
  | set spec hspec hseen htakes =>
    rw [hspec]
    simp only [if_neg hseen, if_pos htakes]
    exact ⟨rfl, (List.append_nil _).symm, hinsert hspec⟩

/-- The assignments of a tier have the effects of the verdicts on them. -/
theorem returns_assignments (h : ∀ a ∈ assignments, a.value.isAtomic = true) (m : Merge) :
    Returns
      (Merge.Follows (layer.verdicts tier node m.seen assignments) (layer.named assignments) m)
      (assignments.foldlM (Merge.assign layer tier node) m) := by
  induction assignments generalizing m with
  | nil => exact .of_pure ⟨rfl, (List.append_nil _).symm, fun name => by simp [LayerType.named]⟩
  | cons a rest ih =>
    obtain ⟨hfirst, hrest⟩ := List.forall_mem_cons.mp h
    rw [List.foldlM_cons]
    refine (Merge.returns_assign hfirst).of_bind fun next hnext => ?_
    obtain ⟨last, hlast, hfollows⟩ := ih hrest next
    refine ⟨last, hlast, ?_⟩
    have hseen (name : String) : name ∈ next.seen ↔ name ∈ m.seen ++ layer.named [a] := by
      rw [hnext.seen, List.mem_append]
    rw [LayerType.verdicts_congr hseen] at hfollows
    rw [LayerType.verdicts_cons, ← List.singleton_append (l := rest), LayerType.named_append]
    exact hnext.trans hfollows

/-- A tier of assignments has the effects of the verdicts on them. -/
theorem returns_verdicts (h : ∀ a ∈ assignments, a.value.isAtomic = true) :
    Returns (Merge.Follows (layer.verdicts tier node seen assignments) (layer.named assignments)
      { params := base, seen }) (mergeParameters layer base assignments tier node seen) :=
  returns_assignments h _

/-- Diagnostics that were reported before an assignment stay in front of its own. -/
theorem Merge.assign_after (errors : List Diagnostic) :
    Merge.assign layer tier node { m with errors := errors ++ m.errors } a = (do
      let next ← m.assign layer tier node a
      pure { next with errors := errors ++ next.errors }) := by
  unfold assign
  cases layer.spec? a.key with
  | none => simp only [pure_bind, List.append_assoc]
  | some spec =>
    dsimp only
    split
    · simp only [pure_bind, List.append_assoc]
    · rw [bind_assoc]
      refine bind_congr fun given => ?_
      split
      · rfl
      · simp only [pure_bind, List.append_assoc]

/-- Diagnostics that were reported before some assignments stay in front of theirs. -/
theorem foldlM_assign_after (errors : List Diagnostic) :
    assignments.foldlM (Merge.assign layer tier node) { m with errors := errors ++ m.errors } = (do
      let next ← assignments.foldlM (Merge.assign layer tier node) m
      pure { next with errors := errors ++ next.errors }) := by
  induction assignments generalizing m with
  | nil => rfl
  | cons a rest ih =>
    simp only [List.foldlM_cons, Merge.assign_after, bind_assoc, pure_bind, ih]

/-- A tier may be split anywhere: its parts are applied one after the other, the second to what the
first has made and with the names that it has seen. -/
theorem mergeParameters_append :
    mergeParameters layer base (assignments ++ later) tier node seen = (do
      let m ← mergeParameters layer base assignments tier node seen
      let next ← mergeParameters layer m.params later tier node m.seen
      pure { next with errors := m.errors ++ next.errors }) := by
  unfold mergeParameters
  rw [List.foldlM_append]
  refine bind_congr fun m => ?_
  have hlater : later.foldlM (Merge.assign layer tier node)
      { params := m.params, errors := m.errors ++ [], seen := m.seen } = _ :=
    foldlM_assign_after (m := { params := m.params, seen := m.seen }) m.errors
  rw [List.append_nil] at hlater
  exact hlater

/-- **The assignments of a tier are accounted for, and the tier may be split anywhere.** Whatever
was set before, assignments of values that a parameter may have are taken through without failure.
An assignment is applied exactly if its key is that of a parameter that was not named before,
neither before the tier nor by an earlier assignment, and that accepts the value. For each of the
others there is one diagnostic, in order. Parameters that are not assigned keep their values. The
tier in one piece has the result of its parts, the second applied to what the first has made. -/
theorem assignments_accounted (layer : LayerType) (base : Parameters) (seen : List String)
    (assignments : List Assignment) (tier : String) (node : Option Int)
    (hvalues : ∀ a ∈ assignments, a.value.isAtomic = true) :
    (∃ merge applied, mergeParameters layer base assignments tier node seen = .ok merge ∧
      (∀ name value, (name, value) ∈ applied ↔ ∃ earlier a later spec,
        assignments = earlier ++ a :: later ∧ layer.Applies seen earlier a spec ∧
          name = spec.name ∧ value = a.value) ∧
      merge.params = base.insertAll applied ∧
      (∀ name value, (name, value) ∈ applied → merge.params.get? name = some value) ∧
      (∀ name, name ∉ applied.map Prod.fst → merge.params.get? name = base.get? name) ∧
      merge.errors = layer.rejections tier node seen assignments ∧
      applied.length + merge.errors.length = assignments.length ∧
      ∀ name, name ∈ merge.seen ↔ name ∈ seen ∨ name ∈ layer.named assignments) ∧
    ∀ first second, assignments = first ++ second →
      mergeParameters layer base assignments tier node seen = (do
        let m ← mergeParameters layer base first tier node seen
        let next ← mergeParameters layer m.params second tier node m.seen
        pure { next with errors := m.errors ++ next.errors }) := by
  refine ⟨?_, fun first second hsplit => hsplit ▸ mergeParameters_append⟩
  have hreturns : Returns (Merge.Follows (layer.verdicts tier node seen assignments)
      (layer.named assignments) { params := base, seen })
      (mergeParameters layer base assignments tier node seen) := returns_verdicts hvalues
  obtain ⟨merge, hmerge, hparams, herrors, hseen⟩ := hreturns
  rw [List.nil_append] at herrors
  let entries := (layer.verdicts tier node seen assignments).filterMap Verdict.entry?
  let applied : Parameters := ⟨entries, layer.nodup_entries tier node seen assignments⟩
  have hget (name : String) :
      merge.params.get? name = (applied.get? name).or (base.get? name) := by
    rw [hparams]
    change (base.insertAll applied.entries).get? name = _
    exact Dictionary.get?_insertAll_entries
  refine ⟨merge, entries, hmerge, fun name value => LayerType.mem_entries_iff, hparams,
    fun name value hmem => ?_, fun name hmem => ?_, herrors, ?_, hseen⟩
  · rw [hget, Dictionary.mem_entries_iff.mp (hmem : (name, value) ∈ applied.entries),
      Option.some_or]
  · have hnone : applied.get? name = none := by
      by_contra hsome
      obtain ⟨value, hvalue⟩ := Option.ne_none_iff_exists'.mp hsome
      exact hmem (List.mem_map_of_mem (Dictionary.mem_entries_iff.mpr hvalue))
    rw [hget, hnone, Option.none_or]
  · rw [herrors]
    exact LayerType.length_entries_add_length_rejections

/-- A layer type with two parameters of its own and a flag. -/
def blurLayer : LayerType where
  name := "Blur"
  parameters := [{ name := "radius", default := .int 1, shortName := some "r", kind := .uint },
    { name := "sigma", kind := .dim }, { name := "edges", default := .bool true, kind := .bool }]

/-- A tier in which most is wrong: only the first assignment is applied. -/
def faultyTier : List Assignment :=
  [⟨"r", .int 2⟩, ⟨"depth", .int 1⟩, ⟨"radius", .int 3⟩, ⟨"sigma", .text "wide"⟩,
    ⟨"sigma", .int 4⟩, ⟨"edges", .bool false⟩]

/-- The radius is set by its short name and not again. The width is of the wrong kind, but counts as
named from then on, as the flag does that was set before. -/
theorem assignments_accounted_faultyTier :
    (∀ a ∈ faultyTier, a.value.isAtomic = true) ∧
    ∃ merge, mergeParameters blurLayer blurLayer.defaults faultyTier "override block" none
        ["edges"] = .ok merge ∧
      merge.params.get? "radius" = some (.int 2) ∧
      merge.params.get? "edges" = some (.bool true) ∧
      merge.params.get? "sigma" = none ∧
      merge.errors = [.unknownParameter "Blur" "depth" none ["radius", "sigma", "edges"],
        .duplicateOverride "Blur" "radius" "override block" none,
        .valueType (some "Blur") "sigma" "dim" "'wide'" none,
        .duplicateOverride "Blur" "sigma" "override block" none,
        .duplicateOverride "Blur" "edges" "override block" none] := by
  have hvalues : ∀ a ∈ faultyTier, a.value.isAtomic = true := by simp [faultyTier, Value.isAtomic]
  obtain ⟨⟨merge, applied, hmerge, happlied, hparams, hset, hkept, herrors, hcount, -⟩, -⟩ :=
    assignments_accounted blurLayer blurLayer.defaults ["edges"] faultyTier "override block" none
      hvalues
  have hproblems : blurLayer.rejections "override block" none ["edges"] faultyTier =
      [.unknownParameter "Blur" "depth" none ["radius", "sigma", "edges"],
        .duplicateOverride "Blur" "radius" "override block" none,
        .valueType (some "Blur") "sigma" "dim" "'wide'" none,
        .duplicateOverride "Blur" "sigma" "override block" none,
        .duplicateOverride "Blur" "edges" "override block" none] := by rfl
  have hradius : ("radius", .int 2) ∈ applied :=
    (happlied _ _).mpr ⟨[], _, _, _, rfl, ⟨rfl, by decide, by decide, ⟨_, rfl, rfl⟩⟩, rfl, rfl⟩
  have hone : applied = [("radius", .int 2)] := by
    rw [herrors, hproblems] at hcount
    obtain ⟨entry, hentry⟩ := List.length_eq_one_iff.mp (Nat.add_right_cancel (m := 5) hcount)
    rw [hentry, List.mem_singleton] at hradius
    rw [hentry, ← hradius]
  refine ⟨hvalues, merge, hmerge, hset _ _ hradius, ?_, ?_, herrors.trans hproblems⟩
  · rw [hkept "edges" (by simp [hone])]
    rfl
  · rw [hkept "sigma" (by simp [hone])]
    rfl

end Shapeline
