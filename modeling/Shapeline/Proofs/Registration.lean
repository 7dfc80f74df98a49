import Shapeline.Proofs.Reported.Resolution

/-!
# Runs of registrations

A registry is built by registering layer types and groups one after another and, at some point,
freezing it. Any of these operations may be refused. It asks whether it is allowed before it changes
anything, so the registry it leaves is then the one it found. Whatever comes in between, every group
of a registry that starts out empty only has registered members, so resolution can look up all names
that an import brings into scope. A frozen registry does not change any more.
-/

namespace Shapeline

/-- A change of a registry that may be asked for. -/
inductive Registry.Operation
  /-- Register a layer type with default values. -/
  | register (name : String) (defaults : Parameters) (rule : Rule) (axisParameters : List String)
  /-- Register a layer type. -/
  | registerLayer (layer : LayerType)
  /-- Register a group. -/
  | registerGroup (name : String) (members : List String)
  /-- Refuse all further registrations. -/
  | freeze

namespace Registry

variable {registry next : Registry} {operation : Operation} {operations : List Operation}
  {name : String}

namespace Operation

/-- The steps of an operation. -/
def action : Operation → Registration Unit
  | register name defaults rule axisParameters =>
    discard (.defaults name defaults rule axisParameters)
  | registerLayer layer => .layer layer
  | registerGroup name members => .group name members
  | freeze => .freeze

/-- How an operation ends, with the registry that it leaves. -/
def apply (registry : Registry) (operation : Operation) : EStateM.Result Failure Registry Unit :=
  operation.action.run registry

/-- The name that an operation registers something under. -/
def subject? : Operation → Option String
  | register name _ _ _ => some name
  | registerLayer layer => some layer.name
  | registerGroup name _ => some name
  | freeze => none

/-- The default values of an operation are such as a parameter may have. -/
def Supported : Operation → Prop
  | register _ defaults _ _ => ∀ entry ∈ defaults.entries, entry.2.isAtomic = true
  | _ => True

end Operation

/-- The registry that an operation leaves, whether it is refused or not. -/
def perform (registry : Registry) (operation : Operation) : Registry :=
  match operation.apply registry with
  | .ok _ next => next
  | .error _ left => left

/-- The registry that several operations leave, each of which may be refused. -/
def run (registry : Registry) (operations : List Operation) : Registry :=
  operations.foldl perform registry

/-- What an operation that is not refused does. -/
inductive Step (registry : Registry) : Registry → Prop
  /-- A layer type gets its name, which may have been that of another one. -/
  | layer (layer : LayerType) : registry.frozen = false →
    Step registry { registry with layers := registry.layers.insert layer.name layer }
  /-- A group of registered layer types gets a name. -/
  | group (name : String) (members : List String) : registry.frozen = false →
    (∀ member ∈ members, registry.layers.contains member = true) →
    Step registry { registry with groups := registry.groups.insert name members }
  /-- The registry is frozen. -/
  | freeze : Step registry registry.freeze

end Registry

namespace Registration

variable {registry : Registry} {name : String} {layer : LayerType} {members : List String}

/-- Whatever is registered, a frozen registry is asked first. -/
theorem run_checkWritable : (checkWritable name).run registry =
    if registry.frozen then .error (.problem (.frozenRegistry name)) registry
    else .ok () registry := by
  unfold checkWritable
  cases h : registry.frozen <;> simp [h]

/-- How the registration of a layer type ends. -/
theorem run_layer : (Registration.layer layer).run registry =
    if registry.frozen then .error (.problem (.frozenRegistry layer.name)) registry
    else .ok () { registry with layers := registry.layers.insert layer.name layer } := by
  unfold Registration.layer
  rw [EStateM.run_bind, run_checkWritable]
  cases h : registry.frozen <;> simp [h]

/-- How the registration of a layer type with default values ends. -/
theorem run_defaults {defaults : Parameters} {rule : Rule} {axisParameters : List String} :
    (Registration.defaults name defaults rule axisParameters).run registry =
      match makeLayer name defaults rule axisParameters with
      | .error failure => .error failure registry
      | .ok made =>
        if registry.frozen then .error (.problem (.frozenRegistry made.name)) registry
        else .ok made { registry with layers := registry.layers.insert made.name made } := by
  unfold Registration.defaults
  rw [EStateM.run_bind]
  cases makeLayer name defaults rule axisParameters with
  | error failure => rfl
  | ok made =>
    change ((Registration.layer made >>= fun _ => pure made).run registry) = _
    rw [EStateM.run_bind, run_layer]
    cases registry.frozen <;> rfl

/-- How the registration of a group ends. -/
theorem run_group : (group name members).run registry =
    if registry.frozen then .error (.problem (.frozenRegistry name)) registry
    else match members.find? (!registry.layers.contains ·) with
      | some member => .error (.problem { Diagnostic.unknownLayer member with
          hint := some s!"register it before group '{name}'" }) registry
      | none => .ok () { registry with groups := registry.groups.insert name members } := by
  unfold group
  rw [EStateM.run_bind, run_checkWritable]
  by_cases hfrozen : registry.frozen = true
  · rw [if_pos hfrozen, if_pos hfrozen]
  · rw [if_neg hfrozen, if_neg hfrozen]
    change EStateM.run (match members.find? (!registry.layers.contains ·) with
      | some member => _
      | none => _) registry = _
    cases members.find? (!registry.layers.contains ·) <;> rfl

/-- How an operation ends whose value is not used. -/
theorem run_discard {α : Type} {operation : Registration α} :
    (discard operation).run registry =
      match operation.run registry with
      | .ok _ next => .ok () next
      | .error failure left => .error failure left := by
  change EStateM.map _ operation registry = _
  unfold EStateM.map EStateM.run
  cases operation registry <;> rfl

/-- An operation takes a step, or it is refused and leaves the registry as it was. -/
def Dependable {α : Type} (operation : Registration α) : Prop :=
  ∀ registry : Registry,
    (∃ value next, operation.run registry = .ok value next ∧ registry.Step next) ∨
      ∃ failure, operation.run registry = .error failure registry

/-- The registration of a layer type is dependable. -/
theorem dependable_layer : Dependable (.layer layer) := by
  intro registry
  rw [run_layer]
  by_cases hfrozen : registry.frozen = true
  · exact Or.inr ⟨_, if_pos hfrozen⟩
  · exact Or.inl ⟨_, _, if_neg hfrozen, .layer layer (Bool.eq_false_iff.mpr hfrozen)⟩

/-- The registration of a layer type with default values is dependable. -/
theorem dependable_defaults {defaults : Parameters} {rule : Rule} {axisParameters : List String} :
    Dependable (.defaults name defaults rule axisParameters) := by
  intro registry
  rw [run_defaults]
  cases makeLayer name defaults rule axisParameters with
  | error failure => exact Or.inr ⟨failure, rfl⟩
  | ok made =>
    by_cases hfrozen : registry.frozen = true
    · exact Or.inr ⟨_, if_pos hfrozen⟩
    · exact Or.inl ⟨_, _, if_neg hfrozen, .layer made (Bool.eq_false_iff.mpr hfrozen)⟩

/-- The registration of a group is dependable, since its members are looked up beforehand. -/
theorem dependable_group : Dependable (.group name members) := by
  intro registry
  rw [run_group]
  by_cases hfrozen : registry.frozen = true
  · exact Or.inr ⟨_, if_pos hfrozen⟩
  · rw [if_neg hfrozen]
    cases hfind : members.find? (!registry.layers.contains ·) with
    | some member => exact Or.inr ⟨_, rfl⟩
    | none =>
      have hmembers : ∀ member ∈ members, registry.layers.contains member = true := by
        simpa using List.find?_eq_none.mp hfind
      exact Or.inl ⟨_, _, rfl, .group name members (Bool.eq_false_iff.mpr hfrozen) hmembers⟩

/-- An operation stays dependable if its value is not used. -/
theorem Dependable.discard {α : Type} {operation : Registration α} (h : Dependable operation) :
    Dependable (discard operation) := by
  intro registry
  rw [run_discard]
  rcases h registry with ⟨value, next, hrun, hstep⟩ | ⟨failure, hrun⟩
  · rw [hrun]
    exact Or.inl ⟨_, _, rfl, hstep⟩
  · rw [hrun]
    exact Or.inr ⟨_, rfl⟩

end Registration

namespace Registry

variable {registry next : Registry} {operation : Operation} {operations : List Operation}
  {name : String}

/-- Every operation is dependable. -/
theorem Operation.dependable (operation : Operation) : operation.action.Dependable := by
  cases operation with
  | register => exact Registration.dependable_defaults.discard
  | registerLayer => exact Registration.dependable_layer
  | registerGroup => exact Registration.dependable_group
  | freeze => exact fun registry => Or.inl ⟨_, _, rfl, .freeze⟩

/-- An operation is carried out, or it is refused and the registry stays as it was. -/
theorem perform_cases (registry : Registry) (operation : Operation) :
    registry.Step (registry.perform operation) ∨ registry.perform operation = registry := by
  unfold perform Operation.apply
  rcases operation.dependable registry with ⟨value, next, hrun, hstep⟩ | ⟨failure, hrun⟩
  · rw [hrun]
    exact Or.inl hstep
  · rw [hrun]
    exact Or.inr rfl

/-- An operation that is refused leaves the registry as it was. -/
theorem eq_of_apply_eq_error {failure : Failure} {left : Registry}
    (h : operation.apply registry = .error failure left) : left = registry := by
  rcases operation.dependable registry with ⟨value, next, hrun, -⟩ | ⟨other, hrun⟩
  · cases h.symm.trans hrun
  · cases h.symm.trans hrun
    rfl

/-- Registering something keeps the members of groups registered. -/
theorem Step.closed (hstep : registry.Step next) (hclosed : registry.Closed) : next.Closed := by
  cases hstep with
  | layer layer =>
    intro group members hgroup member hmember
    obtain ⟨found, hfound⟩ := hclosed group members hgroup member hmember
    simp only [get?, Dictionary.get?_insert]
    split
    · exact ⟨layer, rfl⟩
    · exact ⟨found, hfound⟩
  | group name registered _ hregistered =>
    intro group members hgroup member hmember
    rw [Dictionary.get?_insert] at hgroup
    split at hgroup
    · obtain rfl := Option.some.inj hgroup
      exact Dictionary.contains_iff.mp (hregistered member hmember)
    · exact hclosed group members hgroup member hmember
  | freeze => exact hclosed

/-- A frozen registry stays frozen, and nothing else changes in it either. -/
theorem Step.eq_of_frozen (hstep : registry.Step next) (hfrozen : registry.frozen = true) :
    next = registry := by
  cases hstep with
  | layer layer hwritable => exact absurd (hfrozen.symm.trans hwritable) nofun
  | group name members hwritable => exact absurd (hfrozen.symm.trans hwritable) nofun
  | freeze =>
    unfold Registry.freeze
    rw [← hfrozen]

/-- Every operation keeps the members of groups registered. -/
theorem Closed.perform (hclosed : registry.Closed) (operation : Operation) :
    (registry.perform operation).Closed := by
  rcases registry.perform_cases operation with hstep | hsame
  · exact hstep.closed hclosed
  · rwa [hsame]

/-- No operation changes a frozen registry. -/
theorem perform_of_frozen (hfrozen : registry.frozen = true) (operation : Operation) :
    registry.perform operation = registry := by
  rcases registry.perform_cases operation with hstep | hsame
  · exact hstep.eq_of_frozen hfrozen
  · exact hsame

/-- A registration with a frozen registry is refused. -/
theorem apply_of_frozen (hfrozen : registry.frozen = true) (hsupported : operation.Supported)
    (hsubject : operation.subject? = some name) :
    operation.apply registry = .error (.problem (.frozenRegistry name)) registry := by
  cases operation with
  | register subject defaults rule axisParameters =>
    obtain rfl := Option.some.inj hsubject
    have hspecs : ∀ entry ∈ defaults.entries, ∃ spec,
        ParameterSpec.ofDefault entry.1 entry.2 none "" = .ok spec := by
      intro entry hentry
      obtain ⟨kind, hkind⟩ := Value.exists_kind (hsupported entry hentry)
      exact ⟨_, bind_eq_ok_iff.mpr ⟨kind, hkind, rfl⟩⟩
    obtain ⟨specs, hspecs⟩ := exists_forall₂ hspecs
    have hmade : Registration.makeLayer subject defaults rule axisParameters =
        .ok { name := subject, parameters := specs, rule, axisParameters } :=
      bind_eq_ok_iff.mpr ⟨specs, mapM_eq_ok_iff.mpr hspecs, rfl⟩
    have hrun : (Registration.defaults subject defaults rule axisParameters).run registry =
        .error (.problem (.frozenRegistry subject)) registry := by
      rw [Registration.run_defaults, hmade]
      exact if_pos hfrozen
    exact Registration.run_discard.trans (by rw [hrun])
  | registerLayer layer =>
    obtain rfl := Option.some.inj hsubject
    exact Registration.run_layer.trans (if_pos hfrozen)
  | registerGroup subject members =>
    obtain rfl := Option.some.inj hsubject
    exact Registration.run_group.trans (if_pos hfrozen)
  | freeze => cases hsubject

/-- A registry without groups has none with a member that is not registered. -/
theorem closed_empty : Registry.empty.Closed := nofun

/-- A run of operations keeps the members of groups registered. -/
theorem Closed.run (hclosed : registry.Closed) (operations : List Operation) :
    (registry.run operations).Closed :=
  List.foldlRecOn operations Registry.perform hclosed fun _ h operation _ => h.perform operation

/-- A run of operations does not change a frozen registry. -/
theorem run_of_frozen (hfrozen : registry.frozen = true) (operations : List Operation) :
    registry.run operations = registry :=
  List.foldlRecOn (motive := (· = registry)) operations Registry.perform rfl fun _ h operation _ =>
    h ▸ perform_of_frozen hfrozen operation

/-- A registry is frozen after a run in which it was frozen. -/
theorem frozen_run (h : .freeze ∈ operations) : (registry.run operations).frozen = true :=
  foldl_establishes (P := fun registry : Registry => registry.frozen = true) h
    (fun _ operation hfrozen => by rwa [perform_of_frozen hfrozen operation]) (fun _ => rfl)
    registry

/-- A registered layer type is looked up. -/
theorem lookup_of_get? {layer : LayerType} (h : registry.get? name = some layer) :
    registry.lookup name = .ok layer := by
  unfold lookup
  rw [h]
  rfl

/-- An import of a name brings something into scope exactly if the name is registered. -/
theorem contains_iff_exists_members? :
    registry.contains name = true ↔ ∃ members, registry.members? name = some members := by
  unfold contains members?
  rw [Bool.or_eq_true]
  cases hgroup : registry.groups.get? name with
  | some members =>
    have hcontains : registry.groups.contains name = true :=
      Dictionary.contains_iff.mpr ⟨members, hgroup⟩
    simp [hcontains]
  | none =>
    have hcontains : registry.groups.contains name = false := by
      rw [← Bool.not_eq_true, Dictionary.contains_iff, hgroup]
      nofun
    simp [hcontains]

/-- A name that is registered expands to names of registered layer types. -/
theorem Closed.expand (hclosed : registry.Closed) (h : registry.contains name = true) :
    ∃ members, registry.expand name = .ok members ∧
      ∀ member ∈ members, ∃ layer, registry.lookup member = .ok layer := by
  obtain ⟨members, hmembers⟩ := contains_iff_exists_members?.mp h
  refine ⟨members, ?_, fun member hmember => ?_⟩
  · unfold Registry.expand
    rw [hmembers]
    rfl
  · obtain ⟨layer, hlayer⟩ := hclosed.exists_of_members? hmembers member hmember
    exact ⟨layer, lookup_of_get? hlayer⟩

/-- A name that is not registered is not expanded. -/
theorem expand_of_not_contains (h : registry.contains name = false) :
    registry.expand name = .error (.problem (.unknownLayer name)) := by
  have hnone : registry.members? name = none := by
    rw [← Option.not_isSome_iff_eq_none, Option.isSome_iff_exists, ← contains_iff_exists_members?,
      h]
    nofun
  unfold Registry.expand
  rw [hnone]
  rfl

/-- After every run of operations that starts with an empty registry, all members of groups are
registered, a name expands exactly if it is registered, and to names that are looked up, and an
operation that is refused leaves the registry as it was. Once the registry has been frozen, every
registration is refused for that reason and the registry stays the same for ever. -/
theorem run_dependable (operations : List Operation) :
    (∀ group members, (empty.run operations).groups.get? group = some members →
      ∀ member ∈ members, (empty.run operations).layers.contains member = true) ∧
    (∀ name, (empty.run operations).contains name = true →
      ∃ members, (empty.run operations).expand name = .ok members ∧
        ∀ member ∈ members, ∃ layer, (empty.run operations).lookup member = .ok layer) ∧
    (∀ name, (empty.run operations).contains name = false →
      (empty.run operations).expand name = .error (.problem (.unknownLayer name))) ∧
    (∀ (operation : Operation) (failure : Failure) (left : Registry),
      operation.apply (empty.run operations) = .error failure left →
      left = empty.run operations ∧
        empty.run (operations ++ [operation]) = empty.run operations) ∧
    (.freeze ∈ operations → ∀ (operation : Operation) (name : String), operation.Supported →
      operation.subject? = some name →
      operation.apply (empty.run operations) =
        .error (.problem (.frozenRegistry name)) (empty.run operations)) ∧
    (.freeze ∈ operations → ∀ later,
      empty.run (operations ++ later) = empty.run operations) := by
  have hclosed : (empty.run operations).Closed := closed_empty.run operations
  have happend (later : List Operation) :
      empty.run (operations ++ later) = (empty.run operations).run later := List.foldl_append ..
  refine ⟨fun group members hgroup member hmember => ?_, fun name => hclosed.expand,
    fun name => expand_of_not_contains, fun operation failure left hfailure => ?_,
    fun hfreeze operation name hsupported => apply_of_frozen (frozen_run hfreeze) hsupported,
    fun hfreeze later => ?_⟩
  · exact Dictionary.contains_iff.mpr (hclosed group members hgroup member hmember)
  · have hkept := eq_of_apply_eq_error hfailure
    refine ⟨hkept, ?_⟩
    rw [happend]
    change Registry.perform _ _ = _
    unfold Registry.perform
    rw [hfailure]
    exact hkept
  · rw [happend, run_of_frozen (frozen_run hfreeze)]

/-- A run in which a layer type is registered twice, a group is refused, another one gets the name
of its member, and the registry is frozen before the end. -/
def sampleRun : List Operation :=
  [.registerLayer { name := "Blur" }, .registerGroup "Filters" ["Blur", "Sharpen"],
    .registerGroup "Blur" ["Blur"], .register "Blur" (.ofList [("radius", .int 1)]) ⟨.pointwise, 0⟩ [],
    .freeze, .registerLayer { name := "Sharpen" }]

/-- After such a run the name expands and a further registration is refused. -/
theorem run_dependable_sampleRun :
    (empty.run sampleRun).contains "Blur" = true ∧
    (∃ members, (empty.run sampleRun).expand "Blur" = .ok members ∧
      ∀ member ∈ members, ∃ layer, (empty.run sampleRun).lookup member = .ok layer) ∧
    (empty.run sampleRun).contains "Filters" = false ∧
    (empty.run sampleRun).expand "Filters" = .error (.problem (.unknownLayer "Filters")) ∧
    (Operation.registerGroup "Filters" []).apply (empty.run sampleRun) =
      .error (.problem (.frozenRegistry "Filters")) (empty.run sampleRun) ∧
    empty.run (sampleRun ++ [.registerGroup "Filters" []]) = empty.run sampleRun := by
  obtain ⟨-, hknown, hunknown, hrefused, hfrozen, -⟩ := run_dependable sampleRun
  have hblur : (empty.run sampleRun).contains "Blur" = true := by decide
  have hfilters : (empty.run sampleRun).contains "Filters" = false := by decide
  have hfreeze : Operation.freeze ∈ sampleRun := by simp [sampleRun]
  have hgroup := hfrozen hfreeze (.registerGroup "Filters" []) "Filters" trivial rfl
  exact ⟨hblur, hknown "Blur" hblur, hfilters, hunknown "Filters" hfilters, hgroup,
    (hrefused _ _ _ hgroup).2⟩

end Registry

end Shapeline
