import Shapeline.Proofs.Lowered
import Shapeline.Proofs.Unrolling.Planning

/-!
# Lowering unrolled programs

A program with its repetitions spelled out, and with plain lines in place of inline models that
declare no shapes, is lowered to the unrolled form of its definition. Two kinds of calls get lost on
the way: those that stand beside such an inline model, which the original program lowers and then
leaves out, and those in an inline model at the input, which only the unrolled program lowers. Where
all of these can be lowered, either program is lowered if the other one is.
-/

namespace Shapeline

/-- The calls that a call with repetitions stands for. A call whose number of repetitions is wrong
stays. -/
def LayerCall.unrolled (call : LayerCall) : List LayerCall :=
  match repetitions? call.repetitions with
  | some count => List.replicate count { call with repetitions := .int 1 }
  | none => [call]

/-- A node line with its repetitions spelled out. -/
def NodeLine.unrolled (line : NodeLine) : NodeLine :=
  { line with calls := line.calls.flatMap LayerCall.unrolled }

/-- An inline model with the repetitions in its lines spelled out. -/
def InlineBlock.unrolled (block : InlineBlock) : InlineBlock :=
  { block with lines := block.lines.map fun line => { line.toNodeLine.unrolled with
      nested := line.nested } }

/-- Whether no line of an inline model declares a shape. -/
def InlineBlock.isShapeless (block : InlineBlock) : Bool := block.lines.all (·.shape.isNone)

/-- The calls in the lines of an inline model, one line after another. -/
def InlineBlock.calls (block : InlineBlock) : List LayerCall := block.lines.flatMap (·.calls)

/-- A line with its repetitions spelled out. In place of an inline model whose lines declare no
shapes stand the calls of these lines. -/
def OuterLine.unrolled (line : OuterLine) : OuterLine :=
  match line.model with
  | none => { line.toNodeLine.unrolled with }
  | some block =>
    if block.isShapeless then
      { line with calls := block.calls.flatMap LayerCall.unrolled, model := none }
    else { line.toNodeLine.unrolled with model := some block.unrolled }

/-- A program with its repetitions spelled out, and without inline models whose lines declare no
shapes. -/
def Program.unrolled (program : Program) : Program :=
  { program with model := program.model.map fun block =>
      { block with lines := block.lines.map OuterLine.unrolled } }

/-- A call at a node is lowered without diagnostics. -/
def LayerCall.Lowers (node : Int) (call : LayerCall) : Prop :=
  ∃ spec, lowerCall node call = .ok (spec, [])

/-- A node line is lowered without diagnostics. -/
def NodeLine.Lowers (node : Int) (line : NodeLine) : Prop :=
  ∃ spec, lowerLine node line = .ok (spec, [])

/-- The numbers of repetitions in a node line are positive integers. -/
def NodeLine.Repeats (line : NodeLine) : Prop :=
  ∀ call ∈ line.calls, (repetitions? call.repetitions).isSome = true

/-- An inline model holds plain node lines only, which are numbered from one. -/
structure InlineBlock.Plain (block : InlineBlock) : Prop where
  /-- It has no variables. -/
  declarations : block.declarations = []
  /-- It has no override blocks. -/
  typeBlocks : block.typeBlocks = []
  /-- No line holds a model. -/
  unnested : ∀ line ∈ block.lines, line.nested = false
  /-- The lines are numbered from one. -/
  numbered : block.lines.map (·.index) =
    (List.range block.lines.length).map fun (i : Nat) => 1 + (i : Int)
  /-- The numbers of repetitions are positive integers. -/
  repeated : ∀ line ∈ block.lines, line.toNodeLine.Repeats

/-- The numbers of repetitions in a line are positive integers, and its inline model is plain. -/
structure OuterLine.Plain (line : OuterLine) : Prop where
  /-- The numbers of repetitions are positive integers. -/
  repeated : line.toNodeLine.Repeats
  /-- The inline model is plain. -/
  model : ∀ block, line.model = some block → block.Plain

/-- The calls that get lost when a plain line is lowered or unrolled can be lowered: those beside an
inline model whose lines declare no shapes, and those in it if it stands at the input. -/
structure OuterLine.Unrollable (line : OuterLine) : Prop extends line.Plain where
  /-- The calls beside an inline model that declares no shapes can be lowered. -/
  beside : ∀ block, line.model = some block → block.isShapeless = true →
    ∀ call ∈ line.calls, call.Lowers line.index
  /-- The calls in such a model can be lowered if it stands at the input. -/
  input : line.index = 0 → ∀ block, line.model = some block → block.isShapeless = true →
    ∀ call ∈ block.calls, call.Lowers line.index

/-- All lines of a program are plain. -/
def Program.Plain (program : Program) : Prop :=
  ∀ block, program.model = some block → ∀ line ∈ block.lines, line.Plain

/-- All lines of a program can be unrolled. -/
def Program.Unrollable (program : Program) : Prop :=
  ∀ block, program.model = some block → ∀ line ∈ block.lines, line.Unrollable

instance (line : NodeLine) : Decidable line.Repeats :=
  inferInstanceAs (Decidable (∀ call ∈ line.calls, _))

instance (block : InlineBlock) : Decidable block.Plain :=
  decidable_of_iff (block.declarations = [] ∧ block.typeBlocks = [] ∧
      (∀ line ∈ block.lines, line.nested = false) ∧
      block.lines.map (·.index) =
        (List.range block.lines.length).map (fun (i : Nat) => 1 + (i : Int)) ∧
      ∀ line ∈ block.lines, line.toNodeLine.Repeats)
    ⟨fun ⟨declarations, typeBlocks, unnested, numbered, repeated⟩ =>
      { declarations, typeBlocks, unnested, numbered, repeated },
     fun h => ⟨h.declarations, h.typeBlocks, h.unnested, h.numbered, h.repeated⟩⟩

instance (line : OuterLine) : Decidable line.Plain :=
  decidable_of_iff (line.toNodeLine.Repeats ∧ ∀ block ∈ line.model, block.Plain)
    ⟨fun ⟨repeated, model⟩ => { repeated, model }, fun h => ⟨h.repeated, h.model⟩⟩

instance (program : Program) : Decidable program.Plain :=
  inferInstanceAs (Decidable (∀ block ∈ program.model, ∀ line ∈ block.lines, line.Plain))

variable {node : Int} {call : LayerCall} {calls : List LayerCall} {spec : CallSpec}
  {specs : List CallSpec} {line : OuterLine} {block : InlineBlock} {lines : List LineSpec}
  {n n' : NodeSpec} {program : Program} {definition definition' : Definition}

/-- A positive number of repetitions is at least one. -/
theorem one_le_of_repetitions? {value : Value} {count : Nat}
    (h : repetitions? value = some count) : 1 ≤ count := by
  unfold repetitions? at h
  split at h
  · split at h
    · obtain rfl := Option.some.inj h
      omega
    · cases h
  · cases h

/-- The calls that a lowered call stands for are lowered to the uses that its own one stands for. -/
theorem forall₂_lowerCall_unrolled (h : lowerCall node call = .ok (spec, [])) :
    List.Forall₂ (fun call spec => lowerCall node call = .ok (spec, [])) call.unrolled
      spec.unrolled := by
  obtain ⟨overrides, count, hoverrides, hcount, rfl⟩ := lowerCall_eq_nil_iff.mp h
  have hcopy : lowerCall node { call with repetitions := .int 1 } =
      .ok (⟨call.name, overrides, 1⟩, []) :=
    lowerCall_eq_nil_iff.mpr ⟨overrides, 1, hoverrides, rfl, rfl⟩
  unfold LayerCall.unrolled CallSpec.unrolled
  rw [hcount]
  exact List.forall₂_iff_get.mpr ⟨by simp, fun i hi hi' => by simpa using hcopy⟩

/-- Lowered calls are unrolled to lowered calls. -/
theorem forall₂_lowerCalls_unrolled
    (h : List.Forall₂ (fun call spec => lowerCall node call = .ok (spec, [])) calls specs) :
    List.Forall₂ (fun call spec => lowerCall node call = .ok (spec, []))
      (calls.flatMap LayerCall.unrolled) (specs.flatMap CallSpec.unrolled) :=
  List.rel_flatMap h fun _ _ hcall => forall₂_lowerCall_unrolled hcall

/-- A call is lowered if those that it stands for are. -/
theorem LayerCall.lowers_of_unrolled (h : ∀ copy ∈ call.unrolled, copy.Lowers node) :
    call.Lowers node := by
  unfold unrolled at h
  split at h
  · rename_i count hcount
    have hpositive := one_le_of_repetitions? hcount
    obtain ⟨spec, hspec⟩ := h _ (List.mem_replicate.mpr ⟨by omega, rfl⟩)
    obtain ⟨overrides, _, hoverrides, -, -⟩ := lowerCall_eq_nil_iff.mp hspec
    exact ⟨_, lowerCall_eq_nil_iff.mpr ⟨overrides, count, hoverrides, hcount, rfl⟩⟩
  · exact h call (List.mem_singleton_self call)

/-- Calls are lowered if and only if those that they stand for are. -/
theorem lowers_unrolled_iff :
    (∀ call ∈ calls.flatMap LayerCall.unrolled, call.Lowers node) ↔
      ∀ call ∈ calls, call.Lowers node := by
  constructor
  · intro h call hcall
    exact LayerCall.lowers_of_unrolled fun copy hcopy =>
      h copy (List.mem_flatMap.mpr ⟨call, hcall, hcopy⟩)
  · intro h copy hcopy
    obtain ⟨call, hcall, hcopy⟩ := List.mem_flatMap.mp hcopy
    obtain ⟨spec, hspec⟩ := h call hcall
    obtain ⟨lowered, -, hlowered⟩ := exists_of_mem_left (forall₂_lowerCall_unrolled hspec) hcopy
    exact ⟨lowered, hlowered⟩

/-- A node line is lowered if its calls and its declared shape are. -/
theorem NodeLine.lowers_iff {line : NodeLine} :
    line.Lowers node ↔ (∀ call ∈ line.calls, call.Lowers node) ∧
      ∃ declared, LowersShape node line.shape declared := by
  constructor
  · rintro ⟨spec, hspec⟩
    obtain ⟨calls, declared, hcalls, hdeclared, -⟩ := lowerLine_eq_nil_iff.mp hspec
    refine ⟨fun call hcall => ?_, declared, hdeclared⟩
    obtain ⟨found, -, hfound⟩ := exists_of_mem_left hcalls hcall
    exact ⟨found, hfound⟩
  · rintro ⟨hcalls, declared, hdeclared⟩
    obtain ⟨calls, hcalls⟩ := exists_forall₂ hcalls
    exact ⟨_, lowerLine_eq_nil_iff.mpr ⟨calls, declared, hcalls, hdeclared, rfl⟩⟩

/-- A node line is lowered if and only if its unrolled form is. -/
theorem NodeLine.lowers_unrolled_iff {line : NodeLine} :
    line.unrolled.Lowers node ↔ line.Lowers node := by
  rw [lowers_iff, lowers_iff, unrolled, Shapeline.lowers_unrolled_iff]

/-- A lowered node line is unrolled to a lowered line. -/
theorem NodeLine.lowerLine_unrolled {line : NodeLine} {spec : LineSpec}
    (h : lowerLine node line = .ok (spec, [])) :
    lowerLine node line.unrolled = .ok (spec.unrolled, []) := by
  obtain ⟨calls, declared, hcalls, hdeclared, rfl⟩ := lowerLine_eq_nil_iff.mp h
  exact lowerLine_eq_nil_iff.mpr
    ⟨_, declared, forall₂_lowerCalls_unrolled hcalls, hdeclared, rfl⟩

/-- The layers of a lowered node line are applied once at least. -/
theorem repeated_of_lowerLine {line : NodeLine} {spec : LineSpec}
    (h : lowerLine node line = .ok (spec, [])) : ∀ call ∈ spec.calls, 1 ≤ call.repetitions := by
  obtain ⟨calls, declared, hcalls, -, rfl⟩ := lowerLine_eq_nil_iff.mp h
  intro call hcall
  obtain ⟨source, -, hlower⟩ := exists_of_mem_right hcalls hcall
  obtain ⟨_, count, -, hcount, rfl⟩ := lowerCall_eq_nil_iff.mp hlower
  exact one_le_of_repetitions? hcount

/-- A lowered inline model is unrolled to a lowered one. -/
theorem InlineBlock.lowerInline_unrolled (h : lowerInline node block = .ok (lines, [])) :
    lowerInline node block.unrolled = .ok (lines.map LineSpec.unrolled, []) := by
  obtain ⟨hdeclarations, hblocks, hlines⟩ := lowerInline_eq_nil_iff.mp h
  refine lowerInline_eq_nil_iff.mpr ⟨hdeclarations, hblocks, ?_⟩
  rw [unrolled, List.forall₂_map_left_iff, List.forall₂_map_right_iff]
  exact hlines.imp fun _ _ hline => ⟨hline.1, NodeLine.lowerLine_unrolled hline.2⟩

/-- A plain inline model is lowered if its lines are. -/
theorem InlineBlock.Plain.exists_lowerInline_iff (h : block.Plain) :
    (∃ lines, lowerInline node block = .ok (lines, [])) ↔
      ∀ line ∈ block.lines, line.toNodeLine.Lowers node := by
  simp only [lowerInline_eq_nil_iff, h.declarations, h.typeBlocks, List.isEmpty_nil, true_and]
  constructor
  · rintro ⟨lines, hlines⟩ line hline
    obtain ⟨spec, -, -, hspec⟩ := exists_of_mem_left hlines hline
    exact ⟨spec, hspec⟩
  · intro hlines
    exact exists_forall₂ fun line hline => by
      obtain ⟨spec, hspec⟩ := hlines line hline
      exact ⟨spec, h.unnested line hline, hspec⟩

/-- The numbers of repetitions in an unrolled line are positive integers. -/
theorem NodeLine.Repeats.unrolled {line : NodeLine} (h : line.Repeats) : line.unrolled.Repeats := by
  intro copy hcopy
  obtain ⟨call, hcall, hcopy⟩ := List.mem_flatMap.mp hcopy
  unfold LayerCall.unrolled at hcopy
  split at hcopy
  · rw [(List.mem_replicate.mp hcopy).2]
    rfl
  · exact List.mem_singleton.mp hcopy ▸ h call hcall

/-- The unrolled form of a plain inline model is plain. -/
theorem InlineBlock.Plain.unrolled (h : block.Plain) : block.unrolled.Plain where
  declarations := h.declarations
  typeBlocks := h.typeBlocks
  unnested line hline := by
    obtain ⟨source, hsource, rfl⟩ := List.mem_map.mp hline
    exact h.unnested source hsource
  numbered := by
    have hindices : block.unrolled.lines.map (·.index) = block.lines.map (·.index) := by
      rw [InlineBlock.unrolled, List.map_map]
      rfl
    rw [hindices, h.numbered, InlineBlock.unrolled, List.length_map]
  repeated line hline := by
    obtain ⟨source, hsource, rfl⟩ := List.mem_map.mp hline
    exact (h.repeated source hsource).unrolled

/-- The nodes of a plain inline model are numbered from one. -/
theorem InlineBlock.Plain.checkIndices (h : block.Plain)
    (hlower : lowerInline node block = .ok (lines, [])) (enclosing : Option Int) :
    Shapeline.checkIndices enclosing 1 (lines.map (·.index)) = .ok () := by
  obtain ⟨-, -, hlines⟩ := lowerInline_eq_nil_iff.mp hlower
  have hindices : lines.map (·.index) = block.lines.map (·.index) := by
    refine (map_eq_map_of_forall₂ (hlines.imp fun line spec hline => ?_)).symm
    obtain ⟨_, _, -, -, rfl⟩ := lowerLine_eq_nil_iff.mp hline.2
    rfl
  rw [checkIndices_eq_ok_iff, hindices, h.numbered, List.length_map, List.length_range]

/-- The calls of a lowered inline model are lowered to the uses in its nodes. -/
theorem forall₂_lowerInline_calls (h : lowerInline node block = .ok (lines, [])) :
    List.Forall₂ (fun call spec => lowerCall node call = .ok (spec, [])) block.calls
      (lines.flatMap (·.calls)) := by
  obtain ⟨-, -, hlines⟩ := lowerInline_eq_nil_iff.mp h
  refine List.rel_flatMap hlines fun line spec hline => ?_
  obtain ⟨calls, _, hcalls, -, rfl⟩ := lowerLine_eq_nil_iff.mp hline.2
  exact hcalls

/-- The nodes of a lowered inline model declare no shapes if its lines do not. -/
theorem undeclared_of_lowerInline (h : lowerInline node block = .ok (lines, []))
    (hshapeless : block.isShapeless = true) : ∀ line ∈ lines, line.declared = none := by
  obtain ⟨-, -, hlines⟩ := lowerInline_eq_nil_iff.mp h
  intro spec hspec
  obtain ⟨line, hline, -, hlower⟩ := exists_of_mem_right hlines hspec
  obtain ⟨_, declared, -, hdeclared, rfl⟩ := lowerLine_eq_nil_iff.mp hlower
  rw [Option.isNone_iff_eq_none.mp (List.all_eq_true.mp hshapeless line hline)] at hdeclared
  cases hdeclared
  rfl

/-- A node without inline model is regular if its layers are applied once at least. -/
theorem regular_of_plain (hinline : n.inline = none)
    (hrepeated : ∀ call ∈ n.calls, 1 ≤ call.repetitions) : n.Regular where
  repeated call hcall := by
    rw [NodeSpec.uses, NodeSpec.inner, hinline] at hcall
    exact hrepeated call (by simpa using hcall)
  layerless inline hsome := by cases hinline.symm.trans hsome
  numbered inline hsome := by cases hinline.symm.trans hsome

/-- A node without layers of its own that holds a lowered plain inline model is regular. -/
theorem regular_of_lowerInline {name : String} (h : block.Plain)
    (hlower : lowerInline node block = .ok (lines, [])) (hcalls : n.calls = [])
    (hinline : n.inline = some ⟨name, lines⟩) : n.Regular where
  repeated call hcall := by
    rw [NodeSpec.uses, NodeSpec.inner, hcalls, hinline] at hcall
    obtain ⟨line, hline, hcall⟩ := List.mem_flatMap.mp hcall
    obtain ⟨-, -, hlines⟩ := lowerInline_eq_nil_iff.mp hlower
    obtain ⟨_, -, -, hspec⟩ := exists_of_mem_right hlines hline
    exact repeated_of_lowerLine hspec call hcall
  layerless _ _ := hcalls
  numbered inline hsome := by
    obtain rfl := Option.some.inj (hinline.symm.trans hsome)
    exact h.checkIndices hlower _

/-- Other calls in a lowered line are lowered to other uses in its node. -/
theorem lowerLine_with_calls {line : NodeLine} {spec : LineSpec}
    (h : lowerLine node line = .ok (spec, []))
    (hcalls : List.Forall₂ (fun call spec => lowerCall node call = .ok (spec, [])) calls specs) :
    lowerLine node { line with calls } = .ok ({ spec with calls := specs }, []) := by
  obtain ⟨_, declared, -, hdeclared, rfl⟩ := lowerLine_eq_nil_iff.mp h
  exact lowerLine_eq_nil_iff.mpr ⟨specs, declared, hcalls, hdeclared, rfl⟩

/-- A line without inline model only has its repetitions spelled out. -/
theorem OuterLine.unrolled_plain (h : line.model = none) :
    line.unrolled.toNodeLine = line.toNodeLine.unrolled ∧ line.unrolled.model = none := by
  rw [unrolled, h]
  exact ⟨rfl, rfl⟩

/-- The calls of an inline model that declares no shapes stand in its place. -/
theorem OuterLine.unrolled_shapeless (h : line.model = some block)
    (hshapeless : block.isShapeless = true) :
    line.unrolled.toNodeLine =
        { line.toNodeLine with calls := block.calls.flatMap LayerCall.unrolled } ∧
      line.unrolled.model = none := by
  rw [unrolled, h]
  dsimp only
  rw [if_pos hshapeless]
  exact ⟨rfl, rfl⟩

/-- An inline model that declares shapes stays. -/
theorem OuterLine.unrolled_inline (h : line.model = some block)
    (hshapeless : ¬ block.isShapeless = true) :
    line.unrolled.toNodeLine = line.toNodeLine.unrolled ∧
      line.unrolled.model = some block.unrolled := by
  rw [unrolled, h]
  dsimp only
  rw [if_neg hshapeless]
  exact ⟨rfl, rfl⟩

/-- A line holds no inline model, one that declares no shapes or one that declares some. -/
theorem OuterLine.model_cases (line : OuterLine) : line.model = none ∨
    (∃ block, line.model = some block ∧ block.isShapeless = true) ∨
    ∃ block, line.model = some block ∧ ¬ block.isShapeless = true := by
  cases line.model with
  | none => exact Or.inl rfl
  | some block =>
    by_cases hshapeless : block.isShapeless = true
    · exact Or.inr (Or.inl ⟨block, rfl, hshapeless⟩)
    · exact Or.inr (Or.inr ⟨block, rfl, hshapeless⟩)

/-- The number of a line stays. -/
theorem OuterLine.unrolled_index (line : OuterLine) : line.unrolled.index = line.index := by
  rcases line.model_cases with hmodel | ⟨block, hmodel, hshapeless⟩ | ⟨block, hmodel, hshapeless⟩
  · rw [(unrolled_plain hmodel).1]
    rfl
  · rw [(unrolled_shapeless hmodel hshapeless).1]
  · rw [(unrolled_inline hmodel hshapeless).1]
    rfl

namespace OuterLine.Unrollable

variable (h : line.Unrollable)

include h

/-- The unrolled form of a lowered input line is lowered to a node with the same number and the same
declared shape. -/
theorem exists_lowerLine_input (hindex : line.index = 0) {spec : LineSpec}
    (hspec : lowerLine line.index line.toNodeLine = .ok (spec, [])) :
    ∃ spec', lowerLine line.index line.unrolled.toNodeLine = .ok (spec', []) ∧
      spec'.index = spec.index ∧ spec'.declared = spec.declared := by
  rcases line.model_cases with hmodel | ⟨block, hmodel, hshapeless⟩ | ⟨block, hmodel, hshapeless⟩
  · rw [(unrolled_plain hmodel).1]
    exact ⟨_, NodeLine.lowerLine_unrolled hspec, rfl, rfl⟩
  · rw [(unrolled_shapeless hmodel hshapeless).1]
    obtain ⟨specs, hspecs⟩ :=
      exists_forall₂ (lowers_unrolled_iff.mpr (h.input hindex block hmodel hshapeless))
    exact ⟨_, lowerLine_with_calls hspec hspecs, rfl, rfl⟩
  · rw [(unrolled_inline hmodel hshapeless).1]
    exact ⟨_, NodeLine.lowerLine_unrolled hspec, rfl, rfl⟩

/-- A lowered line is unrolled to a lowered one, and its node is regular. -/
theorem lowerNode (hlower : Shapeline.lowerNode line = .ok (n, [])) :
    ∃ n', Shapeline.lowerNode line.unrolled = .ok (n', []) ∧ n.Unrolls n' ∧ n.Regular := by
  have hindex := line.unrolled_index
  by_cases hzero : line.index = 0
  · obtain ⟨spec, hspec, rfl⟩ := (lowerNode_input_iff hzero).mp hlower
    obtain ⟨spec', hspec', hsame, hdeclared⟩ := h.exists_lowerLine_input hzero hspec
    refine ⟨_, (lowerNode_input_iff (hindex.trans hzero)).mpr ⟨spec', hindex ▸ hspec', rfl⟩,
      ⟨hsame, hdeclared, .plain rfl rfl rfl⟩, regular_of_plain rfl (by simp)⟩
  have hne : line.unrolled.index ≠ 0 := fun heq => hzero (hindex.symm.trans heq)
  rcases line.model_cases with hmodel | ⟨block, hmodel, hshapeless⟩ | ⟨block, hmodel, hshapeless⟩
  · obtain ⟨hline, hnone⟩ := unrolled_plain hmodel
    obtain ⟨spec, hspec, rfl⟩ := (lowerNode_plain_iff hzero hmodel).mp hlower
    refine ⟨_, (lowerNode_plain_iff hne hnone).mpr ⟨spec.unrolled, ?_, rfl⟩,
      ⟨rfl, rfl, .plain rfl rfl rfl⟩, regular_of_plain rfl (repeated_of_lowerLine hspec)⟩
    rw [hindex, hline]
    exact NodeLine.lowerLine_unrolled hspec
  · obtain ⟨hline, hnone⟩ := unrolled_shapeless hmodel hshapeless
    obtain ⟨spec, lines, hspec, hlines, rfl⟩ := (lowerNode_inline_iff hzero hmodel).mp hlower
    have hcalls := forall₂_lowerCalls_unrolled (forall₂_lowerInline_calls hlines)
    refine ⟨_, (lowerNode_plain_iff hne hnone).mpr
      ⟨{ spec with calls := (lines.flatMap (·.calls)).flatMap CallSpec.unrolled }, ?_, rfl⟩,
      ⟨rfl, rfl, .shapeless _ rfl rfl (undeclared_of_lowerInline hlines hshapeless) rfl⟩,
      regular_of_lowerInline (h.model block hmodel) hlines rfl rfl⟩
    rw [hindex, hline]
    exact lowerLine_with_calls hspec hcalls
  · obtain ⟨hline, hsome⟩ := unrolled_inline hmodel hshapeless
    obtain ⟨spec, lines, hspec, hlines, rfl⟩ := (lowerNode_inline_iff hzero hmodel).mp hlower
    have hlines' := InlineBlock.lowerInline_unrolled hlines
    refine ⟨_, (lowerNode_inline_iff hne hsome).mpr
      ⟨spec.unrolled, lines.map LineSpec.unrolled, ?_, hindex ▸ hlines', rfl⟩,
      ⟨rfl, rfl, .inline _ rfl rfl rfl⟩,
      regular_of_lowerInline (h.model block hmodel) hlines rfl rfl⟩
    rw [hindex, hline]
    exact NodeLine.lowerLine_unrolled hspec

omit h in
/-- The calls and the declared shape of a lowered line are lowered, and so are the lines of its
inline model unless it is the input. -/
theorem lowers_of_lowerNode (hlower : Shapeline.lowerNode line = .ok (n, [])) :
    line.toNodeLine.Lowers line.index ∧ (line.index ≠ 0 → ∀ block, line.model = some block →
      ∃ lines, lowerInline line.index block = .ok (lines, [])) := by
  by_cases hzero : line.index = 0
  · obtain ⟨spec, hspec, -⟩ := (lowerNode_input_iff hzero).mp hlower
    exact ⟨⟨spec, hspec⟩, fun hne => absurd hzero hne⟩
  cases hmodel : line.model with
  | none =>
    obtain ⟨spec, hspec, -⟩ := (lowerNode_plain_iff hzero hmodel).mp hlower
    exact ⟨⟨spec, hspec⟩, fun _ other hother => by cases hother⟩
  | some block =>
    obtain ⟨spec, lines, hspec, hlines, -⟩ := (lowerNode_inline_iff hzero hmodel).mp hlower
    exact ⟨⟨spec, hspec⟩, fun _ other hother => Option.some.inj hother ▸ ⟨lines, hlines⟩⟩

omit h in
/-- A line is lowered if its calls and its declared shape are, and the lines of its inline model. -/
theorem exists_lowerNode (hline : line.toNodeLine.Lowers line.index)
    (hmodel : line.index ≠ 0 → ∀ block, line.model = some block →
      ∃ lines, lowerInline line.index block = .ok (lines, [])) :
    ∃ n, Shapeline.lowerNode line = .ok (n, []) := by
  obtain ⟨spec, hspec⟩ := hline
  by_cases hzero : line.index = 0
  · exact ⟨_, (lowerNode_input_iff hzero).mpr ⟨spec, hspec, rfl⟩⟩
  cases hsome : line.model with
  | none => exact ⟨_, (lowerNode_plain_iff hzero hsome).mpr ⟨spec, hspec, rfl⟩⟩
  | some block =>
    obtain ⟨lines, hlines⟩ := hmodel hzero block hsome
    exact ⟨_, (lowerNode_inline_iff hzero hsome).mpr ⟨spec, lines, hspec, hlines, rfl⟩⟩

/-- A line is lowered if its unrolled form is. -/
theorem exists_lowerNode_of_unrolled (hlower : Shapeline.lowerNode line.unrolled = .ok (n', [])) :
    ∃ n, Shapeline.lowerNode line = .ok (n, []) := by
  obtain ⟨hline, hinner⟩ := lowers_of_lowerNode hlower
  rw [line.unrolled_index] at hline hinner
  rcases line.model_cases with hmodel | ⟨block, hmodel, hshapeless⟩ | ⟨block, hmodel, hshapeless⟩
  · rw [(unrolled_plain hmodel).1, NodeLine.lowers_unrolled_iff] at hline
    exact exists_lowerNode hline fun _ other hother => by cases hmodel.symm.trans hother
  · rw [(unrolled_shapeless hmodel hshapeless).1, NodeLine.lowers_iff, lowers_unrolled_iff] at hline
    obtain ⟨hcalls, hdeclared⟩ := hline
    refine exists_lowerNode
      (NodeLine.lowers_iff.mpr ⟨h.beside block hmodel hshapeless, hdeclared⟩) ?_
    intro _ other hother
    obtain rfl := Option.some.inj (hmodel.symm.trans hother)
    refine (h.model block hmodel).exists_lowerInline_iff.mpr fun inner hinner => ?_
    refine NodeLine.lowers_iff.mpr ⟨fun call hcall => ?_, none, ?_⟩
    · exact hcalls call (List.mem_flatMap.mpr ⟨inner, hinner, hcall⟩)
    · rw [Option.isNone_iff_eq_none.mp (List.all_eq_true.mp hshapeless inner hinner)]
      exact .none
  · obtain ⟨hsame, hblock⟩ := unrolled_inline hmodel hshapeless
    rw [hsame, NodeLine.lowers_unrolled_iff] at hline
    refine exists_lowerNode hline fun hne other hother => ?_
    obtain rfl := Option.some.inj (hmodel.symm.trans hother)
    have hlines := (h.model block hmodel).unrolled.exists_lowerInline_iff.mp
      (hinner hne _ hblock)
    refine (h.model block hmodel).exists_lowerInline_iff.mpr fun inner hinner => ?_
    exact NodeLine.lowers_unrolled_iff.mp
      (hlines _ (List.mem_map_of_mem (f := fun line : InlineLine =>
        ({ line.toNodeLine.unrolled with nested := line.nested } : InlineLine)) hinner))

end OuterLine.Unrollable

/-- The lines of an unrolled program are the unrolled lines. -/
theorem Program.unrolled_model {block : ModelBlock} (h : program.model = some block) :
    program.unrolled.model = some { block with lines := block.lines.map OuterLine.unrolled } := by
  rw [unrolled, h]
  rfl

/-- A plain program loses no calls if its inline models stand alone in their lines, and not at the
input. -/
theorem Program.Plain.unrollable (h : program.Plain)
    (halone : ∀ block ∈ program.model, ∀ line ∈ block.lines,
      line.model = none ∨ line.calls = [] ∧ line.index ≠ 0) : program.Unrollable := by
  intro block hblock line hline
  refine ⟨h block hblock line hline, ?_, ?_⟩
  · intro inner hinner _ call hcall
    rcases halone block hblock line hline with hnone | ⟨hcalls, -⟩
    · cases hnone.symm.trans hinner
    · rw [hcalls] at hcall
      cases hcall
  · intro hzero inner hinner
    rcases halone block hblock line hline with hnone | ⟨-, hindex⟩
    · cases hnone.symm.trans hinner
    · exact absurd hzero hindex

/-- A lowered program is unrolled to a lowered one. -/
theorem Program.Unrollable.lowerProgram (h : program.Unrollable)
    (hlower : Shapeline.lowerProgram program = .ok definition) :
    ∃ definition', Shapeline.lowerProgram program.unrolled = .ok definition' ∧
      definition.Unrolls definition' ∧ ∀ n ∈ definition.nodes, n.Regular := by
  obtain ⟨block, hyperparameters, typeOverrides, nodes, hblock, hvariables, hblocks, hnodes, rfl⟩ :=
    lowerProgram_eq_ok_iff.mp hlower
  have hlines : List.Forall₂ (fun line line' : OuterLine => line' = line ∧ line.Unrollable)
      block.lines block.lines :=
    List.forall₂_same.mpr fun line hline => ⟨rfl, h block hblock line hline⟩
  obtain ⟨nodes', hrelated, hnodes'⟩ := exists_forall₂_image
    (G := fun n n' => NodeSpec.Unrolls n n' ∧ n.Regular)
    (Q := fun (line : OuterLine) n' => lowerNode line.unrolled = .ok (n', []))
    (fun line n line' hn hline => by
      obtain ⟨rfl, hunrollable⟩ := hline
      obtain ⟨n', hn', hunrolls, hregular⟩ := hunrollable.lowerNode hn
      exact ⟨n', ⟨hunrolls, hregular⟩, hn'⟩) hnodes hlines
  refine ⟨_, lowerProgram_eq_ok_iff.mpr ⟨_, hyperparameters, typeOverrides, nodes',
    unrolled_model hblock, hvariables, hblocks, List.forall₂_map_left_iff.mpr hnodes', rfl⟩,
    ⟨rfl, hrelated.imp fun _ _ hn => hn.1⟩, fun n hn => ?_⟩
  obtain ⟨_, -, -, hregular⟩ := exists_of_mem_left hrelated hn
  exact hregular

/-- A program is lowered if its unrolled form is. -/
theorem Program.Unrollable.exists_lowerProgram (h : program.Unrollable)
    (hlower : Shapeline.lowerProgram program.unrolled = .ok definition') :
    ∃ definition, Shapeline.lowerProgram program = .ok definition := by
  obtain ⟨block', hyperparameters, typeOverrides, nodes', hblock', hvariables, hblocks, hnodes', -⟩ :=
    lowerProgram_eq_ok_iff.mp hlower
  obtain ⟨block, hblock, rfl⟩ := Option.map_eq_some_iff.mp hblock'
  have hnodes : ∀ line ∈ block.lines, ∃ n, lowerNode line = .ok (n, []) := by
    intro line hline
    obtain ⟨n', -, hn'⟩ := exists_of_mem_left hnodes' (List.mem_map_of_mem hline)
    exact (h block hblock line hline).exists_lowerNode_of_unrolled hn'
  obtain ⟨nodes, hnodes⟩ := exists_forall₂ hnodes
  exact ⟨_, lowerProgram_eq_ok_iff.mpr
    ⟨block, hyperparameters, typeOverrides, nodes, hblock, hvariables, hblocks, hnodes, rfl⟩⟩

end Shapeline
