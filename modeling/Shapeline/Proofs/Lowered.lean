import Shapeline.Proofs.Redeclaration.Lowering

/-!
# Lines that are lowered

A node line is lowered without diagnostics exactly if its calls and its declared shape are. What
becomes of the line then depends on its number and on whether it holds an inline model: the input
node has no layers, and neither has a node with an inline model.
-/

namespace Shapeline

variable {index : Int} {node : Option Int} {decls : List VariableDecl}
  {assignments : List Assignment} {call : LayerCall} {spec : CallSpec} {line : OuterLine}
  {n : NodeSpec} {block : InlineBlock}

/-- Lines that set parameters are lowered without diagnostics exactly if each has a value. -/
theorem lowerAssignments_eq_nil_iff :
    lowerAssignments node decls = .ok (assignments, []) ↔
      List.Forall₂ (fun decl a => ∃ value, lowerValue node decl = .ok value ∧
        a = ⟨decl.key, value⟩) decls assignments := by
  unfold lowerAssignments
  rw [collectEach_eq_nil_iff]
  simp only [bind_eq_ok_iff, mapError_eq_ok_iff, pure_eq_ok_iff]

/-- A use of a layer is lowered without diagnostics exactly if its overrides are and its number of
repetitions is positive. -/
theorem lowerCall_eq_nil_iff :
    lowerCall index call = .ok (spec, []) ↔ ∃ overrides count,
      lowerAssignments (some index) call.overrides = .ok (overrides, []) ∧
        repetitions? call.repetitions = some count ∧ spec = ⟨call.name, overrides, count⟩ := by
  unfold lowerCall
  rw [bind_eq_ok_iff]
  constructor
  · rintro ⟨⟨overrides, errors⟩, hoverrides, h⟩
    dsimp only at h
    split at h
    · rename_i count hcount
      obtain ⟨rfl, rfl⟩ := Prod.mk.inj (pure_eq_ok_iff.mp h)
      exact ⟨overrides, count, hoverrides, hcount, rfl⟩
    · cases (Prod.mk.inj (pure_eq_ok_iff.mp h)).2
  · rintro ⟨overrides, count, hoverrides, hcount, rfl⟩
    refine ⟨(overrides, []), hoverrides, ?_⟩
    dsimp only
    rw [hcount]
    rfl

/-- A node line is lowered without diagnostics exactly if its calls and its declared shape are. -/
theorem lowerLine_eq_nil_iff {line : NodeLine} {spec : LineSpec} :
    lowerLine index line = .ok (spec, []) ↔ ∃ calls declared,
      List.Forall₂ (fun call spec => lowerCall index call = .ok (spec, [])) line.calls calls ∧
        LowersShape index line.shape declared ∧
        spec = ⟨line.index, calls, declared, line.label⟩ := by
  unfold lowerLine
  constructor
  · intro h
    obtain ⟨⟨calls, callErrors⟩, hcalls, h⟩ := bind_eq_ok_iff.mp h
    obtain ⟨⟨declared, shapeErrors⟩, hdeclared, h⟩ := bind_eq_ok_iff.mp h
    obtain ⟨rfl, hnil⟩ := Prod.mk.inj (pure_eq_ok_iff.mp h)
    obtain ⟨rfl, rfl⟩ := List.append_eq_nil_iff.mp hnil.symm
    exact ⟨calls, declared, collectAll_eq_nil_iff.mp hcalls, lowerShape_eq_nil_iff.mp hdeclared,
      rfl⟩
  · rintro ⟨calls, declared, hcalls, hdeclared, rfl⟩
    exact bind_eq_ok_iff.mpr ⟨(calls, []), collectAll_eq_nil_iff.mpr hcalls, bind_eq_ok_iff.mpr
      ⟨(declared, []), lowerShape_eq_nil_iff.mpr hdeclared, rfl⟩⟩

/-- Variables are lowered without diagnostics exactly if each has a value. -/
theorem lowerHyperparameters_eq_nil_iff {hyperparameters : List Hyperparameter} :
    lowerHyperparameters decls = .ok (hyperparameters, []) ↔
      List.Forall₂ (fun decl h => ∃ value, lowerValue none decl = .ok value ∧
        h = ⟨decl.key, decl.description, value⟩) decls hyperparameters := by
  unfold lowerHyperparameters
  rw [collectEach_eq_nil_iff]
  simp only [bind_eq_ok_iff, mapError_eq_ok_iff, pure_eq_ok_iff]

/-- Override blocks are lowered without diagnostics exactly if the lines of each are. -/
theorem lowerTypeBlocks_eq_nil_iff {blocks : List TypeBlock} {typeOverrides : List TypeOverride} :
    lowerTypeBlocks blocks = .ok (typeOverrides, []) ↔
      List.Forall₂ (fun block override => ∃ assignments,
        lowerAssignments none block.overrides = .ok (assignments, []) ∧
          override = ⟨block.name, assignments⟩) blocks typeOverrides := by
  unfold lowerTypeBlocks
  rw [collectAll_eq_nil_iff]
  constructor <;> refine fun h => h.imp fun block override hblock => ?_
  · obtain ⟨⟨assignments, errors⟩, hassignments, hblock⟩ := bind_eq_ok_iff.mp hblock
    obtain ⟨rfl, rfl⟩ := Prod.mk.inj (pure_eq_ok_iff.mp hblock)
    exact ⟨assignments, hassignments, rfl⟩
  · obtain ⟨assignments, hassignments, rfl⟩ := hblock
    exact bind_eq_ok_iff.mpr ⟨_, hassignments, rfl⟩

/-- The label of the input node: its own one, or else the words that describe it. -/
def LineSpec.inputLabel (spec : LineSpec) : Option String :=
  let words := spec.calls.map (·.name)
  if words.isEmpty then spec.label else spec.label.or (some (" ".intercalate words))

/-- The label of a node that holds an inline model: its own one, or else the name of the model. -/
def LineSpec.inlineLabel (spec : LineSpec) (name : String) : String :=
  match spec.label with
  | some label => if label = "" then name else label
  | none => name

/-- The input line is lowered to a node without layers. -/
theorem lowerNode_input_iff (h : line.index = 0) :
    lowerNode line = .ok (n, []) ↔ ∃ spec, lowerLine line.index line.toNodeLine = .ok (spec, []) ∧
      n = { spec with calls := [], label := spec.inputLabel } := by
  unfold lowerNode
  rw [bind_eq_ok_iff]
  simp only [if_pos h, pure_eq_ok_iff, Prod.mk.injEq, Prod.exists]
  constructor
  · rintro ⟨spec, _, hspec, rfl, rfl⟩
    exact ⟨spec, hspec, rfl⟩
  · rintro ⟨spec, hspec, rfl⟩
    exact ⟨spec, [], hspec, rfl, rfl⟩

/-- A line without an inline model is lowered to a node with the layers of its calls. -/
theorem lowerNode_plain_iff (h : line.index ≠ 0) (hmodel : line.model = none) :
    lowerNode line = .ok (n, []) ↔ ∃ spec, lowerLine line.index line.toNodeLine = .ok (spec, []) ∧
      n = { spec with } := by
  unfold lowerNode
  rw [bind_eq_ok_iff]
  simp only [if_neg h, hmodel, pure_eq_ok_iff, Prod.mk.injEq, Prod.exists]
  constructor
  · rintro ⟨spec, _, hspec, rfl, rfl⟩
    exact ⟨spec, hspec, rfl⟩
  · rintro ⟨spec, hspec, rfl⟩
    exact ⟨spec, [], hspec, rfl, rfl⟩

/-- A line with an inline model is lowered to a node that holds the lowered model. -/
theorem lowerNode_inline_iff (h : line.index ≠ 0) (hmodel : line.model = some block) :
    lowerNode line = .ok (n, []) ↔ ∃ spec lines,
      lowerLine line.index line.toNodeLine = .ok (spec, []) ∧
        lowerInline line.index block = .ok (lines, []) ∧
        n = { spec with
          calls := []
          label := some (spec.inlineLabel block.name)
          inline := some ⟨block.name, lines⟩ } := by
  unfold lowerNode
  rw [bind_eq_ok_iff]
  simp only [if_neg h, hmodel]
  constructor
  · rintro ⟨⟨spec, errors⟩, hspec, hrest⟩
    obtain ⟨⟨lines, innerErrors⟩, hlines, hrest⟩ := bind_eq_ok_iff.mp hrest
    obtain ⟨rfl, hnil⟩ := Prod.mk.inj (pure_eq_ok_iff.mp hrest)
    obtain ⟨rfl, rfl⟩ := List.append_eq_nil_iff.mp hnil.symm
    exact ⟨spec, lines, hspec, hlines, rfl⟩
  · rintro ⟨spec, lines, hspec, hlines, rfl⟩
    exact ⟨(spec, []), hspec, bind_eq_ok_iff.mpr ⟨(lines, []), hlines, rfl⟩⟩

end Shapeline
