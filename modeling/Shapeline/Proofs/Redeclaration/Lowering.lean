import Mathlib.Data.Option.Basic
import Shapeline.Proofs.Lowering

/-!
# Programs with other declarations

Two programs differ in the shapes that their node lines declare, except for the shape of the input.
If the declared shapes can be lowered together, so can the programs, and the definitions that they
are lowered to differ in declared shapes only.
-/

namespace Shapeline

/-- Two node lines differ in their declared shapes only, which are related. -/
structure NodeLine.Redeclares (Q : Option (List Expr) → Option (List Expr) → Prop)
    (line line' : NodeLine) : Prop where
  /-- All but the declared shapes is equal. -/
  same : line' = { line with shape := line'.shape }
  /-- The declared shapes are related. -/
  shape : Q line.shape line'.shape

/-- Two node lines of inline models differ in their declared shapes only. -/
structure InlineLine.Redeclares (Q : Option (List Expr) → Option (List Expr) → Prop)
    (line line' : InlineLine) : Prop where
  /-- All but the declared shapes is equal. -/
  base : line.toNodeLine.Redeclares Q line'.toNodeLine
  /-- Both lines hold a model themselves, or none does. -/
  nested : line'.nested = line.nested

/-- Two inline models differ in the declared shapes of their lines only. -/
structure InlineBlock.Redeclares (Q : Option (List Expr) → Option (List Expr) → Prop)
    (block block' : InlineBlock) : Prop where
  /-- All but the lines is equal. -/
  same : block' = { block with lines := block'.lines }
  /-- The lines differ in their declared shapes only. -/
  lines : List.Forall₂ (InlineLine.Redeclares Q) block.lines block'.lines

/-- Two node lines of models differ in their own declared shapes and in those of their inline models
only. The relation between declared shapes may depend on the number of the node. The declared shape
of the input does not differ. -/
structure OuterLine.Redeclares (Q : Int → Option (List Expr) → Option (List Expr) → Prop)
    (line line' : OuterLine) : Prop where
  /-- All but the declared shapes and the inline models is equal. -/
  base : line.toNodeLine.Redeclares (Q line.index) line'.toNodeLine
  /-- The declared shapes are equal up to the input. -/
  input : line.index < 1 → line'.shape = line.shape
  /-- The inline models differ in declared shapes only. -/
  model : Option.Rel (InlineBlock.Redeclares (Q line.index)) line.model line'.model

/-- Two models differ in the declared shapes of their node lines, and of those of their inline
models, only. -/
structure ModelBlock.Redeclares (Q : Int → Option (List Expr) → Option (List Expr) → Prop)
    (model model' : ModelBlock) : Prop where
  /-- All but the node lines is equal. -/
  same : model' = { model with lines := model'.lines }
  /-- The node lines differ in declared shapes only. -/
  lines : List.Forall₂ (OuterLine.Redeclares Q) model.lines model'.lines

/-- Which of two node lines is the first does not matter if it does not for declared shapes. -/
theorem NodeLine.Redeclares.symm {Q : Option (List Expr) → Option (List Expr) → Prop}
    {line line' : NodeLine} (h : line.Redeclares Q line') (hQ : ∀ s s', Q s s' → Q s' s) :
    line'.Redeclares Q line where
  same := by rw [h.same]
  shape := hQ _ _ h.shape

/-- Which of two inline models is the first does not matter if it does not for declared shapes. -/
theorem InlineBlock.Redeclares.symm {Q : Option (List Expr) → Option (List Expr) → Prop}
    {block block' : InlineBlock} (h : block.Redeclares Q block') (hQ : ∀ s s', Q s s' → Q s' s) :
    block'.Redeclares Q block where
  same := by rw [h.same]
  lines := h.lines.flip.imp fun _ _ hline => ⟨hline.base.symm hQ, hline.nested.symm⟩

/-- Which of two models is the first does not matter if it does not for declared shapes. -/
theorem ModelBlock.Redeclares.symm {Q : Int → Option (List Expr) → Option (List Expr) → Prop}
    {model model' : ModelBlock} (h : model.Redeclares Q model')
    (hQ : ∀ index s s', Q index s s' → Q index s' s) : model'.Redeclares Q model where
  same := by rw [h.same]
  lines := h.lines.flip.imp fun line' line hline => by
    have hindex : line'.index = line.index := by rw [hline.base.same]
    refine ⟨hindex ▸ hline.base.symm (hQ _), fun hinput => (hline.input (hindex ▸ hinput)).symm, ?_⟩
    rw [hindex]
    have hmodel := hline.model
    generalize line.model = block at hmodel
    generalize line'.model = block' at hmodel ⊢
    cases hmodel with
    | none => exact .none
    | some hblocks => exact .some (hblocks.symm (hQ _))

variable {W : Option Shape → Option Shape → Prop}

/-- Two nodes differ in their declared shapes only, which are related. -/
structure LineSpec.Redeclares (W : Option Shape → Option Shape → Prop) (line line' : LineSpec) :
    Prop where
  /-- All but the declared shapes is equal. -/
  same : line' = { line with declared := line'.declared }
  /-- The declared shapes are related. -/
  declared : W line.declared line'.declared

/-- Two inline models differ in the declared shapes of their nodes only. -/
structure InlineSpec.Redeclares (W : Option Shape → Option Shape → Prop)
    (model model' : InlineSpec) : Prop where
  /-- The names are equal. -/
  name : model'.name = model.name
  /-- The nodes differ in their declared shapes only. -/
  lines : List.Forall₂ (LineSpec.Redeclares W) model.lines model'.lines

/-- Two nodes differ in their own declared shapes and in those of their inline models only. The
declared shape of the input does not differ. -/
structure NodeSpec.Redeclares (W : Option Shape → Option Shape → Prop) (n n' : NodeSpec) :
    Prop where
  /-- All but the declared shapes and the inline models is equal. -/
  base : n.toLineSpec.Redeclares W n'.toLineSpec
  /-- The declared shapes are equal up to the input. -/
  input : n.index < 1 → n'.declared = n.declared
  /-- The inline models differ in declared shapes only. -/
  inline : Option.Rel (InlineSpec.Redeclares W) n.inline n'.inline

/-- Two definitions differ in the declared shapes of their nodes only. -/
structure Definition.Redeclares (W : Option Shape → Option Shape → Prop) (d d' : Definition) :
    Prop where
  /-- All but the nodes is equal. -/
  same : d' = { d with nodes := d'.nodes }
  /-- The nodes differ in declared shapes only. -/
  nodes : List.Forall₂ (NodeSpec.Redeclares W) d.nodes d'.nodes

/-- A declared shape, if there is one, is lowered axis by axis. -/
def LowersShape (node : Int) : Option (List Expr) → Option Shape → Prop :=
  Option.Rel fun exprs shape =>
    List.Forall₂ (fun expr axis => lowerAxis node expr = .ok axis) exprs shape.axes

/-- A declared shape is lowered without diagnostics exactly if all its axes are lowered. -/
theorem lowerShape_eq_nil_iff {node : Int} {line : NodeLine} {declared : Option Shape} :
    lowerShape node line = .ok (declared, []) ↔ LowersShape node line.shape declared := by
  unfold lowerShape LowersShape
  cases line.shape with
  | none =>
    constructor
    · intro h
      obtain ⟨rfl, -⟩ := Prod.mk.inj (pure_eq_ok_iff.mp h)
      exact .none
    · intro h
      cases h
      rfl
  | some exprs =>
    constructor
    · intro h
      obtain ⟨⟨axes, errors⟩, haxes, h⟩ := bind_eq_ok_iff.mp h
      obtain ⟨rfl, rfl⟩ := Prod.mk.inj (pure_eq_ok_iff.mp h)
      exact .some ((collectEach_eq_nil_iff.mp haxes).imp fun _ _ h => mapError_eq_ok_iff.mp h)
    · intro h
      cases h with
      | some haxes =>
        exact bind_eq_ok_iff.mpr ⟨(_, []), collectEach_eq_nil_iff.mpr
          (haxes.imp fun _ _ h => mapError_eq_ok_iff.mpr h), rfl⟩

/-- A relation between declared shapes as they are written leads to one between declared shapes: if
one of two related shapes is lowered, so is the other, to a related shape. -/
def LowersTo (Q : Option (List Expr) → Option (List Expr) → Prop)
    (W : Option Shape → Option Shape → Prop) (node : Int) : Prop :=
  ∀ shape shape' declared, Q shape shape' → LowersShape node shape declared →
    ∃ declared', LowersShape node shape' declared' ∧ W declared declared'

variable {Q : Option (List Expr) → Option (List Expr) → Prop} {node : Int}

/-- A node line with another declaration is lowered to the node with another declaration. -/
theorem NodeLine.Redeclares.lowerLine {line line' : NodeLine} {spec : LineSpec}
    (h : line.Redeclares Q line') (hQ : LowersTo Q W node)
    (hlower : Shapeline.lowerLine node line = .ok (spec, [])) :
    ∃ declared, Shapeline.lowerLine node line' = .ok ({ spec with declared }, []) ∧
      W spec.declared declared ∧ (line'.shape = line.shape → declared = spec.declared) := by
  obtain ⟨⟨calls, callErrors⟩, hcalls, hlower⟩ := bind_eq_ok_iff.mp hlower
  obtain ⟨⟨declared, shapeErrors⟩, hdeclared, hlower⟩ := bind_eq_ok_iff.mp hlower
  obtain ⟨rfl, hnil⟩ := Prod.mk.inj (pure_eq_ok_iff.mp hlower)
  obtain ⟨rfl, rfl⟩ := List.append_eq_nil_iff.mp hnil.symm
  have hshape := lowerShape_eq_nil_iff.mp hdeclared
  obtain ⟨declared', hdeclared', hW⟩ := hQ _ _ _ h.shape hshape
  refine ⟨declared', ?_, hW, fun hsame => ?_⟩
  · rw [h.same]
    exact bind_eq_ok_iff.mpr ⟨(calls, []), hcalls, bind_eq_ok_iff.mpr
      ⟨(declared', []), lowerShape_eq_nil_iff.mpr hdeclared', rfl⟩⟩
  · rw [hsame] at hdeclared'
    have heq := lowerShape_eq_nil_iff.mpr hdeclared'
    exact (Prod.mk.inj (Except.ok.inj (heq.symm.trans hdeclared))).1

/-- An inline model is lowered without diagnostics exactly if it has node lines only and these are
lowered. -/
theorem lowerInline_eq_nil_iff {block : InlineBlock} {lines : List LineSpec} :
    lowerInline node block = .ok (lines, []) ↔
      block.declarations.isEmpty = true ∧ block.typeBlocks.isEmpty = true ∧
        List.Forall₂ (fun line spec => line.nested = false ∧
          lowerLine node line.toNodeLine = .ok (spec, [])) block.lines lines := by
  unfold lowerInline
  constructor
  · intro h
    obtain ⟨⟨specs, found⟩, hspecs, h⟩ := bind_eq_ok_iff.mp h
    obtain ⟨rfl, hnil⟩ := Prod.mk.inj (pure_eq_ok_iff.mp h)
    obtain ⟨hfirst, rfl⟩ := List.append_eq_nil_iff.mp hnil.symm
    obtain ⟨hdeclarations, hblocks⟩ := List.append_eq_nil_iff.mp hfirst
    refine ⟨by by_contra hne; simp [hne] at hdeclarations, by by_contra hne; simp [hne] at hblocks,
      ?_⟩
    have hsome : List.Forall₂ (fun (line : InlineLine) spec => ∃ lowered, spec = some lowered ∧
        line.nested = false ∧ lowerLine node line.toNodeLine = .ok (lowered, []))
        block.lines specs := by
      refine (collectAll_eq_nil_iff.mp hspecs).imp fun line spec hline => ?_
      dsimp only at hline
      split at hline
      · cases (Prod.mk.inj (pure_eq_ok_iff.mp hline)).2
      · rename_i hnested
        obtain ⟨⟨lowered, errors⟩, hlowered, hline⟩ := bind_eq_ok_iff.mp hline
        obtain ⟨rfl, rfl⟩ := Prod.mk.inj (pure_eq_ok_iff.mp hline)
        exact ⟨lowered, rfl, Bool.eq_false_iff.mpr hnested, hlowered⟩
    exact forall₂_filterMap hsome
  · rintro ⟨hdeclarations, hblocks, hlines⟩
    refine bind_eq_ok_iff.mpr ⟨(lines.map some, []), collectAll_eq_nil_iff.mpr ?_, ?_⟩
    · rw [List.forall₂_map_right_iff]
      refine hlines.imp fun line spec hline => ?_
      rw [if_neg (by rw [hline.1]; exact Bool.false_ne_true)]
      exact bind_eq_ok_iff.mpr ⟨(spec, []), hline.2, rfl⟩
    · simp [hdeclarations, hblocks, pure, Except.pure]

/-- An inline model with other declarations is lowered to one with other declarations. -/
theorem InlineBlock.Redeclares.lowerInline {block block' : InlineBlock} {lines : List LineSpec}
    (h : block.Redeclares Q block') (hQ : LowersTo Q W node)
    (hlower : Shapeline.lowerInline node block = .ok (lines, [])) :
    ∃ lines', Shapeline.lowerInline node block' = .ok (lines', []) ∧
      List.Forall₂ (LineSpec.Redeclares W) lines lines' := by
  obtain ⟨hdeclarations, hblocks, hlines⟩ := lowerInline_eq_nil_iff.mp hlower
  obtain ⟨lines', hlines', hrelated⟩ := exists_forall₂_image (Q := LineSpec.Redeclares W)
    (G := fun (line : InlineLine) spec => line.nested = false ∧
      Shapeline.lowerLine node line.toNodeLine = .ok (spec, []))
    (fun line line' spec hline hspec => by
      obtain ⟨declared, hspec', hW, -⟩ := hline.base.lowerLine hQ hspec.2
      exact ⟨_, ⟨hline.nested.trans hspec.1, hspec'⟩, ⟨rfl, hW⟩⟩) h.lines hlines
  refine ⟨lines', lowerInline_eq_nil_iff.mpr ⟨?_, ?_, hlines'⟩, hrelated⟩
  · rw [h.same]
    exact hdeclarations
  · rw [h.same]
    exact hblocks

/-- A line of a model with other declarations is lowered to a node with other declarations. -/
theorem OuterLine.Redeclares.lowerNode
    {Q : Int → Option (List Expr) → Option (List Expr) → Prop} {line line' : OuterLine}
    {spec : NodeSpec} (h : line.Redeclares Q line') (hQ : LowersTo (Q line.index) W line.index)
    (hlower : Shapeline.lowerNode line = .ok (spec, [])) :
    ∃ spec', Shapeline.lowerNode line' = .ok (spec', []) ∧ spec.Redeclares W spec' := by
  have hindex : line'.index = line.index := by rw [h.base.same]
  obtain ⟨⟨base, errors⟩, hbase, hlower⟩ := bind_eq_ok_iff.mp hlower
  have hbaseIndex : base.index = line.index := by
    obtain ⟨_, _, hbase⟩ := bind_eq_ok_iff.mp hbase
    obtain ⟨_, _, hbase⟩ := bind_eq_ok_iff.mp hbase
    rw [(Prod.mk.inj (pure_eq_ok_iff.mp hbase)).1]
  have hlowered (herrors : errors = []) := h.base.lowerLine hQ (herrors ▸ hbase)
  unfold Shapeline.lowerNode
  rw [hindex]
  dsimp only at hlower
  split at hlower
  · rename_i hzero
    obtain ⟨rfl, rfl⟩ := Prod.mk.inj (pure_eq_ok_iff.mp hlower)
    obtain ⟨declared, hbase', hW, hequal⟩ := hlowered rfl
    refine ⟨_, bind_eq_ok_iff.mpr ⟨_, hbase', (if_pos hzero).trans rfl⟩, ⟨⟨rfl, hW⟩, ?_, .none⟩⟩
    exact fun hinput => hequal (h.input (hbaseIndex ▸ hinput))
  · rename_i hzero
    have hmodel := h.model
    split at hlower
    · rename_i hnone
      obtain ⟨rfl, rfl⟩ := Prod.mk.inj (pure_eq_ok_iff.mp hlower)
      obtain ⟨declared, hbase', hW, hequal⟩ := hlowered rfl
      rw [hnone] at hmodel
      cases hmodel' : line'.model with
      | some _ => rw [hmodel'] at hmodel; cases hmodel
      | none =>
        refine ⟨_, bind_eq_ok_iff.mpr ⟨_, hbase', (if_neg hzero).trans rfl⟩,
          ⟨⟨rfl, hW⟩, ?_, .none⟩⟩
        exact fun hinput => hequal (h.input (hbaseIndex ▸ hinput))
    · rename_i block hblock
      obtain ⟨⟨lines, innerErrors⟩, hlines, hlower⟩ := bind_eq_ok_iff.mp hlower
      obtain ⟨rfl, hnil⟩ := Prod.mk.inj (pure_eq_ok_iff.mp hlower)
      obtain ⟨rfl, rfl⟩ := List.append_eq_nil_iff.mp hnil.symm
      obtain ⟨declared, hbase', hW, hequal⟩ := hlowered rfl
      rw [hblock] at hmodel
      cases hmodel' : line'.model with
      | none => rw [hmodel'] at hmodel; cases hmodel
      | some block' =>
        rw [hmodel'] at hmodel
        cases hmodel with
        | some hblocks =>
          obtain ⟨lines', hlines', hrelated⟩ := hblocks.lowerInline hQ hlines
          have hname : block'.name = block.name := by rw [hblocks.same]
          refine ⟨_, bind_eq_ok_iff.mpr ⟨_, hbase', (if_neg hzero).trans
            (bind_eq_ok_iff.mpr ⟨_, hlines', rfl⟩)⟩, ⟨⟨?_, hW⟩, ?_, .some ⟨hname, hrelated⟩⟩⟩
          · rw [hname]
          · exact fun hinput => hequal (h.input (hbaseIndex ▸ hinput))

/-- A program is lowered without diagnostics if its variables, its override blocks and its node lines
are. -/
theorem lowerProgram_eq_ok_iff {program : Program} {definition : Definition} :
    lowerProgram program = .ok definition ↔ ∃ model hyperparameters typeOverrides nodes,
      program.model = some model ∧
        lowerHyperparameters model.declarations = .ok (hyperparameters, []) ∧
        lowerTypeBlocks model.typeBlocks = .ok (typeOverrides, []) ∧
        List.Forall₂ (fun line n => lowerNode line = .ok (n, [])) model.lines nodes ∧
        definition = ⟨model.name, program.imports, typeOverrides, hyperparameters, nodes⟩ := by
  unfold lowerProgram
  cases program.model with
  | none => exact iff_of_false nofun (by simp)
  | some model =>
    constructor
    · intro h
      obtain ⟨⟨hyperparameters, variableErrors⟩, hvariables, h⟩ := bind_eq_ok_iff.mp h
      obtain ⟨⟨typeOverrides, blockErrors⟩, hblocks, h⟩ := bind_eq_ok_iff.mp h
      obtain ⟨⟨nodes, nodeErrors⟩, hnodes, hresult⟩ := bind_eq_ok_iff.mp h
      cases hall : variableErrors ++ blockErrors ++ nodeErrors with
      | cons _ _ =>
        dsimp only at hresult
        rw [hall] at hresult
        cases hresult
      | nil =>
        dsimp only at hresult
        rw [hall] at hresult
        obtain ⟨hfirst, rfl⟩ := List.append_eq_nil_iff.mp hall
        obtain ⟨rfl, rfl⟩ := List.append_eq_nil_iff.mp hfirst
        exact ⟨model, hyperparameters, typeOverrides, nodes, rfl, hvariables, hblocks,
          collectAll_eq_nil_iff.mp hnodes, pure_eq_ok_iff.mp hresult⟩
    · rintro ⟨_, hyperparameters, typeOverrides, nodes, hmodel, hvariables, hblocks, hnodes, rfl⟩
      obtain rfl := Option.some.inj hmodel
      exact bind_eq_ok_iff.mpr ⟨_, hvariables, bind_eq_ok_iff.mpr ⟨_, hblocks,
        bind_eq_ok_iff.mpr ⟨_, collectAll_eq_nil_iff.mpr hnodes, rfl⟩⟩⟩

/-- A program with other declarations is lowered to a definition with other declarations. -/
theorem ModelBlock.Redeclares.lowerProgram
    {Q : Int → Option (List Expr) → Option (List Expr) → Prop} {program program' : Program}
    {model model' : ModelBlock} {definition : Definition} (h : model.Redeclares Q model')
    (hQ : ∀ index, LowersTo (Q index) W index) (hmodel : program.model = some model)
    (hmodel' : program'.model = some model') (himports : program'.imports = program.imports)
    (hlower : Shapeline.lowerProgram program = .ok definition) :
    ∃ definition', Shapeline.lowerProgram program' = .ok definition' ∧
      definition.Redeclares W definition' := by
  obtain ⟨block, hyperparameters, typeOverrides, nodes, hblock, hvariables, hblocks, hnodes, rfl⟩ :=
    lowerProgram_eq_ok_iff.mp hlower
  obtain rfl := Option.some.inj (hmodel.symm.trans hblock)
  obtain ⟨nodes', hnodes', hrelated⟩ := exists_forall₂_image
    (fun _ _ _ hline hnode => hline.lowerNode (hQ _) hnode) h.lines hnodes
  refine ⟨⟨model.name, program.imports, typeOverrides, hyperparameters, nodes'⟩,
    lowerProgram_eq_ok_iff.mpr ⟨model', hyperparameters, typeOverrides, nodes', hmodel', ?_⟩,
    ⟨rfl, hrelated⟩⟩
  rw [h.same, himports]
  exact ⟨hvariables, hblocks, hnodes', rfl⟩

end Shapeline
