import Shapeline.Proofs.Reported.Lowering

/-!
# Where the problems of node lines are located

A node line may be wrong at three kinds of spots: in the number of repetitions of a call, in the
value of an override, and in an axis of the declared shape. Each spot raises at most one diagnostic,
and lowering gives it a position. The most precise position would be that of what stands at the
spot, or else that of the line. Lowering falls back on the line for axes only: a call or an override
without a position leaves its diagnostic without one, wherever the line is.
-/

namespace Shapeline

variable {node : Option Int} {index : Int} {errors : List Diagnostic} {d : Diagnostic}
  {line : NodeLine} {outer : OuterLine} {model : ModelBlock} {program : Program}

/-- A spot of a node line that may be wrong. -/
inductive Spot
  /-- The number of repetitions of a call. -/
  | repetitions (call : LayerCall)
  /-- The value of an override. -/
  | override (decl : VariableDecl)
  /-- An axis of the declared shape. -/
  | axis (expr : Expr)

/-- The spots of a call: its number of repetitions, and its overrides. -/
def LayerCall.spots (call : LayerCall) : List Spot :=
  .repetitions call :: call.overrides.map .override

/-- The spots of a node line: those of its calls, and its axes. -/
def NodeLine.spots (line : NodeLine) : List Spot :=
  line.calls.flatMap LayerCall.spots ++ (line.shape.getD []).map .axis

namespace Spot

/-- What is wrong at a spot, if anything is, as far as it is known there. -/
def fault? (index : Int) : Spot → Option Diagnostic
  | repetitions call =>
    match repetitions? call.repetitions with
    | some _ => none
    | none => some (.valueType (some call.name) "repeat" "positive integer" call.repetitions.literal
        (some index))
  | override decl => raised? (lowerValue (some index) decl)
  | axis expr => raised? (lowerAxis index expr)

/-- The position of what stands at a spot: for an override that of the value or else that of its
line. -/
def ownPosition : Spot → Option Location
  | repetitions call => call.location
  | override decl => decl.valueLocation
  | axis expr => expr.location?

/-- Whether a spot is an axis of the declared shape. -/
def isAxis : Spot → Bool
  | axis _ => true
  | _ => false

/-- The most precise position that is known: that of what stands at the spot, or else that of the
node line. -/
def bestPosition (spot : Spot) (line : NodeLine) : Option Location :=
  spot.ownPosition.or line.location

/-- The position that a problem at a spot is reported with. Only axes fall back on the line. -/
def reportedPosition (spot : Spot) (line : NodeLine) : Option Location :=
  if spot.isAxis then spot.bestPosition line else spot.ownPosition

/-- The diagnostic of a spot in a node line, if something is wrong there. -/
def problem? (index : Int) (line : NodeLine) (spot : Spot) : Option Diagnostic :=
  (spot.fault? index).map (·.atLocation (spot.reportedPosition line))

variable {spot : Spot}

/-- The most precise position is reported, except for a problem of a call that has no position and
stands in a line that has one: it is reported without a position. -/
theorem reportedPosition_cases :
    spot.reportedPosition line = spot.bestPosition line ∨
      spot.isAxis = false ∧ spot.ownPosition = none ∧ line.location ≠ none ∧
        spot.reportedPosition line = none := by
  unfold reportedPosition bestPosition
  cases spot.isAxis <;> cases spot.ownPosition <;> cases line.location <;> simp

/-- What is wrong at a spot is reported against the node, and its position is open. -/
theorem raisedIn_of_fault? (h : spot.fault? index = some d) : d.RaisedIn (some index) := by
  have hraised {α : Type} {x : Outcome α} (hx : Fails False (Diagnostic.RaisedIn (some index)) x)
      (h : raised? x = some d) : d.RaisedIn (some index) := by
    unfold raised? at h
    split at h
    · exact Option.some.inj h ▸ hx.of_error rfl
    · cases h
  cases spot with
  | repetitions call =>
    dsimp only [fault?] at h
    split at h
    · cases h
    · exact Option.some.inj h ▸ ⟨nofun, rfl, rfl⟩
  | override decl => exact hraised fails_lowerValue h
  | axis expr => exact hraised fails_lowerAxis h

/-- A problem is what is wrong at the spot, with the reported position. -/
theorem problem?_eq_some_iff :
    spot.problem? index line = some d ↔ ∃ fault, spot.fault? index = some fault ∧
      d = { fault with location := spot.reportedPosition line } := by
  unfold problem?
  rw [Option.map_eq_some_iff]
  refine exists_congr fun fault => and_congr_right fun hfault => ?_
  rw [Diagnostic.atLocation, (raisedIn_of_fault? hfault).location, Option.none_or, eq_comm]

end Spot

/-- The diagnostics of a node line. -/
def NodeLine.problems (line : NodeLine) (index : Int) : List Diagnostic :=
  line.spots.filterMap (·.problem? index line)

/-- Overrides are wrong where their values are. -/
theorem errors_of_lowerAssignments {decls : List VariableDecl} {found : List Assignment}
    (h : lowerAssignments (some index) decls = .ok (found, errors)) :
    errors = (decls.map Spot.override).filterMap (·.problem? index line) := by
  rw [errors_of_collectEach h, List.filterMap_map]
  exact List.filterMap_congr fun decl _ => raised?_bind_pure.trans raised?_mapProblem

/-- A call is wrong at its spots. The overrides are lowered first, but the number of repetitions is
reported in front of them. -/
theorem errors_of_lowerCall {call : LayerCall} {found : CallSpec}
    (h : lowerCall index call = .ok (found, errors)) :
    errors = call.spots.filterMap (·.problem? index line) := by
  obtain ⟨⟨overrides, others⟩, hoverrides, h⟩ := bind_eq_ok_iff.mp h
  have hothers : others = (call.overrides.map Spot.override).filterMap (·.problem? index line) :=
    errors_of_lowerAssignments hoverrides
  unfold LayerCall.spots
  rw [List.filterMap_cons, ← hothers]
  dsimp only at h
  dsimp only [Spot.problem?, Spot.fault?]
  cases hcount : repetitions? call.repetitions with
  | none =>
    rw [hcount] at h
    exact (Prod.mk.inj (pure_eq_ok_iff.mp h)).2
  | some count =>
    rw [hcount] at h
    exact (Prod.mk.inj (pure_eq_ok_iff.mp h)).2

/-- A declared shape is wrong at its axes. -/
theorem errors_of_lowerShape {found : Option Shape}
    (h : lowerShape index line = .ok (found, errors)) :
    errors = ((line.shape.getD []).map Spot.axis).filterMap (·.problem? index line) := by
  unfold lowerShape at h
  split at h
  · rename_i hshape
    rw [hshape]
    exact (Prod.mk.inj (pure_eq_ok_iff.mp h)).2
  · rename_i exprs hshape
    obtain ⟨⟨axes, others⟩, haxes, h⟩ := bind_eq_ok_iff.mp h
    obtain ⟨-, rfl⟩ := Prod.mk.inj (pure_eq_ok_iff.mp h)
    rw [errors_of_collectEach haxes, hshape, Option.getD_some, List.filterMap_map]
    exact List.filterMap_congr fun expr _ => raised?_mapProblem

/-- A node line is wrong at its spots. -/
theorem errors_of_lowerLine {found : LineSpec}
    (h : lowerLine index line = .ok (found, errors)) : errors = line.problems index := by
  obtain ⟨⟨calls, callErrors⟩, hcalls, h⟩ := bind_eq_ok_iff.mp h
  obtain ⟨⟨declared, shapeErrors⟩, hdeclared, h⟩ := bind_eq_ok_iff.mp h
  obtain ⟨-, rfl⟩ := Prod.mk.inj (pure_eq_ok_iff.mp h)
  unfold NodeLine.problems NodeLine.spots
  rw [List.filterMap_append, List.filterMap_flatMap, ← errors_of_lowerShape hdeclared,
    errors_of_collectAll (fun call _ _ _ hcall => errors_of_lowerCall hcall) hcalls]

/-- The complaint about something that an inline model must not hold. -/
def InlineBlock.refusal (block : InlineBlock) (index : Int) (what : String)
    (location : Option Location) : Diagnostic :=
  (Diagnostic.inlineModel block.name what (some index)).atLocation location

/-- The complaints about the variables and the override blocks of an inline model. -/
def InlineBlock.blockRefusals (block : InlineBlock) (index : Int) : List Diagnostic :=
  (if block.declarations.isEmpty then [] else [block.refusal index "variables" block.location]) ++
  (if block.typeBlocks.isEmpty then [] else [block.refusal index "type blocks" block.location])

/-- The complaints about what an inline model holds besides plain node lines. -/
def InlineBlock.refusals (block : InlineBlock) (index : Int) : List Diagnostic :=
  block.blockRefusals index ++ (block.lines.filter (·.nested)).map fun line =>
    block.refusal index "nested inline models" line.location

/-- The diagnostics of an inline model, which are reported against the enclosing node. -/
def InlineBlock.problems (block : InlineBlock) (index : Int) : List Diagnostic :=
  block.blockRefusals index ++ block.lines.flatMap fun line =>
    if line.nested then [block.refusal index "nested inline models" line.location]
    else line.toNodeLine.problems index

/-- The inline model of a line that is lowered with the line: none for the input node. -/
def OuterLine.loweredModel? (outer : OuterLine) : Option InlineBlock :=
  if outer.index = 0 then none else outer.model

/-- The diagnostics of a line of a model and of its inline model. -/
def OuterLine.problems (outer : OuterLine) : List Diagnostic :=
  outer.toNodeLine.problems outer.index ++
    outer.loweredModel?.toList.flatMap (·.problems outer.index)

/-- The node lines that are lowered for a line of a model: the line itself, and those of its inline
model that do not hold models themselves. -/
def OuterLine.nodeLines (outer : OuterLine) : List NodeLine :=
  outer.toNodeLine :: outer.loweredModel?.toList.flatMap fun block =>
    (block.lines.filter (!·.nested)).map (·.toNodeLine)

/-- The diagnostics of an inline model are collected line by line. -/
theorem errors_of_lowerInline {block : InlineBlock} {found : List LineSpec}
    (h : lowerInline index block = .ok (found, errors)) : errors = block.problems index := by
  obtain ⟨⟨lines, others⟩, hlines, h⟩ := bind_eq_ok_iff.mp h
  obtain ⟨-, rfl⟩ := Prod.mk.inj (pure_eq_ok_iff.mp h)
  refine congrArg₂ _ rfl (errors_of_collectAll (fun line _ spec errors hline => ?_) hlines)
  split at hline
  · rename_i hnested
    rw [if_pos hnested]
    exact (Prod.mk.inj (pure_eq_ok_iff.mp hline)).2
  · rename_i hplain
    rw [if_neg hplain]
    obtain ⟨⟨lowered, rest⟩, hlowered, hline⟩ := bind_eq_ok_iff.mp hline
    obtain ⟨-, rfl⟩ := Prod.mk.inj (pure_eq_ok_iff.mp hline)
    exact errors_of_lowerLine hlowered

/-- The diagnostics of a line of a model are those of the line and of its inline model. -/
theorem errors_of_lowerNode {found : NodeSpec} (h : lowerNode outer = .ok (found, errors)) :
    errors = outer.problems := by
  obtain ⟨⟨spec, lineErrors⟩, hline, h⟩ := bind_eq_ok_iff.mp h
  obtain rfl := errors_of_lowerLine hline
  dsimp only at h
  unfold OuterLine.problems OuterLine.loweredModel?
  split at h
  · rename_i hindex
    obtain ⟨-, rfl⟩ := Prod.mk.inj (pure_eq_ok_iff.mp h)
    simp [hindex]
  · rename_i hindex
    rw [if_neg hindex]
    split at h
    · rename_i hmodel
      obtain ⟨-, rfl⟩ := Prod.mk.inj (pure_eq_ok_iff.mp h)
      simp [hmodel]
    · rename_i block hmodel
      obtain ⟨⟨lines, innerErrors⟩, hinner, h⟩ := bind_eq_ok_iff.mp h
      obtain ⟨-, rfl⟩ := Prod.mk.inj (pure_eq_ok_iff.mp h)
      simp [hmodel, errors_of_lowerInline hinner]

/-- A diagnostic of an inline model is a complaint about what it holds, or a problem of one of its
node lines. -/
theorem InlineBlock.mem_problems_iff {block : InlineBlock} :
    d ∈ block.problems index ↔ d ∈ block.refusals index ∨
      ∃ line ∈ block.lines.filter (!·.nested), d ∈ line.toNodeLine.problems index := by
  have hlines : (d ∈ block.lines.flatMap fun line =>
        if line.nested then [block.refusal index "nested inline models" line.location]
        else line.toNodeLine.problems index) ↔
      d ∈ (block.lines.filter (·.nested)).map (fun line =>
        block.refusal index "nested inline models" line.location) ∨
      ∃ line ∈ block.lines.filter (!·.nested), d ∈ line.toNodeLine.problems index := by
    simp only [List.mem_flatMap, List.mem_map, List.mem_filter, ← exists_or]
    refine exists_congr fun line => ?_
    cases line.nested <;> simp [eq_comm]
  rw [problems, refusals, List.mem_append, hlines, List.mem_append, or_assoc]

/-- A diagnostic of a line of a model is a complaint about its inline model, or a problem of a node
line that is lowered for it. -/
theorem OuterLine.mem_problems_iff :
    d ∈ outer.problems ↔ (∃ block ∈ outer.loweredModel?, d ∈ block.refusals outer.index) ∨
      ∃ line ∈ outer.nodeLines, ∃ spot ∈ line.spots, spot.problem? outer.index line = some d := by
  have hspots (line : NodeLine) : d ∈ line.problems outer.index ↔
      ∃ spot ∈ line.spots, spot.problem? outer.index line = some d := List.mem_filterMap
  simp only [← hspots]
  unfold problems nodeLines
  cases outer.loweredModel? with
  | none => simp
  | some block => simp [InlineBlock.mem_problems_iff, or_left_comm]

/-- Lowering a program with a model raises the problems of its variables, of its override blocks and
of its lines together, if there are any. -/
theorem lowerProgram_eq_error_iff (hmodel : program.model = some model) :
    ∃ ofVariables ofBlocks,
      (∃ found, lowerHyperparameters model.declarations = .ok (found, ofVariables)) ∧
      (∃ found, lowerTypeBlocks model.typeBlocks = .ok (found, ofBlocks)) ∧
      ∀ failure, lowerProgram program = .error failure ↔
        ofVariables ++ ofBlocks ++ model.lines.flatMap OuterLine.problems ≠ [] ∧ failure =
          .problems (ofVariables ++ ofBlocks ++ model.lines.flatMap OuterLine.problems) := by
  have hcollects : Collects (lowerHyperparameters model.declarations) ∧
      Collects (lowerTypeBlocks model.typeBlocks) ∧ Collects (collectAll lowerNode model.lines) :=
    ⟨collects_lowerHyperparameters, collects_lowerTypeBlocks,
      collects_collectAll fun _ _ => collects_lowerNode⟩
  obtain ⟨⟨⟨hyperparameters, ofVariables⟩, hvariables, -⟩,
    ⟨⟨typeOverrides, ofBlocks⟩, hblocks, -⟩, ⟨⟨nodes, ofLines⟩, hnodes, -⟩⟩ := hcollects
  obtain rfl := errors_of_collectAll (fun outer _ _ _ houter => errors_of_lowerNode houter) hnodes
  refine ⟨ofVariables, ofBlocks, ⟨_, hvariables⟩, ⟨_, hblocks⟩, fun failure => ?_⟩
  unfold lowerProgram
  rw [hmodel]
  dsimp only
  rw [hvariables, hblocks, hnodes]
  dsimp only [bind, Except.bind]
  split
  · rename_i hnil
    simp [hnil, pure, Except.pure]
  · rename_i hne
    exact ⟨fun h => ⟨hne, (Except.error.inj h).symm⟩, fun h => congrArg _ h.2.symm⟩

/-- The problems of node lines are located. Lowering a program with a model raises everything that
it finds together. What it finds in the lines of the model is a complaint about what an inline model
holds, or what is wrong at a spot of a node line, outer or inner, with the reported position. That
is the most precise position that is known, except for a call or an override that has no position
and stands in a line that has one: its problem is reported without a position. -/
theorem line_problems_located (hmodel : program.model = some model) :
    ∃ ofVariables ofBlocks ofLines,
      (∃ found, lowerHyperparameters model.declarations = .ok (found, ofVariables)) ∧
      (∃ found, lowerTypeBlocks model.typeBlocks = .ok (found, ofBlocks)) ∧
      (∀ failure, lowerProgram program = .error failure ↔
        ofVariables ++ ofBlocks ++ ofLines ≠ [] ∧
        failure = .problems (ofVariables ++ ofBlocks ++ ofLines)) ∧
      (∀ d, d ∈ ofLines ↔
        (∃ outer ∈ model.lines, ∃ block ∈ outer.loweredModel?, d ∈ block.refusals outer.index) ∨
        ∃ outer ∈ model.lines, ∃ line ∈ outer.nodeLines, ∃ spot ∈ line.spots, ∃ fault,
          spot.fault? outer.index = some fault ∧
          d = { fault with location := spot.reportedPosition line }) ∧
      ∀ (spot : Spot) (line : NodeLine), spot.reportedPosition line = spot.bestPosition line ∨
        spot.isAxis = false ∧ spot.ownPosition = none ∧ line.location ≠ none ∧
          spot.reportedPosition line = none := by
  obtain ⟨ofVariables, ofBlocks, hvariables, hblocks, hrun⟩ := lowerProgram_eq_error_iff hmodel
  refine ⟨ofVariables, ofBlocks, _, hvariables, hblocks, hrun, fun d => ?_,
    fun _ _ => Spot.reportedPosition_cases⟩
  simp only [List.mem_flatMap, OuterLine.mem_problems_iff, Spot.problem?_eq_some_iff, and_or_left,
    exists_or]

/-- A call that is applied zero times. Its position is not known. -/
def uncountedCall : LayerCall where
  name := "ReLU"
  repetitions := .int 0

/-- A node line with that call, and with a text where an extent is expected. Only the position of
the line is known. -/
def uncountedLine : NodeLine where
  index := 1
  calls := [uncountedCall]
  shape := some [.literal (.text "x")]
  location := some ⟨"m.nn", 3, 1⟩

/-- A model with the line. -/
def uncountedModel : ModelBlock where
  name := "Uncounted"
  lines := [{ index := 0, shape := some [.identifier "C"] }, { toNodeLine := uncountedLine }]

/-- A program with the model. -/
def uncountedProgram : Program where
  imports := ["ReLU"]
  model := some uncountedModel

/-- Both problems of the line are reported. That of the axis has the position of the line, and that
of the call has none. -/
theorem uncountedProgram_located :
    ∃ errors, lowerProgram uncountedProgram = .error (.problems errors) ∧
      (∃ d ∈ errors, d.location = none ∧
        (Spot.repetitions uncountedCall).bestPosition uncountedLine = some ⟨"m.nn", 3, 1⟩) ∧
      ∃ d ∈ errors, d.location = some ⟨"m.nn", 3, 1⟩ := by
  have hmodel : uncountedProgram.model = some uncountedModel := rfl
  obtain ⟨ofVariables, ofBlocks, ofLines, -, -, hrun, hlines, -⟩ := line_problems_located hmodel
  have hreported (spot : Spot) {fault : Diagnostic} (hspot : spot ∈ uncountedLine.spots)
      (hfault : spot.fault? 1 = some fault) :
      { fault with location := spot.reportedPosition uncountedLine } ∈ ofLines :=
    (hlines _).mpr (.inr ⟨{ toNodeLine := uncountedLine }, .tail _ (.head _), uncountedLine,
      .head _, spot, hspot, fault, hfault, rfl⟩)
  have hcall := hreported (.repetitions uncountedCall) (.head _) rfl
  have haxis := hreported (.axis (.literal (.text "x"))) (.tail _ (.head _)) rfl
  refine ⟨_, (hrun _).mpr ⟨?_, rfl⟩, ⟨_, List.mem_append_right _ hcall, rfl, rfl⟩,
    _, List.mem_append_right _ haxis, rfl⟩
  exact List.append_ne_nil_of_right_ne_nil _ (List.ne_nil_of_mem hcall)

end Shapeline
