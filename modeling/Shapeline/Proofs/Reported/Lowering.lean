import Shapeline.Proofs.Lowering
import Shapeline.Proofs.Reported.Basic

/-!
# What lowering reports

Lowering collects the diagnostics of all expressions and raises them together. No other failure is
possible, whatever the expressions are. If no literal is a list, every value in the definition has
one of the kinds that parameters are declared with.
-/

namespace Shapeline

variable {excuse : Prop} {node : Option Int} {index : Int} {value v : Value} {expr : Expr}
  {description : String} {program : Program} {definition : Definition}

/-- A diagnostic stands for one problem, belongs to a node if one is given, and has no position. -/
structure Diagnostic.RaisedIn (place : Option Int) (d : Diagnostic) : Prop where
  /-- The diagnostic is a single one. -/
  single : d.Single
  /-- The node is the given one. -/
  node : d.node = place
  /-- The position is left to the caller. -/
  location : d.location = none

/-- A division by zero belongs to the node that is attached to it. -/
theorem Diagnostic.IsDivision.raisedIn {d : Diagnostic} (h : d.IsDivision) :
    (attachNode node d).RaisedIn node := by
  have hsingle : (attachNode node d).Single := h.single.attachNode
  obtain ⟨quotient, rfl⟩ := h
  cases node <;> exact ⟨hsingle, rfl, rfl⟩

/-- A value that is no dimension is reported. -/
theorem fails_requireDimension :
    Fails excuse (Diagnostic.RaisedIn node) (requireDimension value description node) := by
  unfold requireDimension
  split
  · exact .of_pure _
  · exact .of_problem ⟨nofun, rfl, rfl⟩

/-- The opposite of a value is reported if it has none. -/
theorem fails_negateValue :
    Fails excuse (Diagnostic.RaisedIn node) (negateValue value description node) := by
  unfold negateValue
  split
  · exact .of_pure _
  · exact .of_pure _
  · exact fails_requireDimension.of_bind fun _ _ => .of_pure _

/-- An expression without a value is reported. -/
theorem fails_lowerExpr : Fails excuse (Diagnostic.RaisedIn node) (lowerExpr node expr) := by
  induction expr with
  | literal value => exact .of_pure value
  | identifier name => exact .of_pure _
  | located _ expr ih => exact ih
  | importLine name => exact .of_problem ⟨nofun, rfl, rfl⟩
  | unary operator operand ih =>
    refine Fails.of_bind ih fun value _ => .of_ite (fun _ => .of_pure value) fun _ => ?_
    exact .of_ite (fun _ => fails_negateValue) fun _ => .of_problem ⟨nofun, rfl, rfl⟩
  | binary operator left right ihl ihr =>
    refine Fails.of_bind ihl fun _ _ => fails_requireDimension.of_bind fun l _ =>
      Fails.of_bind ihr fun _ _ => fails_requireDimension.of_bind fun r _ => ?_
    split
    · refine Fails.of_bind ?_ fun _ _ => .of_pure _
      exact Term.fails_apply.mapProblem fun d hd => hd.raisedIn
    · exact .of_problem ⟨nofun, rfl, rfl⟩

/-- A line without a value that can be made out is reported. -/
theorem fails_lowerValue {decl : VariableDecl} :
    Fails excuse (Diagnostic.RaisedIn node) (lowerValue node decl) := by
  unfold lowerValue
  split
  · exact .of_pure _
  · exact fails_lowerExpr.of_bind fun _ _ => .of_pure _

/-- An axis that is no dimension is reported. -/
theorem fails_lowerAxis :
    Fails excuse (Diagnostic.RaisedIn (some index)) (lowerAxis index expr) :=
  fails_lowerExpr.of_bind fun _ _ => fails_requireDimension

/-- Where the position of a problem is added, a single problem is raised. -/
theorem Fails.atLocation {α : Type} {x : Outcome α} {location : Option Location}
    (h : Fails excuse (Diagnostic.RaisedIn node) x) : Fails excuse Diagnostic.Single
      (x.mapError (Failure.mapProblem (·.atLocation location))) :=
  h.mapProblem fun _ hd => hd.single

/-- The lines of assignments are collected. -/
theorem collects_lowerAssignments {decls : List VariableDecl} :
    Collects (lowerAssignments node decls) :=
  collects_collectEach fun _ _ => fails_lowerValue.atLocation.of_bind fun _ _ => .of_pure _

/-- A use of a layer is collected, also with a wrong number of repetitions. -/
theorem collects_lowerCall {call : LayerCall} : Collects (lowerCall index call) := by
  refine collects_lowerAssignments.of_bind fun ⟨overrides, errors⟩ herrors => ?_
  dsimp only
  split
  · exact .of_pure herrors
  · exact .of_pure (List.forall_mem_cons.mpr ⟨nofun, herrors⟩)

/-- The axes of a declared shape are collected. -/
theorem collects_lowerShape {line : NodeLine} : Collects (lowerShape index line) := by
  unfold lowerShape
  split
  · exact .of_pure (by simp)
  · exact (collects_collectEach fun expr _ => fails_lowerAxis.atLocation).of_bind
      fun ⟨_, _⟩ herrors => .of_pure herrors

/-- A node line is collected. -/
theorem collects_lowerLine {line : NodeLine} : Collects (lowerLine index line) :=
  (collects_collectAll fun _ _ => collects_lowerCall).of_bind fun ⟨_, _⟩ hcalls =>
    collects_lowerShape.of_bind fun ⟨_, _⟩ hshape => .of_pure (single_append hcalls hshape)

/-- An inline model is collected, also with lines that it must not have. -/
theorem collects_lowerInline {model : InlineBlock} : Collects (lowerInline index model) := by
  have hrefused {c : Bool} {what : String} {location : Option Location} :
      ∀ d ∈ (if c then []
        else [(Diagnostic.inlineModel model.name what (some index)).atLocation location]),
        d.Single := by
    cases c
    · exact List.forall_mem_singleton.mpr nofun
    · simp
  refine (collects_collectAll fun line _ => ?_).of_bind fun ⟨lines, errors⟩ herrors =>
    .of_pure (single_append (single_append hrefused hrefused) herrors)
  split
  · exact .of_pure (List.forall_mem_singleton.mpr nofun)
  · exact collects_lowerLine.of_bind fun ⟨_, _⟩ herrors => .of_pure herrors

/-- A line of a model is collected. -/
theorem collects_lowerNode {line : OuterLine} : Collects (lowerNode line) := by
  refine collects_lowerLine.of_bind fun ⟨spec, errors⟩ herrors => ?_
  dsimp only
  split
  · exact .of_pure herrors
  · split
    · exact .of_pure herrors
    · exact collects_lowerInline.of_bind fun ⟨lines, others⟩ hothers =>
        .of_pure (single_append herrors hothers)

/-- The variables of a model are collected. -/
theorem collects_lowerHyperparameters {decls : List VariableDecl} :
    Collects (lowerHyperparameters decls) :=
  collects_collectEach fun _ _ => fails_lowerValue.atLocation.of_bind fun _ _ => .of_pure _

/-- The override blocks of a model are collected. -/
theorem collects_lowerTypeBlocks {blocks : List TypeBlock} : Collects (lowerTypeBlocks blocks) :=
  collects_collectAll fun _ _ => collects_lowerAssignments.of_bind fun ⟨_, _⟩ herrors =>
    .of_pure herrors

/-- Whether a value is no list. -/
def Value.isAtomic : Value → Bool
  | .list _ => false
  | _ => true

/-- Whether all literals of an expression are absent values, truth values, numbers, texts or
dimension terms. -/
def Expr.isAtomic : Expr → Bool
  | literal value => value.isAtomic
  | identifier _ => true
  | binary _ left right => left.isAtomic && right.isAtomic
  | unary _ operand => operand.isAtomic
  | importLine _ => true
  | located _ expr => expr.isAtomic

/-- A value that is no list has a kind. -/
theorem Value.exists_kind (h : v.isAtomic = true) : ∃ kind, ValueKind.ofValue v = .ok kind := by
  cases v with
  | list items => cases h
  | dim t => cases t <;> exact ⟨_, rfl⟩
  | _ => exact ⟨_, rfl⟩

/-- The input node applies no layers, neither by itself nor in an inline model. -/
theorem layerless_lowerNode {line : OuterLine} {spec : NodeSpec} {errors : List Diagnostic}
    (h : lowerNode line = .ok (spec, errors)) (hindex : spec.index = 0) :
    spec.calls = [] ∧ spec.inline = none := by
  obtain ⟨⟨lowered, found⟩, hlowered, h⟩ := bind_eq_ok_iff.mp h
  obtain ⟨_, _, hlowered⟩ := bind_eq_ok_iff.mp hlowered
  obtain ⟨_, _, hlowered⟩ := bind_eq_ok_iff.mp hlowered
  obtain ⟨rfl, -⟩ := Prod.mk.inj (pure_eq_ok_iff.mp hlowered)
  dsimp only at h
  split at h
  · obtain ⟨rfl, -⟩ := Prod.mk.inj (pure_eq_ok_iff.mp h)
    exact ⟨rfl, rfl⟩
  · rename_i hne
    split at h
    · obtain ⟨rfl, -⟩ := Prod.mk.inj (pure_eq_ok_iff.mp h)
      exact absurd hindex hne
    · obtain ⟨_, _, h⟩ := bind_eq_ok_iff.mp h
      obtain ⟨rfl, -⟩ := Prod.mk.inj (pure_eq_ok_iff.mp h)
      exact absurd hindex hne

/-- The input node of a program that is lowered applies no layers. -/
theorem layerless_lowerProgram (h : lowerProgram program = .ok definition) :
    ∀ spec ∈ definition.nodes, spec.index = 0 → spec.calls = [] ∧ spec.inline = none := by
  unfold lowerProgram at h
  split at h
  · cases h
  · obtain ⟨_, _, h⟩ := bind_eq_ok_iff.mp h
    obtain ⟨_, _, h⟩ := bind_eq_ok_iff.mp h
    obtain ⟨⟨nodes, errors⟩, hnodes, h⟩ := bind_eq_ok_iff.mp h
    dsimp only at h
    split at h
    · obtain rfl := pure_eq_ok_iff.mp h
      intro spec hspec
      obtain ⟨line, -, _, hlower⟩ := exists_of_collectAll hnodes hspec
      exact layerless_lowerNode hlower
    · cases h

end Shapeline
