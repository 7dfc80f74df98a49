import Shapeline.Proofs.Lowered
import Shapeline.Proofs.Renaming.Program
import Shapeline.Proofs.Renaming.Resolution

/-!
# Lowering renamed programs

The values of expressions are built by operations on terms, so a renamed expression has the renamed
value, and it has one exactly if the expression has. A program that is lowered without diagnostics
is therefore still so after renaming, to a definition with the new names.
-/

namespace Shapeline

variable (π : Equiv.Perm String) {node : Option Int} {index : Int} {expr : Expr} {v : Value}
  {decl : VariableDecl} {decls : List VariableDecl} {assignments : List Assignment}
  {call : LayerCall} {callSpec : CallSpec} {line : NodeLine} {spec : LineSpec}
  {block : InlineBlock} {specs : List LineSpec} {outer : OuterLine} {n : NodeSpec}
  {program : Program} {definition : Definition}

/-- The opposite of a renamed term is the renamed opposite. -/
theorem Term.negate_rename {f : String → String} (t : Term) :
    (t.rename f).negate = t.negate.rename f := by
  cases t <;> rfl

/-- A renamed value is a dimension if the value is. -/
theorem mirrors_requireDimension {description description' : String} :
    Mirrors (Term.rename π) (requireDimension v description node)
      (requireDimension (v.rename π) description' node) := by
  unfold requireDimension
  rw [Value.toTerm?_rename]
  cases v.toTerm? with
  | none => exact .of_throw
  | some t => exact .of_pure t

/-- The opposite of a renamed value is the renamed opposite. -/
theorem mirrors_negateValue {description description' : String} :
    Mirrors (Value.rename π) (negateValue v description node)
      (negateValue (v.rename π) description' node) := by
  have hdim (w : Value) : Mirrors (Value.rename π)
      (do return .dim (← requireDimension w description node).negate)
      (do return .dim (← requireDimension (w.rename π) description' node).negate) := by
    refine (mirrors_requireDimension π).of_bind fun t => ?_
    rw [Term.negate_rename]
    exact .of_pure (Value.dim t.negate)
  cases v with
  | int n => exact .of_pure (Value.int (-n))
  | real x => exact .of_pure (Value.real x.negate)
  | _ => exact hdim _

/-- A renamed expression has the renamed value. -/
theorem mirrors_lowerExpr :
    Mirrors (Value.rename π) (lowerExpr node expr) (lowerExpr node (expr.rename π)) := by
  induction expr with
  | literal value => exact .of_pure value
  | identifier name => exact .of_pure (Value.dim (.sym name))
  | located _ expr ih => exact ih
  | importLine name => exact .of_throw
  | unary operator operand ih =>
    refine ih.of_bind fun value => .of_ite (.of_pure value) (.of_ite ?_ .of_throw)
    exact mirrors_negateValue π
  | binary operator left right ihl ihr =>
    refine ihl.of_bind fun lv => (mirrors_requireDimension π).of_bind fun l => ?_
    refine ihr.of_bind fun rv => (mirrors_requireDimension π).of_bind fun r => ?_
    cases Operator.ofSymbol? operator with
    | none => exact .of_throw
    | some o => exact (Term.mirrors_apply π).of_mapError.of_bind fun t => .of_pure (Value.dim t)

/-- An integer term is replaced by the plain integer before or after renaming. -/
theorem Value.unwrapInteger_rename {f : String → String} (v : Value) :
    (v.rename f).unwrapInteger = v.unwrapInteger.rename f := by
  cases v with
  | dim t => cases t <;> rfl
  | _ => rfl

/-- A renamed line has the renamed value. -/
theorem mirrors_lowerValue :
    Mirrors (Value.rename π) (lowerValue node decl) (lowerValue node (decl.rename π)) := by
  have hvalue : (decl.rename π).value = decl.value.map (Expr.rename π) := rfl
  unfold lowerValue
  rw [hvalue]
  cases decl.value with
  | none => exact .of_pure Value.absent
  | some expr =>
    refine (mirrors_lowerExpr π).of_bind fun value => ?_
    rw [Value.unwrapInteger_rename]
    exact .of_pure _

/-- A renamed extent is lowered to the renamed term. -/
theorem mirrors_lowerAxis :
    Mirrors (Term.rename π) (lowerAxis index expr) (lowerAxis index (expr.rename π)) :=
  (mirrors_lowerExpr π).of_bind fun _ => mirrors_requireDimension π

/-- Renamed lines that set parameters are lowered to the renamed assignments. -/
theorem lowerAssignments_rename (h : lowerAssignments node decls = .ok (assignments, [])) :
    lowerAssignments node (decls.map (VariableDecl.rename π)) =
      .ok (assignments.map (Assignment.rename π), []) := by
  rw [lowerAssignments_eq_nil_iff] at h ⊢
  rw [List.forall₂_map_left_iff, List.forall₂_map_right_iff]
  refine h.imp fun decl a ⟨value, hvalue, ha⟩ => ?_
  exact ⟨value.rename π, (mirrors_lowerValue π).ok hvalue, ha ▸ rfl⟩

/-- A renamed use of a layer type is lowered to the renamed one. -/
theorem lowerCall_rename (h : lowerCall index call = .ok (callSpec, [])) :
    lowerCall index (call.rename π) = .ok (callSpec.rename π, []) := by
  obtain ⟨overrides, count, hoverrides, hcount, rfl⟩ := lowerCall_eq_nil_iff.mp h
  exact lowerCall_eq_nil_iff.mpr ⟨_, count, lowerAssignments_rename π hoverrides, hcount, rfl⟩

/-- A renamed declared shape is lowered axis by axis. -/
theorem LowersShape.rename {exprs : Option (List Expr)} {declared : Option Shape}
    (h : LowersShape index exprs declared) :
    LowersShape index (exprs.map (List.map (Expr.rename π))) (declared.map (Shape.rename π)) := by
  cases h with
  | none => exact .none
  | some haxes =>
    refine .some ?_
    change List.Forall₂ _ _ (List.map _ _)
    rw [List.forall₂_map_left_iff, List.forall₂_map_right_iff]
    exact haxes.imp fun _ _ haxis => (mirrors_lowerAxis π).ok haxis

/-- A renamed node line is lowered to the renamed node. -/
theorem lowerLine_rename (h : lowerLine index line = .ok (spec, [])) :
    lowerLine index (line.rename π) = .ok (spec.rename π, []) := by
  obtain ⟨calls, declared, hcalls, hdeclared, rfl⟩ := lowerLine_eq_nil_iff.mp h
  refine lowerLine_eq_nil_iff.mpr ⟨_, _, ?_, hdeclared.rename π, rfl⟩
  change List.Forall₂ _ (List.map _ _) _
  rw [List.forall₂_map_left_iff, List.forall₂_map_right_iff]
  exact hcalls.imp fun _ _ hcall => lowerCall_rename π hcall

/-- A renamed inline model is lowered to the renamed nodes. -/
theorem lowerInline_rename (h : lowerInline index block = .ok (specs, [])) :
    lowerInline index (block.rename π) = .ok (specs.map (LineSpec.rename π), []) := by
  obtain ⟨hdeclarations, hblocks, hlines⟩ := lowerInline_eq_nil_iff.mp h
  refine lowerInline_eq_nil_iff.mpr ⟨?_, ?_, ?_⟩
  · exact List.isEmpty_map.trans hdeclarations
  · exact List.isEmpty_map.trans hblocks
  · change List.Forall₂ _ (List.map _ _) _
    rw [List.forall₂_map_left_iff, List.forall₂_map_right_iff]
    exact hlines.imp fun _ _ hline => ⟨hline.1, lowerLine_rename π hline.2⟩

/-- The label of the renamed input node stays. -/
theorem LineSpec.inputLabel_rename {f : String → String} :
    (spec.rename f).inputLabel = spec.inputLabel := by
  have hwords : (spec.rename f).calls.map (·.name) = spec.calls.map (·.name) := by
    change (List.map _ _).map _ = _
    rw [List.map_map]
    rfl
  unfold inputLabel
  rw [hwords]
  rfl

/-- A renamed line of a model is lowered to the renamed node. -/
theorem lowerNode_rename (h : lowerNode outer = .ok (n, [])) :
    lowerNode (outer.rename π) = .ok (n.rename π, []) := by
  by_cases hzero : outer.index = 0
  · have hzero' : (outer.rename π).index = 0 := hzero
    obtain ⟨spec, hspec, rfl⟩ := (lowerNode_input_iff hzero).mp h
    refine (lowerNode_input_iff hzero').mpr ⟨spec.rename π, lowerLine_rename π hspec, ?_⟩
    rw [LineSpec.inputLabel_rename]
    rfl
  · have hzero' : (outer.rename π).index ≠ 0 := hzero
    cases hmodel : outer.model with
    | none =>
      have hnone : (outer.rename π).model = none := by rw [OuterLine.rename, hmodel]; rfl
      obtain ⟨spec, hspec, rfl⟩ := (lowerNode_plain_iff hzero hmodel).mp h
      exact (lowerNode_plain_iff hzero' hnone).mpr ⟨_, lowerLine_rename π hspec, rfl⟩
    | some block =>
      have hsome : (outer.rename π).model = some (block.rename π) := by
        rw [OuterLine.rename, hmodel]
        rfl
      obtain ⟨spec, lines, hspec, hlines, rfl⟩ := (lowerNode_inline_iff hzero hmodel).mp h
      exact (lowerNode_inline_iff hzero' hsome).mpr
        ⟨_, _, lowerLine_rename π hspec, lowerInline_rename π hlines, rfl⟩

/-- A renamed variable has the renamed value. -/
theorem lowerValue_renameVariable (h : lowerValue node decl = .ok v) :
    lowerValue node (decl.renameVariable π) = .ok (v.rename π) := by
  have hsame : lowerValue node (decl.renameVariable π) = lowerValue node (decl.rename π) := by
    unfold lowerValue
    rw [VariableDecl.value_renameVariable]
    rfl
  exact hsame.trans ((mirrors_lowerValue π).ok h)

/-- Renamed variables are lowered to the renamed ones. -/
theorem lowerHyperparameters_rename {hyperparameters : List Hyperparameter}
    (hdecls : ∀ decl ∈ decls, decl.KeepsShort π)
    (h : lowerHyperparameters decls = .ok (hyperparameters, [])) :
    ∃ hyperparameters', lowerHyperparameters (decls.map (VariableDecl.renameVariable π)) =
        .ok (hyperparameters', []) ∧
      List.Forall₂ (Hyperparameter.Renames π) hyperparameters hyperparameters' := by
  simp only [lowerHyperparameters_eq_nil_iff, List.forall₂_map_left_iff] at h ⊢
  have hsame : List.Forall₂ (fun decl decl' => decl = decl' ∧ decl.KeepsShort π) decls decls :=
    List.forall₂_same.mpr fun decl hdecl => ⟨rfl, hdecls decl hdecl⟩
  refine exists_forall₂_image (fun decl decl' h hdecl hh => ?_) hsame h
  obtain ⟨rfl, hkeeps⟩ := hdecl
  obtain ⟨value, hvalue, rfl⟩ := hh
  have hkey := VariableDecl.key_renameVariable hkeeps
  refine ⟨_, ⟨_, lowerValue_renameVariable π hvalue, rfl⟩, ⟨hkey, ?_, rfl⟩⟩
  exact VariableDecl.description_renameVariable.imp_right fun h => ⟨h.1, h.2.trans hkey.symm⟩

/-- Renamed override blocks are lowered to the renamed ones. -/
theorem lowerTypeBlocks_rename {blocks : List TypeBlock} {typeOverrides : List TypeOverride}
    (h : lowerTypeBlocks blocks = .ok (typeOverrides, [])) :
    lowerTypeBlocks (blocks.map (TypeBlock.rename π)) =
      .ok (typeOverrides.map (TypeOverride.rename π), []) := by
  rw [lowerTypeBlocks_eq_nil_iff] at h ⊢
  rw [List.forall₂_map_left_iff, List.forall₂_map_right_iff]
  exact h.imp fun block override ⟨assignments, hassignments, heq⟩ =>
    ⟨_, lowerAssignments_rename π hassignments, heq ▸ rfl⟩

/-- A renamed program is lowered to the renamed definition. -/
theorem lowerProgram_rename (hprogram : program.KeepsShort π)
    (h : lowerProgram program = .ok definition) :
    ∃ definition', lowerProgram (program.rename π) = .ok definition' ∧
      definition.Renames π definition' := by
  obtain ⟨block, hyperparameters, typeOverrides, nodes, hblock, hvariables, hblocks, hnodes, rfl⟩ :=
    lowerProgram_eq_ok_iff.mp h
  obtain ⟨hyperparameters', hvariables', hrenames⟩ :=
    lowerHyperparameters_rename π (hprogram block hblock) hvariables
  refine ⟨_, lowerProgram_eq_ok_iff.mpr ⟨block.rename π, hyperparameters', _,
    nodes.map (NodeSpec.rename π), ?_, hvariables', lowerTypeBlocks_rename π hblocks, ?_, rfl⟩,
    ⟨rfl, hrenames⟩⟩
  · rw [Program.rename, hblock]
    rfl
  · change List.Forall₂ _ (List.map _ _) _
    rw [List.forall₂_map_left_iff, List.forall₂_map_right_iff]
    exact hnodes.imp fun _ _ hn => lowerNode_rename π hn

/-- Every symbol of a term has a property. -/
def Term.SymbolsSatisfy (P : String → Prop) (t : Term) : Prop := ∀ name ∈ t.symbols, P name

/-- A property of symbols is kept when terms are built. -/
theorem Term.arithmetic_symbols (P : String → Prop) : Term.Arithmetic (Term.SymbolsSatisfy P) where
  const n := by simp [SymbolsSatisfy, symbols]
  apply o left right t hl hr h := by
    obtain ⟨-, rfl⟩ := apply_eq_ok_iff.mp h
    exact fun name hname => (Names.mem_union.mp hname).elim (hl name) (hr name)

/-- A property of the symbols of an expression is one of its leaves. -/
theorem Expr.leavesSatisfy_of_symbols {P : String → Prop} (h : ∀ name ∈ expr.symbols, P name) :
    expr.LeavesSatisfy (Term.SymbolsSatisfy P) := by
  induction expr with
  | literal value =>
    intro t ht name hname
    refine h name ?_
    rw [symbols, ht]
    exact hname
  | identifier other =>
    intro name hname
    exact h name hname
  | binary _ left right ihl ihr =>
    obtain ⟨hl, hr⟩ := List.forall_mem_append.mp h
    exact ⟨ihl hl, ihr hr⟩
  | unary _ _ ih => exact ih h
  | importLine _ => trivial
  | located _ _ ih => exact ih h

section Exprs

variable {name : String} (hname : name ∈ expr.symbols)

include hname

/-- The symbols of the value of a line are symbols of the line. -/
theorem VariableDecl.mem_symbols_of_exprs (h : expr ∈ decl.exprs) : name ∈ decl.symbols := by
  rw [symbols, Option.mem_toList.mp h]
  exact hname

omit hname in
/-- What is a symbol of an item whenever it is one of its expressions is a symbol of the list. -/
theorem mem_symbols_of_flatMap {α : Type} {items : List α} {exprs : α → List Expr}
    {symbols : α → List String} (hitem : ∀ item, expr ∈ exprs item → name ∈ symbols item)
    (h : expr ∈ items.flatMap exprs) : name ∈ items.flatMap symbols := by
  obtain ⟨item, hitems, hexpr⟩ := List.mem_flatMap.mp h
  exact List.mem_flatMap.mpr ⟨item, hitems, hitem item hexpr⟩

/-- The symbols of the expressions of a node line are symbols of the line. -/
theorem NodeLine.mem_symbols_of_exprs (h : expr ∈ line.exprs) : name ∈ line.symbols := by
  rcases List.mem_append.mp h with h | h
  · refine List.mem_append_left _ (mem_symbols_of_flatMap (fun call h => ?_) h)
    exact mem_symbols_of_flatMap (fun _ => VariableDecl.mem_symbols_of_exprs hname) h
  · refine List.mem_append_right _ ?_
    cases hshape : line.shape with
    | none => simp [hshape] at h
    | some exprs =>
      rw [hshape] at h
      exact List.mem_flatMap.mpr ⟨expr, h, hname⟩

/-- The symbols of the expressions of a model are symbols of the model. -/
theorem ModelBlock.mem_symbols_of_exprs {model : ModelBlock} (h : expr ∈ model.exprs) :
    name ∈ model.symbols := by
  have hdecls {decls : List VariableDecl} (h : expr ∈ decls.flatMap VariableDecl.exprs) :
      name ∈ decls.flatMap VariableDecl.symbols :=
    mem_symbols_of_flatMap (fun _ => VariableDecl.mem_symbols_of_exprs hname) h
  unfold exprs at h
  rcases List.mem_append.mp h with h | h
  · rcases List.mem_append.mp h with h | h
    · refine List.mem_append_left _ ?_
      rcases List.mem_append.mp h with h | h
      · exact List.mem_append_left _ (List.mem_append_right _ (hdecls h))
      · exact List.mem_append_right _ (mem_symbols_of_flatMap (fun _ h => hdecls h) h)
    · refine List.mem_append_right _ (mem_symbols_of_flatMap (fun line h => ?_) h)
      exact List.mem_append_left _ (NodeLine.mem_symbols_of_exprs hname h)
  · refine List.mem_append_right _ (mem_symbols_of_flatMap (fun line h => ?_) h)
    obtain ⟨block, hblock, h⟩ := List.mem_flatMap.mp h
    refine List.mem_append_right _ ?_
    rw [Option.mem_toList.mp hblock]
    exact List.mem_append_right _ (mem_symbols_of_flatMap (fun inner h =>
      NodeLine.mem_symbols_of_exprs hname h) h)

/-- The symbols of the expressions of a program are symbols of the program. -/
theorem Program.mem_symbols_of_exprs (h : expr ∈ program.exprs) : name ∈ program.symbols := by
  obtain ⟨model, hmodel, h⟩ := List.mem_flatMap.mp h
  rw [symbols, Option.mem_toList.mp hmodel]
  exact ModelBlock.mem_symbols_of_exprs hname h

end Exprs

/-- The symbols of a definition are those of the program. -/
theorem symbols_lowerProgram (h : lowerProgram program = .ok definition) :
    definition.TermsSatisfy (Term.SymbolsSatisfy (· ∈ program.symbols)) ∧
      ∀ h ∈ definition.hyperparameters, h.symbol ∈ program.symbols := by
  obtain ⟨hterms, block, hblock, hkeys⟩ := termsSatisfy_lowerProgram (Term.arithmetic_symbols _)
    (fun expr hexpr => Expr.leavesSatisfy_of_symbols fun name hname =>
      Program.mem_symbols_of_exprs hname hexpr) h
  refine ⟨hterms, fun h hh => ?_⟩
  obtain ⟨decl, hdecl, hkey⟩ := hkeys h hh
  exact hkey ▸ Program.key_mem_symbols hblock hdecl

end Shapeline
