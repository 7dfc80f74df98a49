import Shapeline.Program
import Shapeline.Proofs.Renaming.Rule

/-!
# Renamed programs

The symbols of a program are the names in its expressions and the keys of the variables of its
model. A program is renamed by giving each of them another name; parameters, layer types and models
keep theirs.

Renaming a program back leads to the program itself, except that a variable must not lose its short
name to the empty one, which is no name.
-/

namespace Shapeline

/-- An expression with its symbols renamed. -/
def Expr.rename (f : String → String) : Expr → Expr
  | literal value => literal (value.rename f)
  | identifier name => identifier (f name)
  | binary operator left right => binary operator (left.rename f) (right.rename f)
  | unary operator operand => unary operator (operand.rename f)
  | importLine name => importLine name
  | located location expr => located location (expr.rename f)

/-- The symbols of an expression, with repetitions. -/
def Expr.symbols : Expr → List String
  | literal value => (value.toTerm?.map Term.symbols).getD []
  | identifier name => [name]
  | binary _ left right => left.symbols ++ right.symbols
  | unary _ operand => operand.symbols
  | importLine _ => []
  | located _ expr => expr.symbols

/-- A line with the symbols of its value renamed. -/
def VariableDecl.rename (f : String → String) (decl : VariableDecl) : VariableDecl :=
  { decl with value := decl.value.map (Expr.rename f) }

/-- A line that gives a variable its value, with the variable renamed too: its short name, or its
description if it has no short name. -/
def VariableDecl.renameVariable (f : String → String) (decl : VariableDecl) : VariableDecl :=
  match decl.shortName with
  | none => { decl.rename f with description := f decl.description }
  | some short =>
    if short = "" then { decl.rename f with description := f decl.description }
    else { decl.rename f with shortName := some (f short) }

/-- The symbols in the value of a line. -/
def VariableDecl.symbols (decl : VariableDecl) : List String :=
  (decl.value.map Expr.symbols).getD []

/-- An override block with its symbols renamed. -/
def TypeBlock.rename (f : String → String) (block : TypeBlock) : TypeBlock :=
  { block with overrides := block.overrides.map (VariableDecl.rename f) }

/-- The symbols of an override block. -/
def TypeBlock.symbols (block : TypeBlock) : List String :=
  block.overrides.flatMap VariableDecl.symbols

/-- A use of a layer type with its symbols renamed. -/
def LayerCall.rename (f : String → String) (call : LayerCall) : LayerCall :=
  { call with overrides := call.overrides.map (VariableDecl.rename f) }

/-- The symbols of a use of a layer type. -/
def LayerCall.symbols (call : LayerCall) : List String :=
  call.overrides.flatMap VariableDecl.symbols

/-- A node line with its symbols renamed. -/
def NodeLine.rename (f : String → String) (line : NodeLine) : NodeLine :=
  { line with
    calls := line.calls.map (LayerCall.rename f)
    shape := line.shape.map (List.map (Expr.rename f)) }

/-- The symbols of a node line. -/
def NodeLine.symbols (line : NodeLine) : List String :=
  line.calls.flatMap LayerCall.symbols ++ (line.shape.map (List.flatMap Expr.symbols)).getD []

/-- A node line of an inline model with its symbols renamed. -/
def InlineLine.rename (f : String → String) (line : InlineLine) : InlineLine :=
  { line.toNodeLine.rename f with nested := line.nested }

/-- An inline model with its symbols renamed. -/
def InlineBlock.rename (f : String → String) (block : InlineBlock) : InlineBlock :=
  { block with
    declarations := block.declarations.map (VariableDecl.rename f)
    typeBlocks := block.typeBlocks.map (TypeBlock.rename f)
    lines := block.lines.map (InlineLine.rename f) }

/-- The symbols of an inline model. -/
def InlineBlock.symbols (block : InlineBlock) : List String :=
  block.declarations.flatMap VariableDecl.symbols ++ block.typeBlocks.flatMap TypeBlock.symbols ++
    block.lines.flatMap fun line => line.toNodeLine.symbols

/-- A line of a model with its symbols renamed. -/
def OuterLine.rename (f : String → String) (line : OuterLine) : OuterLine :=
  { line.toNodeLine.rename f with model := line.model.map (InlineBlock.rename f) }

/-- The symbols of a line of a model. -/
def OuterLine.symbols (line : OuterLine) : List String :=
  line.toNodeLine.symbols ++ (line.model.map InlineBlock.symbols).getD []

/-- A model with its symbols renamed. -/
def ModelBlock.rename (f : String → String) (block : ModelBlock) : ModelBlock :=
  { block with
    declarations := block.declarations.map (VariableDecl.renameVariable f)
    typeBlocks := block.typeBlocks.map (TypeBlock.rename f)
    lines := block.lines.map (OuterLine.rename f) }

/-- The symbols of a model: the keys of its variables and those of its expressions. -/
def ModelBlock.symbols (block : ModelBlock) : List String :=
  block.declarations.map VariableDecl.key ++ block.declarations.flatMap VariableDecl.symbols ++
    block.typeBlocks.flatMap TypeBlock.symbols ++ block.lines.flatMap OuterLine.symbols

/-- A program with its symbols renamed. -/
def Program.rename (f : String → String) (program : Program) : Program :=
  { program with model := program.model.map (ModelBlock.rename f) }

/-- The symbols of a program. -/
def Program.symbols (program : Program) : List String :=
  (program.model.map ModelBlock.symbols).getD []

/-- A short name is not renamed to the empty name. -/
def VariableDecl.KeepsShort (f : String → String) (decl : VariableDecl) : Prop :=
  ∀ short, decl.shortName = some short → short ≠ "" → f short ≠ ""

/-- No short name of a variable is renamed to the empty name. -/
def Program.KeepsShort (f : String → String) (program : Program) : Prop :=
  ∀ block, program.model = some block → ∀ decl ∈ block.declarations, decl.KeepsShort f

variable {f g : String → String} {decl : VariableDecl} {line : NodeLine} {block : InlineBlock}
  {outer : OuterLine} {model : ModelBlock} {program : Program} {name : String}

namespace VariableDecl

/-- The key of a renamed variable is the new name of its key. -/
theorem key_renameVariable (h : decl.KeepsShort f) :
    (decl.renameVariable f).key = f decl.key := by
  unfold renameVariable key
  cases hshort : decl.shortName with
  | none => simp [rename, hshort]
  | some short =>
    by_cases hempty : short = ""
    · simp [rename, hshort, hempty]
    · simp [hempty, h short hshort hempty]

/-- A variable keeps its short name if its key gets a name that is not empty. -/
theorem KeepsShort.of_key (h : f decl.key ≠ "") : decl.KeepsShort f := by
  intro short hshort hempty
  unfold key at h
  rw [hshort] at h
  exact (if_neg hempty : (if short = "" then decl.description else short) = short) ▸ h

/-- The value of a renamed variable is the renamed value. -/
theorem value_renameVariable : (decl.renameVariable f).value = decl.value.map (Expr.rename f) := by
  unfold renameVariable
  split
  · rfl
  · split <;> rfl

/-- The description of a variable stays, unless the variable has no other name. -/
theorem description_renameVariable :
    (decl.renameVariable f).description = decl.description ∨
      decl.description = decl.key ∧ (decl.renameVariable f).description = f decl.key := by
  unfold renameVariable key
  cases decl.shortName with
  | none => exact Or.inr ⟨rfl, rfl⟩
  | some short =>
    by_cases hempty : short = ""
    · simp [hempty]
    · simp [hempty, rename]

end VariableDecl

/-- The keys of the variables are symbols. -/
theorem Program.key_mem_symbols (hmodel : program.model = some model)
    (hdecl : decl ∈ model.declarations) : decl.key ∈ program.symbols := by
  rw [symbols, hmodel]
  exact List.mem_append_left _ (List.mem_append_left _ (List.mem_append_left _
    (List.mem_map_of_mem hdecl)))

/-- No short name becomes empty if all symbols get names that are not empty. -/
theorem Program.KeepsShort.of_symbols (h : ∀ name ∈ program.symbols, f name ≠ "") :
    program.KeepsShort f :=
  fun _ hmodel _ hdecl => .of_key (h _ (key_mem_symbols hmodel hdecl))

/-- What renames the items of a list alike renames the list alike. -/
theorem map_congr_of_flatMap {α β : Type} {items : List α} {symbols : α → List String}
    {r s : α → β} (hitem : ∀ item, (∀ name ∈ symbols item, f name = g name) → r item = s item)
    (h : ∀ name ∈ items.flatMap symbols, f name = g name) : items.map r = items.map s :=
  List.map_congr_left fun item hitems => hitem item fun name hname =>
    h name (List.mem_flatMap.mpr ⟨item, hitems, hname⟩)

/-- What renames an item alike renames the item alike if it is there. -/
theorem map_congr_of_getD {α β : Type} {item : Option α} {symbols : α → List String}
    {r s : α → β} (hitem : ∀ item, (∀ name ∈ symbols item, f name = g name) → r item = s item)
    (h : ∀ name ∈ (item.map symbols).getD [], f name = g name) : item.map r = item.map s := by
  cases item with
  | none => rfl
  | some item => exact congrArg some (hitem item h)

/-- Only the new names of the symbols of an expression matter. -/
theorem Expr.rename_congr {expr : Expr} (h : ∀ name ∈ expr.symbols, f name = g name) :
    expr.rename f = expr.rename g := by
  induction expr with
  | literal value =>
    refine congrArg literal (Value.rename_congr fun t ht name hname => h name ?_)
    rw [symbols, ht]
    exact hname
  | identifier name => exact congrArg identifier (h name List.mem_cons_self)
  | binary operator left right ihl ihr =>
    exact congrArg₂ (binary operator) (ihl fun name hname => h name (List.mem_append_left _ hname))
      (ihr fun name hname => h name (List.mem_append_right _ hname))
  | unary operator operand ih => exact congrArg (unary operator) (ih h)
  | importLine name => rfl
  | located location expr ih => exact congrArg (located location) (ih h)

/-- Only the new names of the symbols of a line matter. -/
theorem VariableDecl.rename_congr (h : ∀ name ∈ decl.symbols, f name = g name) :
    decl.rename f = decl.rename g := by
  rw [rename, rename, map_congr_of_getD (fun _ => Expr.rename_congr) h]

/-- Only the new names of the key and of the symbols of a variable matter. -/
theorem VariableDecl.renameVariable_congr (hkey : f decl.key = g decl.key)
    (h : ∀ name ∈ decl.symbols, f name = g name) :
    decl.renameVariable f = decl.renameVariable g := by
  unfold key at hkey
  unfold renameVariable
  rw [rename_congr h]
  cases hshort : decl.shortName with
  | none =>
    rw [hshort] at hkey
    dsimp only at hkey ⊢
    rw [hkey]
  | some short =>
    rw [hshort] at hkey
    dsimp only at hkey ⊢
    split
    · rw [if_pos ‹_›] at hkey
      rw [hkey]
    · rw [if_neg ‹_›] at hkey
      rw [hkey]

/-- Only the new names of the symbols of an override block matter. -/
theorem TypeBlock.rename_congr {block : TypeBlock} (h : ∀ name ∈ block.symbols, f name = g name) :
    block.rename f = block.rename g := by
  rw [rename, rename, map_congr_of_flatMap (fun _ => VariableDecl.rename_congr) h]

/-- Only the new names of the symbols of a use of a layer type matter. -/
theorem LayerCall.rename_congr {call : LayerCall} (h : ∀ name ∈ call.symbols, f name = g name) :
    call.rename f = call.rename g := by
  rw [rename, rename, map_congr_of_flatMap (fun _ => VariableDecl.rename_congr) h]

/-- Only the new names of the symbols of a node line matter. -/
theorem NodeLine.rename_congr (h : ∀ name ∈ line.symbols, f name = g name) :
    line.rename f = line.rename g := by
  obtain ⟨hcalls, hshape⟩ := List.forall_mem_append.mp h
  rw [rename, rename, map_congr_of_flatMap (fun _ => LayerCall.rename_congr) hcalls,
    map_congr_of_getD (fun _ => map_congr_of_flatMap fun _ => Expr.rename_congr) hshape]

/-- Only the new names of the symbols of an inline model matter. -/
theorem InlineBlock.rename_congr (h : ∀ name ∈ block.symbols, f name = g name) :
    block.rename f = block.rename g := by
  obtain ⟨hfirst, hlines⟩ := List.forall_mem_append.mp h
  obtain ⟨hdeclarations, hblocks⟩ := List.forall_mem_append.mp hfirst
  have hline (line : InlineLine) (hline : ∀ name ∈ line.toNodeLine.symbols, f name = g name) :
      line.rename f = line.rename g := by
    rw [InlineLine.rename, InlineLine.rename, NodeLine.rename_congr hline]
  rw [rename, rename, map_congr_of_flatMap (fun _ => VariableDecl.rename_congr) hdeclarations,
    map_congr_of_flatMap (fun _ => TypeBlock.rename_congr) hblocks,
    map_congr_of_flatMap hline hlines]

/-- Only the new names of the symbols of a line of a model matter. -/
theorem OuterLine.rename_congr (h : ∀ name ∈ outer.symbols, f name = g name) :
    outer.rename f = outer.rename g := by
  obtain ⟨hline, hmodel⟩ := List.forall_mem_append.mp h
  rw [rename, rename, NodeLine.rename_congr hline,
    map_congr_of_getD (fun _ => InlineBlock.rename_congr) hmodel]

/-- Only the new names of the symbols of a model matter. -/
theorem ModelBlock.rename_congr (h : ∀ name ∈ model.symbols, f name = g name) :
    model.rename f = model.rename g := by
  obtain ⟨hfirst, hlines⟩ := List.forall_mem_append.mp h
  obtain ⟨hvariables, hblocks⟩ := List.forall_mem_append.mp hfirst
  obtain ⟨hkeys, hvalues⟩ := List.forall_mem_append.mp hvariables
  have hdeclarations : model.declarations.map (VariableDecl.renameVariable f) =
      model.declarations.map (VariableDecl.renameVariable g) :=
    List.map_congr_left fun decl hdecl => VariableDecl.renameVariable_congr
      (hkeys _ (List.mem_map_of_mem hdecl)) fun name hname =>
        hvalues name (List.mem_flatMap.mpr ⟨decl, hdecl, hname⟩)
  rw [rename, rename, hdeclarations, map_congr_of_flatMap (fun _ => TypeBlock.rename_congr) hblocks,
    map_congr_of_flatMap (fun _ => OuterLine.rename_congr) hlines]

/-- Only the new names of the symbols of a program matter. -/
theorem Program.rename_congr (h : ∀ name ∈ program.symbols, f name = g name) :
    program.rename f = program.rename g := by
  rw [rename, rename, map_congr_of_getD (fun _ => ModelBlock.rename_congr) h]

section Back

variable (π : Equiv.Perm String)

/-- The old names of an expression come back. -/
theorem Expr.leftInverse_rename : Function.LeftInverse (rename π.symm) (rename π) := by
  intro expr
  induction expr with
  | literal value => cases value <;> simp [rename, Value.rename]
  | identifier name => exact congrArg identifier (π.symm_apply_apply name)
  | binary operator left right ihl ihr => rw [rename, rename, ihl, ihr]
  | unary operator operand ih => rw [rename, rename, ih]
  | importLine name => rfl
  | located location expr ih => rw [rename, rename, ih]

/-- The old names of a line come back. -/
theorem VariableDecl.leftInverse_rename : Function.LeftInverse (rename π.symm) (rename π) := by
  intro decl
  obtain ⟨_, value, _, _⟩ := decl
  cases value with
  | none => rfl
  | some expr => simp [rename, Expr.leftInverse_rename π expr]

/-- The old names of a variable come back if its short name does not become empty. -/
theorem VariableDecl.renameVariable_symm (h : decl.KeepsShort π) :
    (decl.renameVariable π).renameVariable π.symm = decl := by
  have hback := leftInverse_rename π decl
  obtain ⟨description, value, shortName, location⟩ := decl
  simp only [rename, mk.injEq, true_and, and_true] at hback
  cases shortName with
  | none => simp [renameVariable, rename, hback]
  | some short =>
    by_cases hempty : short = ""
    · simp [renameVariable, rename, hback, hempty]
    · simp [renameVariable, rename, hback, hempty, h short rfl hempty]

/-- The old names of an override block come back. -/
theorem TypeBlock.leftInverse_rename : Function.LeftInverse (rename π.symm) (rename π) := by
  intro block
  rw [rename, rename, (VariableDecl.leftInverse_rename π).list_map block.overrides]

/-- The old names of a use of a layer type come back. -/
theorem LayerCall.leftInverse_rename : Function.LeftInverse (rename π.symm) (rename π) := by
  intro call
  rw [rename, rename, (VariableDecl.leftInverse_rename π).list_map call.overrides]

/-- The old names of a node line come back. -/
theorem NodeLine.leftInverse_rename : Function.LeftInverse (rename π.symm) (rename π) := by
  intro line
  have hshape : (line.shape.map (List.map (Expr.rename π))).map (List.map (Expr.rename π.symm)) =
      line.shape := by
    rw [Option.map_map, (Expr.leftInverse_rename π).list_map.comp_eq_id, Option.map_id, id]
  rw [rename, rename, (LayerCall.leftInverse_rename π).list_map line.calls, hshape]

/-- The old names of a node line of an inline model come back. -/
theorem InlineLine.leftInverse_rename : Function.LeftInverse (rename π.symm) (rename π) := by
  intro line
  rw [rename, rename, NodeLine.leftInverse_rename π line.toNodeLine]

/-- The old names of an inline model come back. -/
theorem InlineBlock.leftInverse_rename : Function.LeftInverse (rename π.symm) (rename π) := by
  intro block
  rw [rename, rename, (VariableDecl.leftInverse_rename π).list_map block.declarations,
    (TypeBlock.leftInverse_rename π).list_map block.typeBlocks,
    (InlineLine.leftInverse_rename π).list_map block.lines]

/-- The old names of a line of a model come back. -/
theorem OuterLine.leftInverse_rename : Function.LeftInverse (rename π.symm) (rename π) := by
  intro line
  have hmodel : (line.model.map (InlineBlock.rename π)).map (InlineBlock.rename π.symm) =
      line.model := by
    rw [Option.map_map, (InlineBlock.leftInverse_rename π).comp_eq_id, Option.map_id, id]
  rw [rename, rename, NodeLine.leftInverse_rename π line.toNodeLine, hmodel]

/-- The old names of a model come back if no short name becomes empty. -/
theorem ModelBlock.rename_symm (h : ∀ decl ∈ model.declarations, decl.KeepsShort π) :
    (model.rename π).rename π.symm = model := by
  have hdeclarations : (model.declarations.map (VariableDecl.renameVariable π)).map
      (VariableDecl.renameVariable π.symm) = model.declarations := by
    rw [List.map_map]
    refine (List.map_congr_left fun decl hdecl => ?_).trans (List.map_id _)
    exact decl.renameVariable_symm π (h decl hdecl)
  rw [rename, rename, hdeclarations, (TypeBlock.leftInverse_rename π).list_map model.typeBlocks,
    (OuterLine.leftInverse_rename π).list_map model.lines]

/-- The old names of a program come back if no short name becomes empty. -/
theorem Program.rename_symm (h : program.KeepsShort π) :
    (program.rename π).rename π.symm = program := by
  obtain ⟨imports, model⟩ := program
  cases model with
  | none => rfl
  | some block => simp [rename, ModelBlock.rename_symm π (h block rfl)]

/-- The short name of a renamed variable does not become empty when the old names come back. -/
theorem VariableDecl.keepsShort_symm : (decl.renameVariable π).KeepsShort π.symm := by
  unfold KeepsShort renameVariable
  cases hshort : decl.shortName with
  | none => simp [rename, hshort]
  | some short => by_cases hempty : short = "" <;> simp [rename, hshort, hempty]

/-- No short name becomes empty when the old names come back. -/
theorem Program.keepsShort_symm : (program.rename π).KeepsShort π.symm := by
  intro block' hblock' decl' hdecl'
  obtain ⟨block, -, rfl⟩ := Option.map_eq_some_iff.mp hblock'
  obtain ⟨decl, -, rfl⟩ := List.mem_map.mp hdecl'
  exact decl.keepsShort_symm π

end Back

end Shapeline
