import Shapeline.Definition
import Shapeline.Program

/-!
# From programs to definitions

Expressions become values: a literal is itself, a name is a symbol, and arithmetic builds terms that
keep the written form. A problem does not stop the lowering; all are collected and raised
together, each with the most precise position that is known.
-/

namespace Shapeline

/-- The dimension that a value is; the expression it came from is named if it is none. -/
def requireDimension (value : Value) (description : String) (node : Option Int) : Outcome Term :=
  match value.toTerm? with
  | some term => pure term
  | none =>
    throw (.problem (.valueType none description "dimension expression" value.literal node))

/-- Add a node, if one is given, to a diagnostic that does not know its own. -/
def attachNode (node : Option Int) (d : Diagnostic) : Diagnostic :=
  match node with
  | some n => d.atNode n none
  | none => d

/-- The opposite of a value, which came from an expression that is shown as given. -/
def negateValue (value : Value) (description : String) (node : Option Int) : Outcome Value :=
  match value with
  | .int n => pure (.int (-n))
  | .real x => pure (.real x.negate)
  | value => do return .dim (← requireDimension value description node).negate

/-- The value that an expression stands for. -/
def lowerExpr (node : Option Int) : Expr → Outcome Value
  | .literal value => pure value
  | .identifier name => pure (.dim (.sym name))
  | .located _ expr => lowerExpr node expr
  | .unary operator operand => do
    let value ← lowerExpr node operand
    if operator = "+" then pure value
    else if operator = "-" then negateValue value (Expr.unary operator operand).text node
    else
      throw (.problem {
        cause := .described .valueType s!"unsupported unary operator '{operator}'", node })
  | .binary operator left right => do
    let l ← requireDimension (← lowerExpr node left) left.text node
    let r ← requireDimension (← lowerExpr node right) right.text node
    match Operator.ofSymbol? operator with
    | some o => do
      return .dim (← (Term.apply o l r).mapError (Failure.mapProblem (attachNode node)))
    | none =>
      throw (.problem {
        cause := .described .valueType s!"unsupported operator '{operator}'", node })
  | .importLine name =>
    throw (.problem {
      cause := .described .valueType
        ("cannot lower expression " ++ (Expr.importLine name).text)
      node })

/-- A value with an integer term replaced by the plain integer. -/
def Value.unwrapInteger : Value → Value
  | .dim (.const n) => .int n
  | value => value

/-- The value of a line that sets a variable or a parameter. -/
def lowerValue (node : Option Int) (decl : VariableDecl) : Outcome Value :=
  match decl.value with
  | none => pure .absent
  | some expr => do return (← lowerExpr node expr).unwrapInteger

/-- Apply a function to every item and collect the diagnostics of the items without a result. -/
def collectEach {α β : Type} (f : α → Outcome β) : List α → Outcome (List β × List Diagnostic)
  | [] => pure ([], [])
  | item :: rest =>
    match f item with
    | .ok result => do
      let (results, errors) ← collectEach f rest
      pure (result :: results, errors)
    | .error (.problem d) => do
      let (results, errors) ← collectEach f rest
      pure (results, d :: errors)
    | .error failure => throw failure

/-- Apply a function that collects diagnostics to every item and join what it collects. -/
def collectAll {α β : Type} (f : α → Outcome (β × List Diagnostic)) :
    List α → Outcome (List β × List Diagnostic)
  | [] => pure ([], [])
  | item :: rest => do
    let (result, errors) ← f item
    let (results, others) ← collectAll f rest
    pure (result :: results, errors ++ others)

/-- The assignments of a list of lines, with a diagnostic for every line whose value is wrong. -/
def lowerAssignments (node : Option Int) (decls : List VariableDecl) :
    Outcome (List Assignment × List Diagnostic) :=
  collectEach (fun decl => do
    let value ← (lowerValue node decl).mapError
      (Failure.mapProblem (·.atLocation decl.valueLocation))
    pure ⟨decl.key, value⟩) decls

/-- The positive number of repetitions that a value is, if it is one. -/
def repetitions? : Value → Option Nat
  | .int n => if 1 ≤ n then some n.toNat else none
  | _ => none

/-- The use of a layer type. A number of repetitions that is wrong counts as one. -/
def lowerCall (node : Int) (call : LayerCall) : Outcome (CallSpec × List Diagnostic) := do
  let (overrides, errors) ← lowerAssignments (some node) call.overrides
  match repetitions? call.repetitions with
  | some count => pure (⟨call.name, overrides, count⟩, errors)
  | none =>
    let wrong := Diagnostic.valueType (some call.name) "repeat" "positive integer"
      call.repetitions.literal (some node)
    pure (⟨call.name, overrides, 1⟩, wrong.atLocation call.location :: errors)

/-- One axis of a declared shape. -/
def lowerAxis (node : Int) (expr : Expr) : Outcome Term := do
  requireDimension (← lowerExpr (some node) expr) s!"axis '{expr.text}'" (some node)

/-- The declared shape of a node line, without the axes that are wrong. -/
def lowerShape (node : Int) (line : NodeLine) : Outcome (Option Shape × List Diagnostic) :=
  match line.shape with
  | none => pure (none, [])
  | some exprs => do
    let (axes, errors) ← collectEach (fun expr =>
      (lowerAxis node expr).mapError
        (Failure.mapProblem (·.atLocation (expr.location?.or line.location)))) exprs
    pure (some ⟨axes⟩, errors)

/-- What every node line holds. Problems are reported against the given node. -/
def lowerLine (node : Int) (line : NodeLine) : Outcome (LineSpec × List Diagnostic) := do
  let (calls, callErrors) ← collectAll (lowerCall node) line.calls
  let (declared, shapeErrors) ← lowerShape node line
  pure (⟨line.index, calls, declared, line.label⟩, callErrors ++ shapeErrors)

/-- The nodes of an inline model. Problems are reported against the enclosing node, and lines that
hold a model themselves are left out. -/
def lowerInline (node : Int) (model : InlineBlock) :
    Outcome (List LineSpec × List Diagnostic) := do
  let refuse (what : String) (location : Option Location) : Diagnostic :=
    (Diagnostic.inlineModel model.name what (some node)).atLocation location
  let declared := if model.declarations.isEmpty then [] else [refuse "variables" model.location]
  let blocks := if model.typeBlocks.isEmpty then [] else [refuse "type blocks" model.location]
  let (lines, errors) ← collectAll (fun (line : InlineLine) =>
    if line.nested then
      pure (none, [refuse "nested inline models" line.location])
    else do
      let (spec, errors) ← lowerLine node line.toNodeLine
      pure (some spec, errors)) model.lines
  pure (lines.filterMap id, declared ++ blocks ++ errors)

/-- A node of a model. The layers of the input node are only words that describe it and serve as its
label if it has no other. -/
def lowerNode (line : OuterLine) : Outcome (NodeSpec × List Diagnostic) := do
  let (spec, errors) ← lowerLine line.index line.toNodeLine
  if line.index = 0 then
    let words := spec.calls.map (·.name)
    let label := if words.isEmpty then spec.label else spec.label.or (some (" ".intercalate words))
    pure ({ spec with calls := [], label }, errors)
  else
    match line.model with
    | none => pure ({ spec with }, errors)
    | some model =>
      let (lines, innerErrors) ← lowerInline line.index model
      let label :=
        match spec.label with
        | some label => if label = "" then model.name else label
        | none => model.name
      pure ({ spec with calls := [], label := some label, inline := some ⟨model.name, lines⟩ },
        errors ++ innerErrors)

/-- The variables of a model, without those whose values are wrong. -/
def lowerHyperparameters (decls : List VariableDecl) :
    Outcome (List Hyperparameter × List Diagnostic) :=
  collectEach (fun decl => do
    let value ← (lowerValue none decl).mapError
      (Failure.mapProblem (·.atLocation decl.valueLocation))
    pure ⟨decl.key, decl.description, value⟩) decls

/-- The override blocks of a model. -/
def lowerTypeBlocks (blocks : List TypeBlock) : Outcome (List TypeOverride × List Diagnostic) :=
  collectAll (fun block => do
    let (assignments, errors) ← lowerAssignments none block.overrides
    pure (⟨block.name, assignments⟩, errors)) blocks

/-- The definition of the model of a program. All problems are raised together: first those of the
variables, then those of the override blocks, then those of the nodes. -/
def lowerProgram (program : Program) : Outcome Definition := do
  match program.model with
  | none =>
    throw (.problems [{ cause := .described .missingInputShape "the program defines no model" }])
  | some model =>
    let (hyperparameters, variableErrors) ← lowerHyperparameters model.declarations
    let (typeOverrides, blockErrors) ← lowerTypeBlocks model.typeBlocks
    let (nodes, nodeErrors) ← collectAll lowerNode model.lines
    match variableErrors ++ blockErrors ++ nodeErrors with
    | [] =>
      pure { name := model.name, imports := program.imports, typeOverrides, hyperparameters, nodes }
    | errors => throw (.problems errors)

end Shapeline
