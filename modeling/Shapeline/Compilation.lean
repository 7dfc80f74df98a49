import Shapeline.Event
import Shapeline.Inference
import Shapeline.Lowering
import Shapeline.Validation

/-!
# Compilation

A program is lowered to a definition, the definition is resolved against a registry and planned, the
shapes of the plan are inferred, and the graph that they make is validated. A phase that finds
diagnostics is the last one. What was found, warnings and diagnostics alike, becomes a result that
either holds a graph or tells why there is none. There is no result if the output shape of the graph
is too long to be told.
-/

namespace Shapeline

/-- The result of a compilation. -/
structure CompilationResult where
  /-- The graph, unless the compilation failed. -/
  graph : Option Graph := none
  /-- The resolved model, if resolution came to its end. -/
  resolved : Option ResolvedModel := none
  /-- The warnings. -/
  warnings : List Warning := []
  /-- The diagnostics of the phase that failed. -/
  errors : List Diagnostic := []
  /-- Whether the compilation succeeded. -/
  success : Bool := true

/-- The diagnostics that a failure raises, each by itself. A failure that is no diagnostic has
none. -/
def Failure.diagnostics? : Failure → Option (List Diagnostic)
  | problem diagnostic => some [diagnostic]
  | problems diagnostics => some diagnostics
  | _ => none

/-- The failure that raises diagnostics: a single one by itself, several together. -/
def Failure.ofDiagnostics : List Diagnostic → Failure
  | [diagnostic] => .problem diagnostic
  | diagnostics => .problems diagnostics

namespace CompilationResult

/-- A result with further diagnostics, which make it a failed one. -/
def fail (r : CompilationResult) (errors : List Diagnostic) : CompilationResult :=
  { r with errors := r.errors ++ errors, success := false, graph := none }

/-- A result with a further warning. -/
def warn (r : CompilationResult) (warning : Warning) : CompilationResult :=
  { r with warnings := r.warnings ++ [warning] }

/-- Raise the diagnostics of a result, if there are any. -/
def raiseErrors (r : CompilationResult) : Outcome Unit :=
  if r.errors.isEmpty then pure () else throw (.ofDiagnostics r.errors)

/-- What a node is called in a summary: its layers, or else its label. -/
def nodeTitle (n : GraphNode) : String :=
  let layers := " + ".intercalate ((n.steps.filterMap (·.layerType)).map (·.name))
  let label := n.label.getD ""
  if layers ≠ "" then layers else if label ≠ "" then label else "Input"

/-- A numbered heading with its lines below it. Nothing is written if there are no lines. -/
def summaryOf (heading : String) (lines : List String) : List String :=
  if lines.isEmpty then []
  else s!"  {heading}: {lines.length}" :: lines.map ("    " ++ ·)

/-- A graph in a summary: its name, then a line for every node. -/
def graphSummary (g : Graph) : List String :=
  s!"  Model: {g.name} ({g.nodes.length} nodes)" ::
    g.nodes.map fun n => s!"    #{n.index} " ++ nodeTitle n ++ s!" = {n.output.text}"

/-- The summary of a result, a text of several lines. -/
def summary (r : CompilationResult) : String :=
  let outcome := if r.success then "Compilation succeeded" else "Compilation failed"
  let lines := [outcome] ++ ((r.graph.map graphSummary).getD []) ++
    summaryOf "Warnings" (r.warnings.map Warning.text) ++
    summaryOf "Errors" (r.errors.map Diagnostic.text)
  String.join (lines.map (· ++ "\n"))

end CompilationResult

/-- The course of a compilation. -/
structure Attempt where
  /-- The events in order. -/
  events : List Event := []
  /-- The resolved model, if resolution came to its end. -/
  resolved : Option ResolvedModel := none
  /-- The warnings in order. -/
  warnings : List Warning := []
  /-- The graph, or why there is none. -/
  outcome : Outcome Graph

/-- The graph of a resolved model, made of inferred nodes. -/
def assembleGraph (model : ResolvedModel) (nodes : List GraphNode) : Graph :=
  { name := model.name, nodes, hyperparameters := model.hyperparameters.values,
    inputSymbols := inputSymbols model }

/-- The graph, unless validation finds diagnostics or inference has found some. -/
def checkGraph (graph : Graph) (errors : List Diagnostic) : Outcome Graph := do
  match errors ++ (← graph.diagnose) with
  | [] => pure graph
  | found => throw (.problems found)

/-- Infer the shapes of a plan and validate the graph. -/
def inferGraph (options : Options) (model : ResolvedModel) (plan : List PlannedNode) : Attempt :=
  let started := [Event.inferring plan.length]
  match resolveBindings model.hyperparameterValues with
  | .error failure => { events := started, outcome := .error failure }
  | .ok bindings =>
    let run := infer ⟨options.trustDeclaredShapes, bindings⟩ plan
    let events := started ++ run.report.notes.map .noted
    match run.outcome with
    | .error failure => { events, outcome := .error failure }
    | .ok (_, false) =>
      { events, warnings := run.report.warnings, outcome := .error (.problems run.report.errors) }
    | .ok (nodes, true) =>
      { events := events ++ [.validating], warnings := run.report.warnings
        outcome := checkGraph (assembleGraph model nodes) run.report.errors }

/-- Plan a resolved model, infer its shapes and validate its graph. -/
def planGraph (options : Options) (model : ResolvedModel) : Attempt :=
  match planModel model with
  | .error failure => { events := [.planning], outcome := .error failure }
  | .ok plan =>
    let rest := inferGraph options model plan
    { rest with events := .planning :: rest.events }

/-- Build the graph of a definition. -/
def buildGraph (options : Options) (registry : Registry) (definition : Definition) : Attempt :=
  match resolve registry options.warnUnusedImports definition with
  | .error failure => { events := [.resolving], outcome := .error failure }
  | .ok (model, warnings) =>
    let rest := planGraph options model
    { rest with
      events := .resolving :: rest.events
      resolved := some model
      warnings := warnings ++ rest.warnings }

/-- The result of a compilation with what it logged. -/
structure Compilation where
  /-- The result. -/
  result : CompilationResult
  /-- The records in order. -/
  log : List LogRecord

/-- The event that a graph was compiled. -/
def compiledEvents (graph : Graph) : List Event :=
  match graph.outputShape with
  | .ok shape => [.compiled graph.name shape]
  | .error _ => []

/-- The result and the events of an attempt. Diagnostics become part of the result; any other
failure remains one. -/
def Attempt.conclude (attempt : Attempt) : Outcome (CompilationResult × List Event) := do
  let start : CompilationResult := { resolved := attempt.resolved, warnings := attempt.warnings }
  let warned := attempt.warnings.map Event.warned
  match attempt.outcome with
  | .ok graph =>
    pure ({ start with graph := some graph }, attempt.events ++ compiledEvents graph ++ warned)
  | .error failure =>
    match failure.diagnostic?, failure.diagnostics? with
    | some summary, some errors =>
      pure (start.fail errors, attempt.events ++ [.failed summary] ++ warned)
    | _, _ => throw failure

/-- Compile a definition. -/
def compileDefinition (options : Options) (registry : Registry) (definition : Definition) :
    Outcome Compilation := do
  let (result, events) ← (buildGraph options registry definition).conclude
  return ⟨result, ← events.mapM (Event.record definition.name)⟩

/-- The name under which a program without a model is compiled. -/
def noModelName : String := "<none>"

/-- Lower a program and build the graph of its definition. -/
def buildProgram (options : Options) (registry : Registry) (program : Program) : Attempt :=
  let started := Event.lowering ((program.model.map (·.name)).getD noModelName)
  match lowerProgram program with
  | .error failure => { events := [started], outcome := .error failure }
  | .ok definition =>
    let rest := buildGraph options registry definition
    { rest with events := started :: rest.events }

/-- Compile a program. -/
def compileProgram (options : Options) (registry : Registry) (program : Program) :
    Outcome Compilation := do
  let name := (program.model.map (·.name)).getD noModelName
  let (result, events) ← (buildProgram options registry program).conclude
  return ⟨result, ← events.mapM (Event.record name)⟩

/-- Compile several programs, one after another. -/
def compilePrograms (options : Options) (registry : Registry) (programs : List Program) :
    Outcome (List Compilation) :=
  programs.mapM (compileProgram options registry)

/-- The graph that is built of a program. A single diagnostic is raised by itself, several are raised
together. -/
def compileGraph (options : Options) (registry : Registry) (program : Program) : Outcome Graph :=
  let attempt := buildProgram options registry program
  attempt.outcome.mapError fun failure =>
    (failure.diagnostics?.map Failure.ofDiagnostics).getD failure

end Shapeline
