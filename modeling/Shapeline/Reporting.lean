import Shapeline.Value

/-!
# Operations that report as they go

Shape inference records diagnostics, warnings and notes while it runs, and what was recorded before
a failure is kept. An operation that reports is a report together with an outcome; a sequence of
operations has the reports of its parts, joined in order, up to the first failure.
-/

namespace Shapeline

/-- A remark on the course of inference. -/
inductive Note
  /-- At a node, placeholders were bound to declared extents. -/
  | bound (node : Int) (bindings : Dictionary Term)
  /-- Inference ended at a node because nothing is known about its output. -/
  | stopped (node : Int)

/-- A remark as it is written. -/
def Note.text : Note → String
  | bound node bindings =>
    s!"node #{node}: bound " ++
      ", ".intercalate (bindings.entries.map fun (name, t) => name ++ " = " ++ t.text)
  | stopped node => s!"Shape inference stopped at node #{node}"

/-- What an operation records. -/
structure Report where
  /-- The diagnostics in order. -/
  errors : List Diagnostic := []
  /-- The warnings in order. -/
  warnings : List Warning := []
  /-- The notes in order. -/
  notes : List Note := []

instance : Append Report where
  append a b := ⟨a.errors ++ b.errors, a.warnings ++ b.warnings, a.notes ++ b.notes⟩

/-- The outcome of an operation with what it recorded. -/
structure Reporting (α : Type) where
  /-- What was recorded, also before a failure. -/
  report : Report
  /-- The outcome. -/
  outcome : Outcome α

namespace Reporting

variable {α β : Type}

/-- Run one operation after another. -/
def andThen (first : Reporting α) (next : α → Reporting β) : Reporting β :=
  match first.outcome with
  | .ok value => ⟨first.report ++ (next value).report, (next value).outcome⟩
  | .error failure => ⟨first.report, .error failure⟩

instance : Monad Reporting where
  pure value := ⟨{}, .ok value⟩
  bind := andThen

/-- An operation that records nothing. -/
def ofOutcome (outcome : Outcome α) : Reporting α := ⟨{}, outcome⟩

/-- Record something. -/
def record (report : Report) : Reporting Unit := ⟨report, .ok ()⟩

end Reporting

end Shapeline
