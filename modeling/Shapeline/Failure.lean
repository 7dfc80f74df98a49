import Shapeline.Diagnostic

/-!
# Failures

Why an operation has no result. Most failures are diagnostics for the author of a model, one or
several at once. The others say that an operation was asked for something that it is not defined on.
-/

namespace Shapeline

/-- Why an operation has no result. -/
inductive Failure
  /-- One diagnostic. -/
  | problem (diagnostic : Diagnostic)
  /-- All diagnostics that a phase found, raised together. -/
  | problems (diagnostics : List Diagnostic)
  /-- A value of the given kind was used as a dimension. -/
  | notADimension (kind : String)
  /-- A value, as it is written, cannot be a parameter. -/
  | unsupportedValue (literal : String)
  /-- No operator has the symbol. -/
  | unknownOperator (symbol : String)
  /-- There is no constant to be had: a term that is not constant was used as a number, or the digits
  of an integer are too many to be written. -/
  | notConstant
  /-- No family of shape rules has the name. -/
  | unknownRule (name : String)
  /-- A position lies outside a list. -/
  | outOfRange
  /-- A step was asked for its layer type and has none. -/
  | missingLayerType
  deriving DecidableEq

/-- The diagnostic that a failure raises, if it raises one. -/
def Failure.diagnostic? : Failure → Option Diagnostic
  | problem diagnostic => some diagnostic
  | problems diagnostics => some (.several diagnostics)
  | _ => none

/-- The message of a failure, if it has one. -/
def Failure.message? : Failure → Option String
  | problem diagnostic => some diagnostic.text
  | problems diagnostics => some (Diagnostic.several diagnostics).text
  | notADimension kind => some s!"Cannot convert {kind} to dimension term"
  | unsupportedValue literal => some s!"Unsupported parameter value: {literal}"
  | unknownOperator symbol => some s!"Unknown operator: {symbol}"
  | notConstant => none
  | unknownRule _ => none
  | outOfRange => none
  | missingLayerType => none

/-- Change the diagnostic of a failure that is a single one. -/
def Failure.mapProblem (f : Diagnostic → Diagnostic) : Failure → Failure
  | problem diagnostic => problem (f diagnostic)
  | other => other

/-- The outcome of an operation that may fail. -/
abbrev Outcome := Except Failure

end Shapeline
