import Shapeline.Settings.Document
import Shapeline.Settings.Environment
import Shapeline.Settings.Options

/-!
# Options from a document

The options of a compilation may stand in a settings document, either at its top or in a section of
their own. References to the environment are resolved before the options are read.
-/

namespace Shapeline

/-- The record that a variable of the environment is not set. -/
def missingVariableRecord (name : String) : LogRecord :=
  { level := .warning, message := "Environment variable not found: " ++ name }

/-- A setting with the variables of the environment put in, and a record for every reference to a
variable that is not set. -/
def resolveEnvironment (env : Environment) (setting : Setting) : Setting × List LogRecord :=
  (setting.expand env, (setting.missing env).map missingVariableRecord)

namespace Options

/-- The name of the section for the options. -/
def sectionName : String := "compiler"

/-- The settings for the options: those of their section if there is one, otherwise all. -/
def relevantEntries (entries : List (Setting × Setting)) : List (Setting × Setting) :=
  match Setting.entry? entries sectionName with
  | some (.mapping inner) => inner
  | _ => entries

/-- The options that a settings document describes. A document that says nothing leaves the default
values; the document's own name occurs in messages. -/
def load (name : String) (document : Option String) (env : Environment) :
    Except SettingsError Options :=
  match document with
  | none => throw .missingDocument
  | some text =>
    match Document.read text with
    | .error flaw => throw (.malformedDocument flaw)
    | .ok (.mapping entries) => ofEntries (Setting.expandEntries env (relevantEntries entries))
    | .ok value => if value.isVoid then pure {} else throw (.notAMapping name value.kind)

end Options

end Shapeline
