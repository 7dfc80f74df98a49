import Shapeline.Log
import Shapeline.Names
import Shapeline.Settings.Flaw
import Shapeline.Text.Blank
import Shapeline.Text.Case

/-!
# Options

The options that change how a model is compiled and reported, and how they are read from settings.
An option may be given as a text even where a truth value is wanted, because values from the
environment are always texts.
-/

namespace Shapeline

/-- What governs a compilation. -/
structure Options where
  /-- Whether a mismatch with a declared shape is only a warning. -/
  trustDeclaredShapes : Bool := false
  /-- Whether imports that no node needs are warned about. -/
  warnUnusedImports : Bool := true
  /-- The least level of the records that are logged. -/
  logLevel : LogLevel := .warning
  /-- The path of the log file, if there is one. -/
  logFile : Option String := none
  /-- Whether records are logged as entries with fields. -/
  jsonLogging : Bool := false
  deriving DecidableEq

/-- Why settings cannot be used as options. -/
inductive SettingsError
  /-- The settings document does not exist. -/
  | missingDocument
  /-- The settings document cannot be read. -/
  | malformedDocument (flaw : DocumentFlaw)
  /-- A settings document holds a value of another kind than a mapping. -/
  | notAMapping (document kind : String)
  /-- There are no options of the names. -/
  | unknownOptions (names : List String)
  /-- An option is named by something else than a text. -/
  | unnamedOption
  /-- No level is written in this way. -/
  | unknownLevel (word : String)
  /-- The path of the log file is no text. -/
  | notAPath
  /-- A truth value is wanted. The value given instead is held as it is written in the message. -/
  | notATruthValue (option given : String)
  deriving DecidableEq

/-- The message of an error, if it has one. -/
def SettingsError.message? : SettingsError → Option String
  | missingDocument => none
  | malformedDocument _ => none
  | notAMapping document kind =>
    some s!"Config file {document} must contain a mapping, got {kind}"
  | unknownOptions names => some ("Unknown compiler option(s): " ++ ", ".intercalate names)
  | unnamedOption => none
  | unknownLevel word =>
    let words := ", ".intercalate (LogLevel.all.map LogLevel.word)
    some s!"log_level must be one of {words}, got '{word}'"
  | notAPath => none
  | notATruthValue option given => some s!"{option} must be a boolean, got {given}"

/-- The path with repeated and final slashes and single dots left out. Two slashes at the start have
a meaning of their own, more than two count as one. -/
def normalPath (path : String) : String :=
  let slashes := (path.toList.takeWhile (· == '/')).length
  let root := if slashes = 2 then "//" else if slashes = 0 then "" else "/"
  let parts := (path.splitOn "/").filter fun part => decide (part ≠ "" ∧ part ≠ ".")
  let whole := root ++ "/".intercalate parts
  if whole = "" then "." else whole

/-- The truth value that a word stands for, whatever the case of its letters and the blanks around
it. -/
def truthValue? (word : String) : Option Bool :=
  let plain := Text.toSmall (String.ofList (Text.trimBlank word.toList))
  if ["1", "true", "yes", "on"].contains plain then some true
  else if ["0", "false", "no", "off"].contains plain then some false
  else none

/-- The truth value that a setting is. -/
def Setting.toBool (option : String) : Setting → Except SettingsError Bool
  | .bool value => pure value
  | .text word =>
    match truthValue? word with
    | some value => pure value
    | none => throw (.notATruthValue option ("'" ++ word ++ "'"))
  | other => throw (.notATruthValue option other.literal)

/-- The level that a setting names. -/
def Setting.toLevel (setting : Setting) : Except SettingsError LogLevel :=
  let word := Text.toSmall setting.display
  match LogLevel.ofWord? word with
  | some level => pure level
  | none => throw (.unknownLevel word)

/-- The path that a setting names, if it has a value. -/
def Setting.toPath : Setting → Except SettingsError (Option String)
  | .null => pure none
  | .text path => pure (some (normalPath path))
  | _ => throw .notAPath

namespace Options

/-- The names of the options. -/
def names : List String :=
  ["trust_declared_shapes", "warn_unused_imports", "log_level", "log_file", "json_logging"]

/-- Check that settings name nothing but options. -/
def checkNames (entries : List (Setting × Setting)) : Except SettingsError Unit :=
  let unknown := entries.filter fun (key, _) =>
    match key.text? with
    | some name => !names.contains name
    | none => true
  if unknown.isEmpty then pure ()
  else
    match unknown.mapM fun (key, _) => key.text? with
    | some texts => throw (.unknownOptions (Names.ofList texts))
    | none => throw .unnamedOption

/-- A setting if it is given, otherwise the default value. -/
def given {α : Type} (entries : List (Setting × Setting)) (name : String) (default : α)
    (read : Setting → Except SettingsError α) : Except SettingsError α :=
  match Setting.entry? entries name with
  | some setting => read setting
  | none => pure default

/-- The options that settings describe. -/
def ofEntries (entries : List (Setting × Setting)) : Except SettingsError Options := do
  checkNames entries
  let truth (name : String) (default : Bool) : Except SettingsError Bool :=
    given entries name default (·.toBool name)
  let defaults : Options := {}
  let logLevel ← given entries "log_level" defaults.logLevel Setting.toLevel
  let logFile ← given entries "log_file" defaults.logFile Setting.toPath
  let trustDeclaredShapes ← truth "trust_declared_shapes" defaults.trustDeclaredShapes
  let warnUnusedImports ← truth "warn_unused_imports" defaults.warnUnusedImports
  let jsonLogging ← truth "json_logging" defaults.jsonLogging
  pure { trustDeclaredShapes, warnUnusedImports, logLevel, logFile, jsonLogging }

/-- The settings that describe options. -/
def toSettings (o : Options) : Dictionary Setting :=
  .ofList [
    ("trust_declared_shapes", .bool o.trustDeclaredShapes),
    ("warn_unused_imports", .bool o.warnUnusedImports),
    ("log_level", .text o.logLevel.word),
    ("log_file", (o.logFile.map Setting.text).getD .null),
    ("json_logging", .bool o.jsonLogging)]

end Options

end Shapeline
