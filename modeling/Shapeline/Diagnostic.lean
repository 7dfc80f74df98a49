import Shapeline.Names

/-!
# Diagnostics

A diagnostic is a problem that the author of a model can mend. It holds its cause, from which its
code and its message follow, and the place it belongs to as far as that is known: a node of the
model, a layer type and a position in the model file. Whoever raises a diagnostic may not know the
place; callers add what they know, and what is known already stays.
-/

namespace Shapeline

/-- A position in a model file. -/
structure Location where
  /-- The name of the file, if there is one. -/
  file : Option String
  /-- The line. -/
  line : Int
  /-- The column. -/
  column : Int
  deriving DecidableEq

/-- A position as it is written in messages: with the file's name in front, or in words. -/
def Location.text (location : Location) : String :=
  match location.file with
  | none => inWords
  | some file => if file = "" then inWords else s!"{file}:{location.line}:{location.column}"
where
  inWords : String := s!"line {location.line}, column {location.column}"

/-- The code of a diagnostic. -/
inductive ErrorCode
  | arithmetic
  | unknownLayer
  | unresolvedImport
  | duplicateOverride
  | arity
  | mismatch
  | numbering
  | undeclaredSymbol
  | axisRange
  | valueType
  | unknownParameter
  | missingInputShape
  | kernelExtent
  | several
  | frozenRegistry
  | inlineModel
  deriving DecidableEq

namespace ErrorCode

/-- A code as it is written. -/
def text : ErrorCode → String
  | arithmetic => "E001"
  | unknownLayer => "E002"
  | unresolvedImport => "E003"
  | duplicateOverride => "E004"
  | arity => "E005"
  | mismatch => "E006"
  | numbering => "E007"
  | undeclaredSymbol => "E008"
  | axisRange => "E009"
  | valueType => "E010"
  | unknownParameter => "E011"
  | missingInputShape => "E012"
  | kernelExtent => "E013"
  | several => "E014"
  | frozenRegistry => "E015"
  | inlineModel => "E016"

/-- All codes in their order. -/
def all : List ErrorCode :=
  [arithmetic, unknownLayer, unresolvedImport, duplicateOverride, arity, mismatch, numbering,
    undeclaredSymbol, axisRange, valueType, unknownParameter, missingInputShape, kernelExtent,
    several, frozenRegistry, inlineModel]

/-- The code that is written in a certain way. -/
def ofText? (text : String) : Option ErrorCode := all.find? (·.text = text)

end ErrorCode

/-- What is wrong. Terms, shapes and values in a cause are held as they are written in messages. -/
inductive Cause
  /-- An operation on terms has no value, such as a division by zero. -/
  | arithmetic (message : String)
  /-- No layer type has the name. -/
  | unknownLayer (name : String)
  /-- A name that the model uses is not bound to a layer type. -/
  | unresolvedImport (name reason : String)
  /-- A parameter is set twice at one tier of precedence. -/
  | duplicateOverride (parameter tier : String)
  /-- A shape has the wrong number of axes. -/
  | arity (expected : String) (rank : Int)
  /-- Two shapes, or two extents, that must agree do not. -/
  | mismatch (what declared inferred : String) (position : Option Int)
  /-- The nodes of a list are not numbered without gaps. -/
  | numbering (expected found : Int)
  /-- A symbol is neither a variable of the model nor introduced by the input. -/
  | undeclaredSymbol (symbol : String)
  /-- A parameter that selects an axis does not select one of the shape. -/
  | axisRange (parameter selected : String) (rank : Int)
  /-- A value has the wrong kind. -/
  | valueType (parameter expected given : String)
  /-- A layer type has no parameter of the name. -/
  | unknownParameter (parameter : String)
  /-- The input node does not declare its shape. -/
  | missingInputShape
  /-- An extent is smaller than the kernel applied to it. -/
  | kernelExtent (position : Int) (extent kernel : String)
  /-- Several diagnostics, given by their texts, are raised together. -/
  | several (texts : List String)
  /-- A registration comes after the registry was frozen. -/
  | frozenRegistry (name : String)
  /-- An inline model declares something other than node lines. -/
  | inlineModel (model what : String)
  /-- Any other problem, described by its code and its message. -/
  | described (code : ErrorCode) (message : String)
  deriving DecidableEq

namespace Cause

/-- The code of a cause. -/
def code : Cause → ErrorCode
  | arithmetic _ => .arithmetic
  | unknownLayer _ => .unknownLayer
  | unresolvedImport _ _ => .unresolvedImport
  | duplicateOverride _ _ => .duplicateOverride
  | arity _ _ => .arity
  | mismatch _ _ _ _ => .mismatch
  | numbering _ _ => .numbering
  | undeclaredSymbol _ => .undeclaredSymbol
  | axisRange _ _ _ => .axisRange
  | valueType _ _ _ => .valueType
  | unknownParameter _ => .unknownParameter
  | missingInputShape => .missingInputShape
  | kernelExtent _ _ _ => .kernelExtent
  | several _ => .several
  | frozenRegistry _ => .frozenRegistry
  | inlineModel _ _ => .inlineModel
  | described code _ => code

/-- The message of a cause. -/
def message : Cause → String
  | arithmetic message => message
  | unknownLayer name => s!"unknown layer type '{name}'"
  | unresolvedImport name reason => s!"cannot resolve '{name}': {reason}"
  | duplicateOverride parameter tier =>
    s!"parameter '{parameter}' is set more than once in the {tier}"
  | arity expected rank => s!"expected an input of {expected} axes, got {rank}"
  | mismatch what declared inferred position =>
    let place :=
      match position with
      | some k => s!" at axis {k}"
      | none => ""
    s!"{what} ({declared}) does not match inferred shape ({inferred})" ++ place
  | numbering expected found => s!"expected node #{expected}, found #{found}"
  | undeclaredSymbol symbol => s!"undeclared symbol '{symbol}'"
  | axisRange parameter selected rank =>
    s!"'{parameter}' = {selected} is out of range for a shape of {rank} axes"
  | valueType parameter expected given =>
    s!"'{parameter}' expects a value of type {expected}, got {given}"
  | unknownParameter parameter => s!"no such parameter '{parameter}'"
  | missingInputShape => "the input node must declare its shape"
  | kernelExtent position extent kernel =>
    s!"axis {position} has extent {extent}, smaller than kernel size {kernel}"
  | several texts =>
    s!"{texts.length} problem(s) found" ++ String.join (texts.map ("\n  " ++ ·))
  | frozenRegistry name => s!"cannot register '{name}': the registry is frozen"
  | inlineModel model what => s!"inline model '{model}' cannot declare {what}"
  | described _ message => message

end Cause

/-- A problem with the place it belongs to. -/
structure Diagnostic where
  /-- What is wrong. -/
  cause : Cause
  /-- The number of the node. -/
  node : Option Int := none
  /-- The name of the layer type. -/
  layer : Option String := none
  /-- The position in the model file. -/
  location : Option Location := none
  /-- What the author may do. -/
  hint : Option String := none
  deriving DecidableEq

namespace Diagnostic

/-- The code of a diagnostic. -/
def code (d : Diagnostic) : ErrorCode := d.cause.code

/-- The message of a diagnostic, without its place. -/
def message (d : Diagnostic) : String := d.cause.message

/-- A diagnostic as the author reads it: code, place, message and hint. -/
def text (d : Diagnostic) : String :=
  let location := (d.location.map fun l => s!" at {l.text}").getD ""
  let node := (d.node.map fun n => s!" node #{n}").getD ""
  let layer :=
    match d.layer with
    | some name => if name = "" then "" else s!" ({name})"
    | none => ""
  let place := location ++ node ++ layer
  let hint :=
    match d.hint with
    | some hint => if hint = "" then "" else s!"\n  hint: {hint}"
    | none => ""
  s!"[{d.code.text}]" ++ place ++ (if place = "" then "" else ":") ++ s!" {d.message}" ++ hint

/-- Add the node and the layer type to a diagnostic that does not know its own. -/
def atNode (d : Diagnostic) (node : Int) (layer : Option String) : Diagnostic :=
  { d with node := d.node.or (some node), layer := d.layer.or layer }

/-- Add the position in the model file to a diagnostic that does not know its own. -/
def atLocation (d : Diagnostic) (location : Option Location) : Diagnostic :=
  { d with location := d.location.or location }

/-- An operation on terms has no value. -/
def arithmetic (message : String) : Diagnostic := { cause := .arithmetic message }

/-- The divisor of a quotient, given as it is written, is zero. -/
def divisionByZero (quotient : String) : Diagnostic :=
  arithmetic s!"division by zero in '{quotient}'"

/-- No layer type has the name. -/
def unknownLayer (name : String) : Diagnostic :=
  { cause := .unknownLayer name, layer := some name }

/-- A name that the model uses is not bound to a layer type. -/
def unresolvedImport (name : String) (reason : String := "no registry entry") : Diagnostic :=
  { cause := .unresolvedImport name reason, layer := some name }

/-- A parameter of a layer type is set twice at one tier of precedence. -/
def duplicateOverride (layer parameter tier : String) (node : Option Int) : Diagnostic :=
  { cause := .duplicateOverride parameter tier, layer := some layer, node }

/-- A shape has the wrong number of axes. -/
def arity (layer : Option String) (expected : String) (rank : Int) (node : Option Int) :
    Diagnostic :=
  { cause := .arity expected rank, layer, node }

/-- An inferred shape, or extent, does not match the one that something declares. -/
def mismatch (declared inferred : String) (position node : Option Int) (layer : Option String)
    (what : String := "declared shape") : Diagnostic :=
  { cause := .mismatch what declared inferred position, node, layer }

/-- A list of nodes is not numbered without gaps. The diagnostic belongs to the node found out of
place unless another one is named. -/
def numbering (expected found : Int) (node : Option Int) : Diagnostic where
  cause := .numbering expected found
  node := node.or (some found)
  hint := some "nodes must be numbered 0, 1, 2, ... without gaps"

/-- A symbol is not declared. -/
def undeclaredSymbol (symbol : String) (node : Option Int) : Diagnostic :=
  { cause := .undeclaredSymbol symbol, node }

/-- A parameter that selects an axis does not select one of the shape. -/
def axisRange (layer parameter selected : String) (rank : Int) (node : Option Int) : Diagnostic :=
  { cause := .axisRange parameter selected rank, layer := some layer, node }

/-- A value has the wrong kind. -/
def valueType (layer : Option String) (parameter expected given : String) (node : Option Int) :
    Diagnostic :=
  { cause := .valueType parameter expected given, layer, node }

/-- A layer type has no parameter of the name; the hint lists those it has. -/
def unknownParameter (layer parameter : String) (node : Option Int) (known : List String) :
    Diagnostic where
  cause := .unknownParameter parameter
  layer := some layer
  node := node
  hint :=
    if known = [] then none
    else some ("known parameters: " ++ ", ".intercalate (Names.sort known))

/-- The input node does not declare its shape. -/
def missingInputShape (node : Int := 0) : Diagnostic where
  cause := .missingInputShape
  node := some node
  hint := some "e.g. '#0 Input = Ic, H, W'"

/-- An extent is smaller than the kernel applied to it. -/
def kernelExtent (layer : String) (position : Int) (extent kernel : String) (node : Option Int) :
    Diagnostic :=
  { cause := .kernelExtent position extent kernel, layer := some layer, node }

/-- A registration comes after the registry was frozen. -/
def frozenRegistry (name : String) : Diagnostic :=
  { cause := .frozenRegistry name, layer := some name }

/-- An inline model declares something other than node lines. -/
def inlineModel (model what : String) (node : Option Int) : Diagnostic where
  cause := .inlineModel model what
  node := node
  hint := some "move it to the enclosing model"

/-- Several diagnostics raised together, as one. -/
def several (problems : List Diagnostic) : Diagnostic :=
  { cause := .several (problems.map text) }

end Diagnostic

/-- The code of a warning. -/
inductive WarningCode
  | unusedImport
  | unusedOverrides
  | trustedShape
  deriving DecidableEq

namespace WarningCode

/-- A code as it is written. -/
def text : WarningCode → String
  | unusedImport => "W001"
  | unusedOverrides => "W002"
  | trustedShape => "W003"

/-- The code that is written in a certain way. -/
def ofText? (text : String) : Option WarningCode :=
  [unusedImport, unusedOverrides, trustedShape].find? (·.text = text)

end WarningCode

/-- A remark on a model that does not keep it from compiling. -/
structure Warning where
  /-- The code. -/
  code : WarningCode
  /-- The message, without its place. -/
  message : String
  /-- The number of the node. -/
  node : Option Int := none
  /-- The name of the layer type. -/
  layer : Option String := none
  deriving DecidableEq

/-- A warning as the author reads it: code, place and message. -/
def Warning.text (w : Warning) : String :=
  let node := (w.node.map fun n => s!" node #{n}").getD ""
  let layer :=
    match w.layer with
    | some name => if name = "" then "" else s!" ({name})"
    | none => ""
  s!"[{w.code.text}]" ++ node ++ layer ++ s!": {w.message}"

/-- The codes that occur in a list of warnings, in their order. -/
def warningCodes (warnings : List Warning) : List String :=
  Names.ofList (warnings.map (·.code.text))

end Shapeline
