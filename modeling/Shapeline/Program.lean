import Shapeline.Layer

/-!
# Programs

A program as a reader of model files hands it over: imports and one model, whose lines hold
expressions with the positions where they were written. An inline model stands in a node line of the
enclosing model and has node lines of its own, which hold no further models.
-/

namespace Shapeline

/-- An expression as written. -/
inductive Expr
  /-- A literal value. -/
  | literal (value : Value)
  /-- A name. -/
  | identifier (name : String)
  /-- An operator between two operands. -/
  | binary (operator : String) (left right : Expr)
  /-- An operator in front of its operand. -/
  | unary (operator : String) (operand : Expr)
  /-- An import line where an expression is expected. -/
  | importLine (name : String)
  /-- An expression with the position where it was written. -/
  | located (location : Option Location) (expr : Expr)

namespace Expr

/-- An expression as it is shown in messages, with every binary operation in parentheses. -/
def text : Expr → String
  | literal value => value.literal
  | identifier name => name
  | binary operator left right => "(" ++ left.text ++ " " ++ operator ++ " " ++ right.text ++ ")"
  | unary operator operand => operator ++ operand.text
  | importLine name => "UseDecl(name=" ++ Text.quoted name ++ ")"
  | located _ expr => expr.text

/-- The position where an expression was written, if it is known. -/
def location? : Expr → Option Location
  | located location _ => location
  | _ => none

end Expr

/-- A line that gives a variable or a parameter its value. -/
structure VariableDecl where
  /-- What the variable is, or the name of the parameter. -/
  description : String
  /-- The value, if the line has one. -/
  value : Option Expr := none
  /-- The short name, if the line has one. -/
  shortName : Option String := none
  /-- The position of the line. -/
  location : Option Location := none

namespace VariableDecl

/-- The name under which the value is used: the short name if there is one. -/
def key (decl : VariableDecl) : String :=
  match decl.shortName with
  | some short => if short = "" then decl.description else short
  | none => decl.description

/-- The position of the value if it is known, otherwise that of the line. -/
def valueLocation (decl : VariableDecl) : Option Location :=
  (decl.value.bind Expr.location?).or decl.location

end VariableDecl

/-- A block of a model that overrides parameters of one layer type. -/
structure TypeBlock where
  /-- The name of the layer type. -/
  name : String
  /-- The overrides. -/
  overrides : List VariableDecl := []

/-- The use of a layer type in a node line. -/
structure LayerCall where
  /-- The name of the layer type. -/
  name : String
  /-- The overrides at this place. -/
  overrides : List VariableDecl := []
  /-- How many times the layer is applied in a row. -/
  repetitions : Value := .int 1
  /-- The position of the call. -/
  location : Option Location := none

/-- What every node line holds. -/
structure NodeLine where
  /-- The number of the node. -/
  index : Int
  /-- The layers that the node applies. -/
  calls : List LayerCall := []
  /-- The axes of the declared shape, if there is one. -/
  shape : Option (List Expr) := none
  /-- The label, if there is one. -/
  label : Option String := none
  /-- The position of the line. -/
  location : Option Location := none

/-- A node line of an inline model. -/
structure InlineLine extends NodeLine where
  /-- Whether the line holds a model itself, which is not allowed. -/
  nested : Bool := false

/-- A model inside a node line. -/
structure InlineBlock where
  /-- The name. -/
  name : String
  /-- The variables, which are not allowed. -/
  declarations : List VariableDecl := []
  /-- The override blocks, which are not allowed. -/
  typeBlocks : List TypeBlock := []
  /-- The node lines. -/
  lines : List InlineLine := []
  /-- The position of the model. -/
  location : Option Location := none

/-- A node line of a model. -/
structure OuterLine extends NodeLine where
  /-- The inline model, if the line holds one. -/
  model : Option InlineBlock := none

/-- A model as written. -/
structure ModelBlock where
  /-- The name. -/
  name : String
  /-- The variables. -/
  declarations : List VariableDecl := []
  /-- The override blocks. -/
  typeBlocks : List TypeBlock := []
  /-- The node lines. -/
  lines : List OuterLine := []

/-- A program as written. -/
structure Program where
  /-- The names that are imported. -/
  imports : List String := []
  /-- The model, if there is one. -/
  model : Option ModelBlock := none

end Shapeline
