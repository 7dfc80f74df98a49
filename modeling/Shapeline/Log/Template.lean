import Shapeline.Log.Markup
import Shapeline.Settings.Basic

/-!
# Templates of log lines

A template is a text with fields in braces, each of which is replaced by a value of the record that
is logged. A field may say how its value is written: `{name!r}` writes it as in messages,
`{name:>7}` moves it to the right end of seven columns. A brace that stands for itself is written
twice. The text between the fields may hold markup.
-/

namespace Shapeline

/-- A place in a template that is replaced by a value. -/
structure TemplateField where
  /-- The name of the value. -/
  name : String
  /-- The letter of the way in which the value is turned into a text, if one is asked for. -/
  conversion : Option Char := none
  /-- How the text is fitted into columns. -/
  layout : List Char := []
  deriving DecidableEq

/-- A part of a template. -/
inductive TemplatePart
  /-- A text that stands for itself. -/
  | text (characters : List Char)
  /-- A field. -/
  | field (field : TemplateField)
  deriving DecidableEq

namespace TemplatePart

/-- What is being read of a template. Characters are held from the last one back. -/
inductive Reading
  /-- A text. -/
  | text (characters : List Char)
  /-- The name of a field, of which a part may stand in square brackets. -/
  | name (characters : List Char) (bracketed : Bool)
  /-- The layout of a field, within a number of further braces. -/
  | layout (name : List Char) (conversion : Option Char) (characters : List Char) (depth : Nat)

/-- The field with a name whose characters are given from the last one back. -/
def fieldOf (name : List Char) (conversion : Option Char) (layout : List Char) : TemplatePart :=
  .field { name := String.ofList name.reverse, conversion, layout := layout.reverse }

/-- The parts of a template. A doubled brace ends a part of text. A template has no parts if its
braces do not fit together. -/
def read? : Reading → List Char → Option (List TemplatePart)
  | .text characters, [] => some [text characters.reverse]
  | .text characters, '\x7b' :: '\x7b' :: rest =>
    (read? (.text []) rest).map (text ('\x7b' :: characters).reverse :: ·)
  | .text characters, '\x7d' :: '\x7d' :: rest =>
    (read? (.text []) rest).map (text ('\x7d' :: characters).reverse :: ·)
  | .text characters, '\x7b' :: rest =>
    (read? (.name [] false) rest).map (text characters.reverse :: ·)
  | .text _, '\x7d' :: _ => none
  | .text characters, c :: rest => read? (.text (c :: characters)) rest
  | .name _ _, [] => none
  | .name characters true, c :: rest => read? (.name (c :: characters) (c != ']')) rest
  | .name _ false, '\x7b' :: _ => none
  | .name characters false, '\x7d' :: rest =>
    (read? (.text []) rest).map (fieldOf characters none [] :: ·)
  | .name characters false, ':' :: rest => read? (.layout characters none [] 0) rest
  | .name characters false, '!' :: c :: '\x7d' :: rest =>
    (read? (.text []) rest).map (fieldOf characters (some c) [] :: ·)
  | .name characters false, '!' :: c :: ':' :: rest => read? (.layout characters (some c) [] 0) rest
  | .name _ false, '!' :: _ => none
  | .name characters false, c :: rest => read? (.name (c :: characters) (c == '[')) rest
  | .layout _ _ _ _, [] => none
  | .layout name conversion characters depth, '\x7b' :: rest =>
    read? (.layout name conversion ('\x7b' :: characters) (depth + 1)) rest
  | .layout name conversion characters 0, '\x7d' :: rest =>
    (read? (.text []) rest).map (fieldOf name conversion characters :: ·)
  | .layout name conversion characters (depth + 1), '\x7d' :: rest =>
    read? (.layout name conversion ('\x7d' :: characters) depth) rest
  | .layout name conversion characters depth, c :: rest =>
    read? (.layout name conversion (c :: characters) depth) rest

/-- The parts of a template without the markup in their texts, given the open tags, if the markup is
nested. -/
def plain? : List (List Char) → List TemplatePart → Option (List TemplatePart)
  | [], [] => some []
  | _ :: _, [] => none
  | opened, text characters :: rest => do
    let (characters, opened) ← Markup.strip opened 0 characters
    (plain? opened rest).map (text characters :: ·)
  | opened, part :: rest => (plain? opened rest).map (part :: ·)

end TemplatePart

/-- The form of a log line, with fields for the values of the record. -/
structure Template where
  /-- The texts and the fields, in order. -/
  parts : List TemplatePart

namespace Template

/-- The template that is written in a certain way. -/
def ofText? (text : String) : Option Template := do
  let parts ← TemplatePart.read? (.text []) text.toList
  (TemplatePart.plain? [] parts).map Template.mk

/-- The sides on which a text can be filled up to a width. -/
inductive Alignment
  /-- The text begins on the left. -/
  | left
  /-- The text ends on the right. -/
  | right
  /-- The text stands in the middle. -/
  | centre

/-- The alignment that a character stands for. -/
def alignment? : Char → Option Alignment
  | '<' => some .left
  | '>' => some .right
  | '^' => some .centre
  | _ => none

/-- A text filled up to a width. If it cannot stand exactly in the middle, it stands further left.
-/
def fill (alignment : Alignment) (filler : Char) (width : Nat) (text : List Char) : List Char :=
  let missing := width - text.length
  match alignment with
  | .left => text ++ List.replicate missing filler
  | .right => List.replicate missing filler ++ text
  | .centre =>
    List.replicate (missing / 2) filler ++ text ++ List.replicate (missing - missing / 2) filler

/-- A text in a layout: a filler and an alignment, the width, and behind a point the greatest number
of characters that are kept, each of which may be missing. Any other layout does not suit a text. -/
def inLayout? (layout : List Char) (text : List Char) : Option (List Char) :=
  let (filler, alignment, rest) :=
    match layout with
    | c :: a :: rest =>
      match alignment? a, alignment? c with
      | some alignment, _ => (some c, alignment, rest)
      | none, some alignment => (none, alignment, a :: rest)
      | none, none => (none, .left, layout)
    | [a] =>
      match alignment? a with
      | some alignment => (none, alignment, [])
      | none => (none, .left, layout)
    | [] => (none, .left, [])
  let zeros := filler.isNone && rest.head? == some '0'
  let filler := filler.getD (if zeros then '0' else ' ')
  let width := Binary64.digitsValue (rest.takeWhile Char.isDigit)
  let finish (text : List Char) (rest : List Char) : Option (List Char) :=
    if rest = [] ∨ rest = ['s'] then some (fill alignment filler width text) else none
  match rest.dropWhile Char.isDigit with
  | '.' :: rest =>
    let digits := rest.takeWhile Char.isDigit
    if digits = [] then none
    else finish (text.take (Binary64.digitsValue digits)) (rest.dropWhile Char.isDigit)
  | rest => finish text rest

/-- The text for a field whose value is known. A value that is no text has no layout of its own. -/
def fieldText? (field : TemplateField) (value : Setting) : Option (List Char) :=
  match field.conversion, value with
  | none, .text text => inLayout? field.layout text.toList
  | none, value => if field.layout = [] then some value.display.toList else none
  | some 's', value => inLayout? field.layout value.display.toList
  | some 'r', value => inLayout? field.layout value.literal.toList
  | some _, _ => none

/-- The text of a part, if a value of the field's name is given and suits the field. -/
def partText? (value? : String → Option Setting) : TemplatePart → Option (List Char)
  | .text characters => some characters
  | .field field => do fieldText? field (← value? field.name)

/-- The line for given values, if every field can be filled. -/
def line? (template : Template) (value? : String → Option Setting) : Option String := do
  let texts ← template.parts.mapM (partText? value?)
  some (String.ofList texts.flatten)

end Template

end Shapeline
