import Shapeline.Numeric.Binary64
import Shapeline.Text.Blank

/-!
# Markup of log lines

The form of a log line may say in which style and colour its parts are shown on a terminal: an
opening tag such as `<red>`, later the closing tag `</red>` or just `</>`. Tags are nested. In a
file there are no colours, so tags leave nothing behind, but what is no known tag, or is not nested,
makes the form unusable. A backslash in front of a tag takes its meaning away, and two of them stand
for one.
-/

namespace Shapeline.Markup

/-- The styles of print, each in a short and a long form. -/
def styles : List String :=
  ["b", "d", "n", "h", "i", "l", "s", "u", "v", "bold", "dim", "normal", "hide", "italic", "blink",
    "strike", "underline", "reverse"]

/-- The short names of the colours. -/
def shortColours : List String := ["k", "r", "g", "y", "e", "m", "c", "w"]

/-- The names of the colours. -/
def longColours : List String :=
  ["black", "red", "green", "yellow", "blue", "magenta", "cyan", "white"]

/-- The names of the colours of print, in small letters. In capital letters they name the colours of
the background. -/
def colours : List String :=
  shortColours ++ shortColours.map ("l" ++ ·) ++ longColours ++ longColours.map ("light-" ++ ·)

/-- Whether a text is a decimal numeral of at most 255. -/
def isByte (digits : List Char) : Bool :=
  !digits.isEmpty && digits.all Char.isDigit && decide (Binary64.digitsValue digits ≤ 255)

/-- Whether a character is a hexadecimal digit. -/
def isHexDigit (c : Char) : Bool :=
  c.isDigit || decide ('a' ≤ c ∧ c ≤ 'f') || decide ('A' ≤ c ∧ c ≤ 'F')

/-- Whether a text is a colour given by numbers: one of a palette, three bytes, or three or six
hexadecimal digits. -/
def isNumericColour (colour : String) : Bool :=
  let digits := colour.toList.drop 1
  let bytes := colour.splitOn ","
  isByte colour.toList ||
    (colour.startsWith "#" && digits.all isHexDigit && [3, 6].contains digits.length) ||
    (decide (bytes.length = 3) && bytes.all fun byte => isByte byte.toList)

/-- Whether a tag has a meaning. -/
def isKnown (tag : String) : Bool :=
  let colour := String.ofList (tag.toList.drop 3)
  ["level", "lvl"].contains tag || styles.contains tag || colours.contains tag ||
    (colours.map String.toUpper).contains tag ||
    (tag.startsWith "fg " && (colours.contains colour.toLower || isNumericColour colour)) ||
    (tag.startsWith "bg " && (colours.contains colour.toLower || isNumericColour colour))

/-- A tag. -/
structure Tag where
  /-- Whether it closes what an earlier one opened. -/
  closing : Bool
  /-- The text between the brackets, without the slash of a closing tag. -/
  name : List Char

/-- Whether a character may stand in the name of a tag. -/
def isTagCharacter (c : Char) : Bool := c != '<' && c != '>' && !Text.isBlank c

/-- The length of the beginning of a tag that says whether a colour is meant for print or for the
background. -/
def groundLength : List Char → Nat
  | g :: 'g' :: c :: _ => if (g = 'f' ∨ g = 'b') ∧ Text.isBlank c then 3 else 0
  | _ => 0

/-- The tag whose opening bracket stands in front of a text. -/
def tag? (text : List Char) : Option Tag :=
  let closing := decide (text.head? = some '/')
  let body := text.drop closing.toNat
  let ground := body.take (groundLength body)
  let name := ground ++ (body.drop ground.length).takeWhile isTagCharacter
  if (body.drop name.length).head? = some '>' then some ⟨closing, name⟩ else none

/-- The number of characters of a tag behind its opening bracket. -/
def Tag.length (tag : Tag) : Nat := tag.closing.toNat + tag.name.length + 1

/-- The open tags after another tag, the innermost one first, unless it has no meaning or is not
nested. -/
def Tag.follow? (tag : Tag) (opened : List (List Char)) : Option (List (List Char)) :=
  if tag.closing then
    match opened with
    | [] => none
    | innermost :: outer => if tag.name = [] ∨ tag.name = innermost then some outer else none
  else if isKnown (String.ofList tag.name) then some (tag.name :: opened)
  else none

/-- A text without its tags, given the open tags and the number of backslashes in front of it,
together with the tags that are open at its end. -/
def strip (opened : List (List Char)) (slashes : Nat) :
    List Char → Option (List Char × List (List Char))
  | [] => some (List.replicate slashes '\\', opened)
  | '\\' :: rest => strip opened (slashes + 1) rest
  | '<' :: rest =>
    match tag? rest with
    | none => (strip opened 0 rest).map fun (text, after) =>
      (List.replicate slashes '\\' ++ '<' :: text, after)
    | some tag => do
      let kept := if slashes % 2 = 1 then '<' :: rest.take tag.length else []
      let opened ← if slashes % 2 = 1 then some opened else tag.follow? opened
      let (text, after) ← strip opened 0 (rest.drop tag.length)
      some (List.replicate (slashes / 2) '\\' ++ kept ++ text, after)
  | c :: rest => (strip opened 0 rest).map fun (text, after) =>
    (List.replicate slashes '\\' ++ c :: text, after)
termination_by text => text.length
decreasing_by
  all_goals
    simp only [List.length_cons, List.length_drop]
    omega

end Shapeline.Markup
