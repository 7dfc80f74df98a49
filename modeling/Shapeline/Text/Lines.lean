/-!
# Lines

The lines of a text. A line ends at a line feed, a carriage return, a vertical tabulator, a form
feed, one of the first three information separators, the next-line mark, or the separator of lines
or paragraphs. A carriage return and a line feed behind it end the line together.
-/

namespace Shapeline.Text

/-- Whether a character ends a line. -/
def isLineEnd (c : Char) : Bool :=
  let code := c.toNat
  decide ((0xA ≤ code ∧ code ≤ 0xD) ∨ (0x1C ≤ code ∧ code ≤ 0x1E) ∨ code = 0x85 ∨ code = 0x2028 ∨
    code = 0x2029)

/-- The lines of a text, of which the characters read so far of the first are given from the last
one back. -/
def linesFrom : List Char → List Char → List String
  | [], [] => []
  | line, [] => [String.ofList line.reverse]
  | line, '\r' :: '\n' :: rest => String.ofList line.reverse :: linesFrom [] rest
  | line, c :: rest =>
    if isLineEnd c then String.ofList line.reverse :: linesFrom [] rest
    else linesFrom (c :: line) rest

/-- The lines of a text, without the characters that end them. -/
def lines (text : String) : List String := linesFrom [] text.toList

end Shapeline.Text
