/-!
# Blank characters

The characters that count as blank around a word: the controls from the tabulator to the carriage
return, the four information separators, the next-line mark and the space separators.
-/

namespace Shapeline.Text

/-- Whether a character is blank. -/
def isBlank (c : Char) : Bool :=
  let code := c.toNat
  decide ((0x9 ≤ code ∧ code ≤ 0xD) ∨ (0x1C ≤ code ∧ code ≤ 0x20) ∨ code = 0x85 ∨ code = 0xA0 ∨
    code = 0x1680 ∨ (0x2000 ≤ code ∧ code ≤ 0x200A) ∨ code = 0x2028 ∨ code = 0x2029 ∨
    code = 0x202F ∨ code = 0x205F ∨ code = 0x3000)

/-- Drop the blanks at both ends. -/
def trimBlank (text : List Char) : List Char :=
  ((text.dropWhile isBlank).reverse.dropWhile isBlank).reverse

end Shapeline.Text
