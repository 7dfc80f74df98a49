import Shapeline.Settings.Scalar

/-!
# Scalars as they are written

How a scalar of a settings document is spelled: between single quotes, between double quotes with
escapes, or without quotes. A scalar may go over several lines. The blanks around a line break do
not count; a single line break stands for a blank, and of several the first is dropped.
-/

namespace Shapeline.Lexeme

/-- Whether a character ends a line of a document. -/
def isBreak (c : Char) : Bool :=
  c == '\n' || c.toNat == 0x85 || c.toNat == 0x2028 || c.toNat == 0x2029

/-- The line break that a character stands for. Only the separators of lines and paragraphs stand
for themselves. -/
def breakFor (c : Char) : Char := if c.toNat = 0x85 then '\n' else c

/-- Whether a character is a blank within a line. -/
def isGap (c : Char) : Bool := c == ' ' || c == '\t'

/-- Whether a text is empty or begins with a blank or a line break. -/
def endsWord (text : List Char) : Bool := text.head?.all fun c => isGap c || isBreak c

/-- Whether a text begins with the three dashes or points that stand between documents. -/
def isSeparator (text : List Char) : Bool :=
  (text.take 3 == ['-', '-', '-'] || text.take 3 == ['.', '.', '.']) && endsWord (text.drop 3)

/-- What a line break stands for, together with the further breaks behind it. -/
def folded (first : Char) (further : List Char) : List Char :=
  if breakFor first ≠ '\n' then breakFor first :: further
  else if further = [] then [' ']
  else further

/-- A text put in front of what has been read. -/
def consRead {α : Type} (text : List Char) (read : Except DocumentFlaw (List Char × α)) :
    Except DocumentFlaw (List Char × α) :=
  read.map fun (more, after) => (text ++ more, after)

/-- The further line breaks behind one within quotes, and what comes after them. There is a step for
every line. -/
def quotedBreaks : Nat → List Char → Except DocumentFlaw (List Char × List Char)
  | 0, _ => throw .token
  | steps + 1, text =>
    if isSeparator text then throw .token
    else
      match text.dropWhile isGap with
      | [] => pure ([], [])
      | c :: rest =>
        if isBreak c then consRead [breakFor c] (quotedBreaks steps rest) else pure ([], c :: rest)

/-- The characters that stand, after a backslash, for others. -/
def escapes : List (Char × Nat) :=
  [('0', 0x0), ('a', 0x7), ('b', 0x8), ('t', 0x9), ('\t', 0x9), ('n', 0xA), ('v', 0xB), ('f', 0xC),
    ('r', 0xD), ('e', 0x1B), (' ', 0x20), ('"', 0x22), ('/', 0x2F), ('\\', 0x5C), ('N', 0x85),
    ('_', 0xA0), ('L', 0x2028), ('P', 0x2029)]

/-- The letters that stand, after a backslash, in front of a number of hexadecimal digits. -/
def codeLengths : List (Char × Nat) := [('x', 2), ('u', 4), ('U', 8)]

/-- The character whose number is written in a count of hexadecimal digits. -/
def ofCode (count : Nat) (digits : List Char) : Except DocumentFlaw Char :=
  match digits.mapM Scalar.hexValue? with
  | none => throw .token
  | some values =>
    let code := values.foldl (fun code digit => 16 * code + digit) 0
    if digits.length < count then throw .token
    else if 0x10FFFF < code then throw .range
    else pure (Char.ofNat code)

/-- What the characters behind a backslash stand for, and what comes after them. -/
def escaped (text : List Char) : Except DocumentFlaw (List Char × List Char) :=
  match text with
  | [] => throw .token
  | c :: rest =>
    match escapes.lookup c, codeLengths.lookup c with
    | some code, _ => pure ([Char.ofNat code], rest)
    | none, some count => do
      let character ← ofCode count (rest.take count)
      pure ([character], rest.drop count)
    | none, none => if isBreak c then quotedBreaks (rest.length + 1) rest else throw .token

/-- The text up to a closing quote, and what comes after it. Between single quotes a quote is
written twice; between double quotes a backslash starts an escape. Every step uses up a character.
-/
def quotedFrom (double : Bool) : Nat → List Char → Except DocumentFlaw (List Char × List Char)
  | 0, _ => throw .token
  | _, [] => throw .token
  | steps + 1, c :: rest =>
    if c = '\'' ∧ !double then
      match rest with
      | '\'' :: rest => consRead ['\''] (quotedFrom double steps rest)
      | rest => pure ([], rest)
    else if c = '"' ∧ double then pure ([], rest)
    else if c = '\\' ∧ double then do
      let (characters, after) ← escaped rest
      consRead characters (quotedFrom double steps after)
    else if isGap c ∨ isBreak c then
      let gap := (c :: rest).takeWhile isGap
      match (c :: rest).dropWhile isGap with
      | [] => throw .token
      | b :: after =>
        if isBreak b then do
          let (further, after) ← quotedBreaks (after.length + 1) after
          consRead (folded b further) (quotedFrom double steps after)
        else consRead gap (quotedFrom double steps (b :: after))
    else consRead [c] (quotedFrom double steps rest)

/-- The text between quotes at whose opening quote a text begins, and what comes after it. -/
def quoted (text : List Char) : Except DocumentFlaw (List Char × List Char) :=
  quotedFrom (text.head? == some '"') text.length (text.drop 1)

/-- The brackets, the braces and the mark between their contents. -/
def flowMarks : List Char := [',', '[', ']', '\x7b', '\x7d']

/-- Whether a scalar without quotes ends in front of a character: a blank, a line break, or a colon
that separates a key from its value. Between brackets or braces it also ends at one of these or at a
question mark, and a colon in front of one separates as well. -/
def endsPlain (inFlow : Bool) (c : Char) (rest : List Char) : Bool :=
  let separates := endsWord rest || (inFlow && rest.head?.any flowMarks.contains)
  isGap c || isBreak c || (c == ':' && separates) ||
    (inFlow && (c == '?' || flowMarks.contains c))

/-- The word at the start of a text, and what comes after it. -/
def plainWord (inFlow : Bool) : List Char → List Char × List Char
  | [] => ([], [])
  | c :: rest =>
    if endsPlain inFlow c rest then ([], c :: rest)
    else
      let (word, after) := plainWord inFlow rest
      (c :: word, after)

/-- The further line breaks behind one between words, and what comes after them. They are missing if
a separator of documents follows. -/
def plainBreaks : List Char → Option (List Char) × List Char
  | [] => (some [], [])
  | c :: rest =>
    if c = ' ' then plainBreaks rest
    else if isBreak c then
      if isSeparator rest then (none, rest)
      else
        let (breaks, after) := plainBreaks rest
        (breaks.map (breakFor c :: ·), after)
    else (some [], c :: rest)

/-- What stands between a word and the next one. -/
structure PlainGap where
  /-- What the gap stands for, if a further word may follow. -/
  meaning : Option (List Char)
  /-- What comes after it. -/
  after : List Char
  /-- Whether it goes over a line break. -/
  crosses : Bool

/-- What stands between a word and the next one, at the start of a text. -/
def plainGap (text : List Char) : PlainGap :=
  let blanks := text.takeWhile (· == ' ')
  match text.dropWhile (· == ' ') with
  | [] => ⟨none, [], false⟩
  | c :: rest =>
    if isBreak c then
      if isSeparator rest then ⟨none, rest, true⟩
      else
        let (breaks, after) := plainBreaks rest
        ⟨breaks.map (folded c), after, true⟩
    else ⟨if blanks = [] then none else some blanks, c :: rest, false⟩

end Shapeline.Lexeme
