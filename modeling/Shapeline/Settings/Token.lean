import Shapeline.Settings.Lexeme

/-!
# Tokens of settings documents

The tokens of a settings document in the block style of YAML 1.1. The depth at which a line is
indented opens and closes lists and mappings as brackets do. That a scalar, or a value in brackets,
is the key of a mapping shows only at the colon behind it, which has to stand on the same line; the
token for the key is then put in front of it. Block scalars, anchors, tags and directives are not
read.

The tokens end with the end of the document or with a flaw. What could still turn out to be a key
when the flaw is met is not among them.
-/

namespace Shapeline

/-- A token of a settings document. -/
inductive Token
  /-- Three dashes, which open a document. -/
  | documentStart
  /-- Three points, which close a document. -/
  | documentEnd
  /-- The first item of a list follows, whose items are indented by dashes. -/
  | listStart
  /-- The first entry of a mapping follows, whose entries stand on lines of their own. -/
  | mappingStart
  /-- A list or mapping that is held together by indentation ends. -/
  | blockEnd
  /-- The bracket that opens a list. -/
  | openBracket
  /-- The bracket that closes a list. -/
  | closeBracket
  /-- The brace that opens a mapping. -/
  | openBrace
  /-- The brace that closes a mapping. -/
  | closeBrace
  /-- A comma between brackets or braces. -/
  | comma
  /-- The dash in front of an item. -/
  | dash
  /-- A key follows. -/
  | key
  /-- The colon in front of a value. -/
  | colon
  /-- A scalar, and whether it stands in quotes. -/
  | scalar (text : List Char) (quoted : Bool)
  /-- Nothing follows. -/
  | finish
  /-- No further token can be read. -/
  | flaw (flaw : DocumentFlaw)

namespace Layout

/-- A place in a document. -/
structure Position where
  /-- The number of characters in front of it. -/
  index : Nat := 0
  /-- The number of line breaks in front of it. -/
  line : Nat := 0
  /-- The number of columns in front of it on its line. -/
  column : Nat := 0

/-- The mark that may stand at the very start of a document. It has no width. -/
def startMark : Char := Char.ofNat 0xFEFF

/-- The place behind a character. -/
def Position.next (place : Position) (c : Char) : Position :=
  if Lexeme.isBreak c then ⟨place.index + 1, place.line + 1, 0⟩
  else ⟨place.index + 1, place.line, if c = startMark then place.column else place.column + 1⟩

/-- The rest of a document, with the place where it begins. -/
structure Cursor where
  /-- The characters that have not been read. -/
  rest : List Char
  /-- The place of the first of them. -/
  place : Position := {}

/-- The cursor in front of an ending of the rest. -/
def Cursor.skipTo (cursor : Cursor) (rest : List Char) : Cursor :=
  ⟨rest, (cursor.rest.take (cursor.rest.length - rest.length)).foldl Position.next cursor.place⟩

/-- What comes after blanks, line breaks and comments, and whether there is a line break among them.
The flag tells that the text begins within a comment. -/
def skipGaps : Bool → List Char → List Char × Bool
  | _, [] => ([], false)
  | inComment, c :: rest =>
    if Lexeme.isBreak c then ((skipGaps false rest).1, true)
    else if inComment ∨ c = '#' then skipGaps true rest
    else if c = ' ' then skipGaps false rest
    else (c :: rest, false)

/-- A scalar without quotes that may go on over several lines, from a word on: its text with the gap
in front of it, the cursor behind it, and whether a line break stands behind its last word. Between
brackets and braces it may begin anywhere on a line, otherwise from a column on. There is a step for
every word. -/
def plainFrom (inFlow : Bool) (leastColumn : Int) :
    Nat → List Char → Bool → Cursor → List Char × Cursor × Bool
  | 0, _, crossed, cursor => ([], cursor, crossed)
  | steps + 1, gap, crossed, cursor =>
    let (word, after) := Lexeme.plainWord inFlow cursor.rest
    if cursor.rest.head? = some '#' ∨ word = [] then ([], cursor, crossed)
    else
      let next := Lexeme.plainGap after
      let behind := cursor.skipTo next.after
      match next.meaning with
      | none => (gap ++ word, behind, next.crosses)
      | some nextGap =>
        if !inFlow ∧ (behind.place.column : Int) < leastColumn then
          (gap ++ word, behind, next.crosses)
        else
          let (more, cursor, crossed) :=
            plainFrom inFlow leastColumn steps nextGap next.crosses behind
          (gap ++ word ++ more, cursor, crossed)

/-- What may turn out to be a key. -/
structure PossibleKey where
  /-- The number of brackets and braces around it. -/
  depth : Nat
  /-- The number of tokens in front of it. -/
  count : Nat
  /-- Whether it can be nothing else. -/
  required : Bool
  /-- The place where it begins. -/
  place : Position

end Layout

/-- What is known between two tokens. -/
structure Layout where
  /-- What has not been read. -/
  cursor : Layout.Cursor
  /-- The tokens that have been read, the last one first. -/
  tokens : List Token := []
  /-- The column of the innermost list or mapping that is held together by indentation. -/
  indent : Int := -1
  /-- The columns of those around it, the innermost one first. -/
  outer : List Int := []
  /-- The number of brackets and braces around. -/
  depth : Nat := 0
  /-- Whether a key may begin here. -/
  keyAllowed : Bool := true
  /-- What may turn out to be a key, at most one for every depth. -/
  keys : List Layout.PossibleKey := []

namespace Layout

/-- The column of the next character. -/
def column (s : Layout) : Int := s.cursor.place.column

/-- Append a token. -/
def push (s : Layout) (token : Token) : Layout := { s with tokens := token :: s.tokens }

/-- Append the token for a number of characters that are used up. -/
def pushMark (s : Layout) (length : Nat) (token : Token) : Layout :=
  { s.push token with cursor := s.cursor.skipTo (s.cursor.rest.drop length) }

/-- Whether a possible key lies too far back to be one. -/
def isStale (s : Layout) (key : PossibleKey) : Bool :=
  decide (key.place.line ≠ s.cursor.place.line ∨ key.place.index + 1024 < s.cursor.place.index)

/-- Forget the possible keys that lie too far back, none of which may be required. -/
def dropStale (s : Layout) : Except DocumentFlaw Layout :=
  if s.keys.any fun key => s.isStale key && key.required then throw .token
  else pure { s with keys := s.keys.filter fun key => !s.isStale key }

/-- Forget the possible key at the present depth, which must not be required. -/
def dropKey (s : Layout) : Except DocumentFlaw Layout :=
  if s.keys.any fun key => key.depth == s.depth && key.required then throw .token
  else pure { s with keys := s.keys.filter fun key => key.depth != s.depth }

/-- Remember that a key may begin here, if one may. -/
def saveKey (s : Layout) : Except DocumentFlaw Layout :=
  if s.keyAllowed then do
    let s ← s.dropKey
    let required := decide (s.depth = 0 ∧ s.indent = s.column)
    pure { s with keys := ⟨s.depth, s.tokens.length, required, s.cursor.place⟩ :: s.keys }
  else pure s

/-- Close the lists and mappings that are indented further than a column, given the columns around
them. -/
def unwindFrom (column : Int) : List Int → Layout → Layout
  | [], s => s
  | around :: rest, s =>
    if column < s.indent then
      unwindFrom column rest { s.push .blockEnd with indent := around, outer := rest }
    else s

/-- Close the lists and mappings that are indented further than a column. Between brackets and
braces indentation has no meaning. -/
def unwind (s : Layout) (column : Int) : Layout :=
  if s.depth = 0 then unwindFrom column s.outer s else s

/-- Indent up to a column, if it lies further in, and tell whether it does. -/
def indentTo (s : Layout) (column : Int) : Layout × Bool :=
  if s.indent < column then ({ s with indent := column, outer := s.indent :: s.outer }, true)
  else (s, false)

/-- Open a list or mapping at the present column, if that lies further in. -/
def openBlock (s : Layout) (token : Token) : Layout :=
  let (inner, isNew) := s.indentTo s.column
  if isNew then inner.push token else inner

/-- Skip blanks, line breaks and comments. On a new line a key may begin. -/
def toNextToken (s : Layout) : Layout :=
  let (rest, crossed) := skipGaps false s.cursor.rest
  { s with
    cursor := s.cursor.skipTo rest
    keyAllowed := s.keyAllowed || (crossed && s.depth == 0) }

/-- The separator of two documents. -/
def readSeparator (s : Layout) (token : Token) : Except DocumentFlaw Layout := do
  let s ← (s.unwind (-1)).dropKey
  pure { s.pushMark 3 token with keyAllowed := false }

/-- A bracket or brace that opens a value. -/
def readOpening (s : Layout) (token : Token) : Except DocumentFlaw Layout := do
  let s ← s.saveKey
  pure { s.pushMark 1 token with depth := s.depth + 1, keyAllowed := true }

/-- A bracket or brace that closes a value. -/
def readClosing (s : Layout) (token : Token) : Except DocumentFlaw Layout := do
  let s ← s.dropKey
  pure { s.pushMark 1 token with depth := s.depth - 1, keyAllowed := false }

/-- A comma. -/
def readComma (s : Layout) : Except DocumentFlaw Layout := do
  let s ← s.dropKey
  pure { s.pushMark 1 .comma with keyAllowed := true }

/-- The dash in front of an item. -/
def readDash (s : Layout) : Except DocumentFlaw Layout := do
  if s.depth = 0 ∧ !s.keyAllowed then throw .token
  let s ← (if s.depth = 0 then s.openBlock .listStart else s).dropKey
  pure { s.pushMark 1 .dash with keyAllowed := true }

/-- The question mark in front of a key. -/
def readKey (s : Layout) : Except DocumentFlaw Layout := do
  if s.depth = 0 ∧ !s.keyAllowed then throw .token
  let s ← (if s.depth = 0 then s.openBlock .mappingStart else s).dropKey
  pure { s.pushMark 1 .key with keyAllowed := s.depth == 0 }

/-- The colon in front of a value. If a key may have begun before, it has; it opens a mapping if it
lies further in. -/
def readColon (s : Layout) : Except DocumentFlaw Layout :=
  match s.keys.find? fun key => key.depth == s.depth with
  | some key =>
    let later := s.tokens.length - key.count
    let (inner, isNew) :=
      if s.depth = 0 then s.indentTo key.place.column else (s, false)
    let marks := if isNew then [Token.key, Token.mappingStart] else [Token.key]
    let s := { inner with
      tokens := inner.tokens.take later ++ marks ++ inner.tokens.drop later
      keys := inner.keys.filter fun other => other.depth != s.depth
      keyAllowed := false }
    pure (s.pushMark 1 .colon)
  | none =>
    if s.depth = 0 ∧ !s.keyAllowed then throw .token
    else
      let opened := if s.depth = 0 then s.openBlock .mappingStart else s
      pure { opened.pushMark 1 .colon with keyAllowed := s.depth == 0 }

/-- A scalar in quotes. -/
def readQuoted (s : Layout) : Except DocumentFlaw Layout := do
  let s ← s.saveKey
  let (text, rest) ← Lexeme.quoted s.cursor.rest
  pure { s.push (.scalar text true) with cursor := s.cursor.skipTo rest, keyAllowed := false }

/-- A scalar without quotes. A key may begin behind it if it ends at a line break. -/
def readPlain (s : Layout) : Except DocumentFlaw Layout := do
  let s ← s.saveKey
  let steps := s.cursor.rest.length + 1
  let (text, cursor, crossed) :=
    plainFrom (decide (0 < s.depth)) (s.indent + 1) steps [] false s.cursor
  pure { s.push (.scalar text false) with cursor := cursor, keyAllowed := crossed }

/-- The characters that cannot begin a scalar without quotes. -/
def reserved : List Char :=
  [' ', '\t', '-', '?', ':', ',', '[', ']', '\x7b', '\x7d', '#', '&', '*', '!', '|', '>', '\'', '"',
    '%', '@', Char.ofNat 0x60]

/-- Whether a scalar without quotes begins with a character. A dash begins one if no blank follows,
and so do a question mark and a colon outside of brackets and braces. -/
def beginsPlain (s : Layout) (c : Char) (rest : List Char) : Bool :=
  !(reserved.contains c || Lexeme.isBreak c) ||
    (!Lexeme.endsWord rest && (c == '-' || (s.depth == 0 && (c == '?' || c == ':'))))

/-- Read a token that begins with a character, which has not been skipped. -/
def readAt (s : Layout) (c : Char) (rest : List Char) : Except DocumentFlaw Layout :=
  let atStart := s.column == 0
  let apart := Lexeme.endsWord rest
  let inFlow := s.depth != 0
  if atStart && c == '%' then throw .token
  else if atStart && c == '-' && Lexeme.isSeparator (c :: rest) then s.readSeparator .documentStart
  else if atStart && c == '.' && Lexeme.isSeparator (c :: rest) then s.readSeparator .documentEnd
  else if c == '[' then s.readOpening .openBracket
  else if c == '\x7b' then s.readOpening .openBrace
  else if c == ']' then s.readClosing .closeBracket
  else if c == '\x7d' then s.readClosing .closeBrace
  else if c == ',' then s.readComma
  else if c == '-' && apart then s.readDash
  else if c == '?' && (inFlow || apart) then s.readKey
  else if c == ':' && (inFlow || apart) then s.readColon
  else if c == '\'' || c == '"' then s.readQuoted
  else if s.beginsPlain c rest then s.readPlain
  else throw .token

/-- Close everything at the end of the text. -/
def close (s : Layout) : Except DocumentFlaw Layout := do
  let s ← (s.unwind (-1)).dropKey
  pure (s.push .finish)

/-- The tokens that count although a flaw is met: those in front of everything that could still turn
out to be a key. -/
def settled (s : Layout) : List Token :=
  let pending := (s.keys.filter fun key => !s.isStale key).map PossibleKey.count
  s.tokens.reverse.take (pending.foldl min s.tokens.length)

/-- The tokens from a place on, in order. Every step uses up a character. -/
def readAll : Nat → Layout → List Token
  | 0, s => s.settled ++ [.flaw .token]
  | steps + 1, s =>
    let next := (s.toNextToken.dropStale).map fun s => s.unwind s.column
    match next with
    | .error flaw => s.settled ++ [.flaw flaw]
    | .ok ready =>
      match ready.cursor.rest with
      | [] =>
        match ready.close with
        | .error flaw => s.settled ++ [.flaw flaw]
        | .ok closed => closed.tokens.reverse
      | c :: rest =>
        match ready.readAt c rest with
        | .error flaw => s.settled ++ [.flaw flaw]
        | .ok after => readAll steps after

end Layout

/-- The tokens of a text. -/
def Token.ofText (text : List Char) : List Token :=
  let cursor : Layout.Cursor := ⟨text, {}⟩
  let start := if text.head? = some Layout.startMark then cursor.skipTo (text.drop 1) else cursor
  Layout.readAll (text.length + 1) { cursor := start }

end Shapeline
