import Shapeline.Settings.Token

/-!
# Nodes of settings documents

The tokens of a settings document put together: scalars, lists and mappings. An entry without a
value, or an item without anything, holds an empty scalar. Between brackets an entry may stand as an
item; it is a mapping of its own.

The readers take the number of steps they may make. Every step uses up a token or looks closer at
one, so a small multiple of the number of tokens suffices.
-/

namespace Shapeline

/-- A part of a settings document. -/
inductive Node
  /-- A scalar, and whether it stands in quotes. -/
  | scalar (text : List Char) (quoted : Bool)
  /-- A list. -/
  | list (items : List Node)
  /-- A mapping, given by its keys and their values. -/
  | mapping (entries : List (Node × Node))

namespace Node

/-- What stands where nothing is written. -/
def empty : Node := .scalar [] false

/-- The first of some tokens has no meaning where it stands. -/
def unexpected {α : Type} : List Token → Except DocumentFlaw (α × List Token)
  | .flaw flaw :: _ => throw flaw
  | _ => throw .arrangement

/-- Whether tokens begin with one that ends an entry or an item. -/
def isMissing (isEnd : Token → Bool) : List Token → Bool
  | [] => true
  | token :: _ => isEnd token

/-- The tokens that show that nothing stands behind a dash. -/
def endsItem : Token → Bool
  | .dash | .blockEnd => true
  | _ => false

/-- The tokens that show that nothing stands behind the dash of an item that is not indented. -/
def endsLooseItem : Token → Bool
  | .dash | .key | .colon | .blockEnd => true
  | _ => false

/-- The tokens that show that a key or a value of a block is missing. -/
def endsBlockPart : Token → Bool
  | .key | .colon | .blockEnd => true
  | _ => false

/-- The tokens that show that a value between brackets or braces is missing. -/
def endsFlowValue : Token → Bool
  | .comma | .closeBracket | .closeBrace => true
  | _ => false

/-- The tokens that show that a key between brackets or braces is missing. -/
def endsFlowKey : Token → Bool
  | .colon => true
  | token => endsFlowValue token

/-- Which nodes may stand somewhere. -/
structure Scope where
  /-- Nodes that are held together by indentation. -/
  block : Bool := false
  /-- Lists whose dashes are not indented further than the key in front. -/
  loose : Bool := false

mutual

/-- A node. -/
def read : Nat → Scope → List Token → Except DocumentFlaw (Node × List Token)
  | 0, _, _ => throw .arrangement
  | steps + 1, scope, tokens =>
    match tokens with
    | .scalar text quoted :: rest => pure (.scalar text quoted, rest)
    | .openBracket :: rest => do
      let (items, rest) ← readFlowItems steps true rest
      pure (.list items, rest)
    | .openBrace :: rest => do
      let (entries, rest) ← readFlowEntries steps true rest
      pure (.mapping entries, rest)
    | .dash :: rest =>
      if scope.loose then do
        let (items, rest) ← readLooseItems steps (.dash :: rest)
        pure (.list items, rest)
      else throw .arrangement
    | .listStart :: rest =>
      if scope.block then do
        let (items, rest) ← readItems steps rest
        pure (.list items, rest)
      else throw .arrangement
    | .mappingStart :: rest =>
      if scope.block then do
        let (entries, rest) ← readEntries steps rest
        pure (.mapping entries, rest)
      else throw .arrangement
    | tokens => unexpected tokens

/-- A node that may be missing. -/
def readOptional :
    Nat → Scope → (Token → Bool) → List Token → Except DocumentFlaw (Node × List Token)
  | 0, _, _, _ => throw .arrangement
  | steps + 1, scope, isEnd, tokens =>
    if isMissing isEnd tokens then pure (empty, tokens) else read steps scope tokens

/-- The items of a list that is held together by indentation. -/
def readItems : Nat → List Token → Except DocumentFlaw (List Node × List Token)
  | 0, _ => throw .arrangement
  | steps + 1, tokens =>
    match tokens with
    | .dash :: rest => do
      let (item, rest) ← readOptional steps { block := true } endsItem rest
      let (items, rest) ← readItems steps rest
      pure (item :: items, rest)
    | .blockEnd :: rest => pure ([], rest)
    | tokens => unexpected tokens

/-- The items of a list whose dashes are not indented. -/
def readLooseItems : Nat → List Token → Except DocumentFlaw (List Node × List Token)
  | 0, _ => throw .arrangement
  | steps + 1, tokens =>
    match tokens with
    | .dash :: rest => do
      let (item, rest) ← readOptional steps { block := true } endsLooseItem rest
      let (items, rest) ← readLooseItems steps rest
      pure (item :: items, rest)
    | .flaw flaw :: _ => throw flaw
    | tokens => pure ([], tokens)

/-- The entries of a mapping that is held together by indentation. -/
def readEntries : Nat → List Token → Except DocumentFlaw (List (Node × Node) × List Token)
  | 0, _ => throw .arrangement
  | steps + 1, tokens =>
    match tokens with
    | .key :: rest => do
      let scope : Scope := { block := true, loose := true }
      let (key, rest) ← readOptional steps scope endsBlockPart rest
      let (value, rest) ← readValue steps scope endsBlockPart rest
      let (entries, rest) ← readEntries steps rest
      pure ((key, value) :: entries, rest)
    | .blockEnd :: rest => pure ([], rest)
    | tokens => unexpected tokens

/-- The value behind a key, which may be missing together with its colon. -/
def readValue :
    Nat → Scope → (Token → Bool) → List Token → Except DocumentFlaw (Node × List Token)
  | 0, _, _, _ => throw .arrangement
  | steps + 1, scope, isEnd, tokens =>
    match tokens with
    | .colon :: rest => readOptional steps scope isEnd rest
    | .flaw flaw :: _ => throw flaw
    | tokens => pure (empty, tokens)

/-- The items of a list in brackets, from the first one on or from behind an item. -/
def readFlowItems : Nat → Bool → List Token → Except DocumentFlaw (List Node × List Token)
  | 0, _, _ => throw .arrangement
  | steps + 1, isFirst, tokens =>
    match isFirst, tokens with
    | _, .closeBracket :: rest => pure ([], rest)
    | false, .comma :: .closeBracket :: rest => pure ([], rest)
    | false, .comma :: rest => readFlowItem steps rest
    | false, tokens => unexpected tokens
    | true, tokens => readFlowItem steps tokens

/-- The items of a list in brackets, of which the first one follows. -/
def readFlowItem : Nat → List Token → Except DocumentFlaw (List Node × List Token)
  | 0, _ => throw .arrangement
  | steps + 1, tokens => do
    let (item, rest) ←
      match tokens with
      | .key :: rest => do
        let (key, rest) ← readOptional steps {} endsFlowKey rest
        let (value, rest) ← readValue steps {} endsFlowValue rest
        pure (.mapping [(key, value)], rest)
      | tokens => read steps {} tokens
    let (items, rest) ← readFlowItems steps false rest
    pure (item :: items, rest)

/-- The entries of a mapping in braces, from the first one on or from behind an entry. -/
def readFlowEntries :
    Nat → Bool → List Token → Except DocumentFlaw (List (Node × Node) × List Token)
  | 0, _, _ => throw .arrangement
  | steps + 1, isFirst, tokens =>
    match isFirst, tokens with
    | _, .closeBrace :: rest => pure ([], rest)
    | false, .comma :: .closeBrace :: rest => pure ([], rest)
    | false, .comma :: rest => readFlowEntry steps rest
    | false, tokens => unexpected tokens
    | true, tokens => readFlowEntry steps tokens

/-- The entries of a mapping in braces, of which the first one follows. -/
def readFlowEntry : Nat → List Token → Except DocumentFlaw (List (Node × Node) × List Token)
  | 0, _ => throw .arrangement
  | steps + 1, tokens => do
    let (entry, rest) ←
      match tokens with
      | .key :: rest => do
        let (key, rest) ← readOptional steps {} endsFlowKey rest
        let (value, rest) ← readValue steps {} endsFlowValue rest
        pure ((key, value), rest)
      | tokens => do
        let (key, rest) ← read steps {} tokens
        pure ((key, empty), rest)
    let (entries, rest) ← readFlowEntries steps false rest
    pure (entry :: entries, rest)

end

/-- Check that nothing follows a document but marks of its end. -/
def checkEnd (tokens : List Token) : Except DocumentFlaw Unit :=
  match tokens with
  | [] | [.finish] => pure ()
  | .documentEnd :: rest => checkEnd rest
  | .documentStart :: _ => throw .severalDocuments
  | .flaw flaw :: _ => throw flaw
  | _ => throw .arrangement

/-- The node that some tokens form, if there is one. -/
def ofTokens (tokens : List Token) : Except DocumentFlaw (Option Node) := do
  let endsDocument : Token → Bool
    | .documentStart | .documentEnd | .finish => true
    | _ => false
  let steps := 4 * tokens.length + 4
  let scope : Scope := { block := true }
  match tokens with
  | [] | [.finish] => pure none
  | .documentStart :: rest => do
    let (node, rest) ← readOptional steps scope endsDocument rest
    checkEnd rest
    pure (some node)
  | tokens => do
    let (node, rest) ← read steps scope tokens
    checkEnd rest
    pure (some node)

mutual

/-- The value that a node stands for. Of two entries with the same key the later value counts, in
the place of the earlier one. -/
def setting : Node → Except DocumentFlaw Setting
  | scalar text quoted => if quoted then pure (.text (String.ofList text)) else Scalar.plain text
  | list items => do return .list (← settings items)
  | mapping entries => do return .mapping (← entrySettings [] entries)

/-- The values that nodes stand for. -/
def settings : List Node → Except DocumentFlaw (List Setting)
  | [] => pure []
  | item :: rest => do
    let value ← item.setting
    return value :: (← settings rest)

/-- The entries that the nodes of a mapping stand for, added to earlier ones. -/
def entrySettings (earlier : List (Setting × Setting)) :
    List (Node × Node) → Except DocumentFlaw (List (Setting × Setting))
  | [] => pure earlier
  | (keyNode, valueNode) :: rest => do
    let key ← keyNode.setting
    if !key.isKey then throw .key
    let value ← valueNode.setting
    entrySettings (Setting.insert key value earlier) rest

end

end Node

end Shapeline
