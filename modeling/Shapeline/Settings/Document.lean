import Shapeline.Settings.Node

/-!
# Settings documents

A settings document is a text in YAML 1.1 that holds one value. It is read in steps: its characters
are checked, it is split into tokens, the tokens are put together to nodes, and the nodes stand for
values. The first step that fails tells the flaw of the document.
-/

namespace Shapeline.Document

/-- Whether a character may occur in a document. -/
def isAllowed (c : Char) : Bool :=
  let code := c.toNat
  decide (code = 0x9 ∨ code = 0xA ∨ (0x20 ≤ code ∧ code ≤ 0x7E) ∨ code = 0x85 ∨
    (0xA0 ≤ code ∧ code ≠ 0xFFFE ∧ code ≠ 0xFFFF))

/-- A text in which every carriage return, alone or in front of a line feed, is a line feed. -/
def withLineFeeds : List Char → List Char
  | [] => []
  | '\r' :: '\n' :: rest => '\n' :: withLineFeeds rest
  | '\r' :: rest => '\n' :: withLineFeeds rest
  | c :: rest => c :: withLineFeeds rest

/-- The value that a document holds. An empty document holds no value. -/
def read (document : String) : Except DocumentFlaw Setting := do
  let text := withLineFeeds document.toList
  if !text.all isAllowed then throw .character
  match ← Node.ofTokens (Token.ofText text) with
  | some node => node.setting
  | none => pure .null

end Shapeline.Document
