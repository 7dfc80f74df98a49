/-!
# Flaws of settings documents

Why a settings document cannot be read, in the order in which the flaws are looked for: in its
characters, in the tokens that they form, in the arrangement of the tokens, in the number of
documents, and in the values that are written.
-/

namespace Shapeline

/-- Why a settings document cannot be read. -/
inductive DocumentFlaw
  /-- A character occurs that must not. -/
  | character
  /-- No token can be read where one is needed. -/
  | token
  /-- A token stands where it has no meaning. -/
  | arrangement
  /-- There is more than one document. -/
  | severalDocuments
  /-- A list or a mapping is the key of a mapping. -/
  | key
  /-- A word of the format stands for no value. -/
  | word
  /-- A numeral, a day, a time or the number of a character is out of range. -/
  | range
  deriving DecidableEq

end Shapeline
