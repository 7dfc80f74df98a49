import Mathlib.Data.List.SplitBy
import Shapeline.Proofs.Reading.Grammar

/-!
# Reading characters

The characters of a written term are grouped into runs of letters, digits and underscores; every
other character stands alone. A run of decimal digits is an integer and an identifier is a name. The
other characters are the operators, the parentheses and the blank, which only separates. Which
characters of names are letters and which are digits is left open.
-/

namespace Shapeline.Reading

/-- The tokens that a single character stands for. A blank stands for none. -/
def mark : Char → Option (List Token)
  | ' ' => some []
  | '+' => some [.sign .add]
  | '-' => some [.sign .sub]
  | '*' => some [.sign .mul]
  | '/' => some [.sign .div]
  | '(' => some [.opening]
  | ')' => some [.closing]
  | _ => none

/-- The letters and digits of names. All decimal digits are digits, and no letter is one. The
characters that are tokens on their own are neither. -/
structure Alphabet where
  /-- Whether a character is a letter. -/
  isLetter : Char → Bool
  /-- Whether a character is a digit. -/
  isDigit : Char → Bool
  digit_of_decimal : ∀ c, c.isDigit = true → isDigit c = true
  letter_not_decimal : ∀ c, isLetter c = true → c.isDigit = false
  mark_apart : ∀ c, (mark c).isSome = true → isLetter c = false ∧ isDigit c = false

namespace Alphabet

/-- The letters and digits of ASCII. -/
def ascii : Alphabet where
  isLetter := Char.isAlpha
  isDigit := Char.isDigit
  digit_of_decimal _ h := h
  letter_not_decimal c h := by
    change (decide (c.val ≥ 'A'.val ∧ c.val ≤ 'Z'.val) ||
      (decide (c.val ≥ 'a'.val) && decide (c.val ≤ 'z'.val))) = true at h
    change (decide (c.val ≥ '0'.val) && decide (c.val ≤ '9'.val)) = false
    grind
  mark_apart c h := by
    unfold mark at h
    split at h
    case h_8 => cases h
    all_goals decide

variable (alphabet : Alphabet)

/-- Whether a character may start an identifier. -/
def starts (c : Char) : Bool := alphabet.isLetter c || c == '_'

/-- Whether a character may continue an identifier. -/
def continues (c : Char) : Bool := alphabet.starts c || alphabet.isDigit c

/-- Whether characters are an identifier. -/
def isIdentifier : List Char → Bool
  | [] => false
  | c :: cs => alphabet.starts c && cs.all alphabet.continues

/-- The tokens that a run of characters stands for. -/
def lexeme (run : List Char) : Option (List Token) :=
  if run.all Char.isDigit then some [.number (Nat.ofDigitChars 10 run 0)]
  else if alphabet.isIdentifier run then some [.name (String.ofList run)]
  else match run with
    | [c] => mark c
    | _ => none

/-- The tokens of a text. Two neighbouring characters belong to one run if both continue an
identifier. -/
def tokens (chars : List Char) : Option (List Token) := do
  let runs := chars.splitBy fun c d => alphabet.continues c && alphabet.continues d
  return (← runs.mapM alphabet.lexeme).flatten

/-- Read a text as a term. -/
def read (text : String) : Option Term := do readTokens (← alphabet.tokens text.toList)

/-- A text stands for a term: its tokens do by the grammar. -/
def Denotes (text : String) (t : Term) : Prop :=
  ∃ ts, alphabet.tokens text.toList = some ts ∧ Derives .sum ts t

variable {alphabet} {text : String} {t : Term} {c : Char} {chars rest : List Char}
  {ts us : List Token} {n : ℕ}

/-- A text is read as the term that it stands for. -/
theorem read_eq_some_iff : alphabet.read text = some t ↔ alphabet.Denotes text t := by
  simp only [read, Denotes, bind, Option.bind_eq_some_iff, readTokens_eq_some_iff]

/-- A text stands for one term at most. -/
theorem Denotes.eq {u : Term} (ht : alphabet.Denotes text t) (hu : alphabet.Denotes text u) :
    t = u :=
  Option.some.inj ((read_eq_some_iff.mpr ht).symm.trans (read_eq_some_iff.mpr hu))

/-- A text without characters has no tokens. -/
@[simp] theorem tokens_nil : alphabet.tokens [] = some [] := rfl

/-- The tokens of a text are those of its parts if no run goes across. -/
theorem tokens_append
    (hapart : ∀ c ∈ chars.getLast?, ∀ d ∈ rest.head?,
      (alphabet.continues c && alphabet.continues d) = false)
    (hts : alphabet.tokens chars = some ts) (hus : alphabet.tokens rest = some us) :
    alphabet.tokens (chars ++ rest) = some (ts ++ us) := by
  obtain ⟨runs, hruns, hts⟩ := Option.bind_eq_some_iff.mp hts
  obtain ⟨runs', hruns', hus⟩ := Option.bind_eq_some_iff.mp hus
  obtain rfl := Option.some.inj hts
  obtain rfl := Option.some.inj hus
  simp [tokens, List.splitBy_append hapart, List.mapM_append, hruns, hruns']

/-- A run of characters that continue identifiers is one lexeme. -/
theorem tokens_run (hne : chars ≠ []) (hrun : ∀ c ∈ chars, alphabet.continues c = true) :
    alphabet.tokens chars = alphabet.lexeme chars := by
  have hchain : chars.IsChain fun c d => (alphabet.continues c && alphabet.continues d) = true :=
    (List.pairwise_of_forall_mem_list fun c hc d hd => by rw [hrun c hc, hrun d hd]; rfl).isChain
  rw [tokens, List.splitBy_of_isChain hne hchain]
  cases hlexeme : alphabet.lexeme chars <;> simp [hlexeme]

/-- A character that is a token on its own does not continue an identifier. -/
theorem continues_of_mark (hc : mark c = some us) : alphabet.continues c = false := by
  obtain ⟨hletter, hdigit⟩ := alphabet.mark_apart c (Option.isSome_of_eq_some hc)
  have hne : c ≠ '_' := by
    rintro rfl
    cases hc
  simp [continues, starts, hletter, hdigit, hne]

/-- A character that is a token on its own is one in a text too. -/
theorem tokens_mark (hc : mark c = some us) : alphabet.tokens [c] = some us := by
  have hcontinues : alphabet.continues c = false := continues_of_mark hc
  simp only [continues, Bool.or_eq_false_iff] at hcontinues
  have hdecimal : c.isDigit = false :=
    Bool.eq_false_iff.mpr fun h => by simp [alphabet.digit_of_decimal c h] at hcontinues
  simp [tokens, List.splitBy, List.splitBy.loop, lexeme, isIdentifier, hdecimal, hcontinues.1, hc]

/-- A character that is a token on its own separates what stands around it. -/
theorem tokens_append_mark {vs : List Token} (hts : alphabet.tokens chars = some ts)
    (hc : mark c = some us) (hvs : alphabet.tokens rest = some vs) :
    alphabet.tokens (chars ++ c :: rest) = some (ts ++ us ++ vs) := by
  have hcontinues : alphabet.continues c = false := continues_of_mark hc
  have hleft := tokens_append (by simp [hcontinues]) hts (tokens_mark hc)
  have happend := tokens_append (by simp [hcontinues]) hleft hvs
  rwa [List.append_assoc, List.singleton_append] at happend

/-- A character that is a token on its own separates itself from what follows. -/
theorem tokens_cons_mark {vs : List Token} (hc : mark c = some us)
    (hvs : alphabet.tokens rest = some vs) : alphabet.tokens (c :: rest) = some (us ++ vs) :=
  tokens_append_mark tokens_nil hc hvs

/-- A natural number in decimal digits is one token. -/
theorem tokens_repr : alphabet.tokens n.repr.toList = some [.number n] := by
  have hdecimal : ∀ c ∈ Nat.toDigits 10 n, c.isDigit = true := fun c hc =>
    Nat.isDigit_of_mem_toDigits (by decide) (by decide) hc
  rw [Nat.toList_repr, tokens_run Nat.toDigits_ne_nil fun c hc => by
    simp [continues, alphabet.digit_of_decimal c (hdecimal c hc)]]
  simp [lexeme, List.all_eq_true.mpr hdecimal, Nat.ofDigitChars_ten_toDigits]

/-- An identifier is a character that starts one and others that continue it. -/
theorem isIdentifier_iff :
    alphabet.isIdentifier chars = true ↔
      ∃ c cs, chars = c :: cs ∧ alphabet.starts c = true ∧
        ∀ d ∈ cs, alphabet.continues d = true := by
  cases chars <;> simp [isIdentifier]

/-- No identifier starts with a decimal digit. -/
theorem not_decimal_of_starts (hc : alphabet.starts c = true) : c.isDigit = false := by
  rcases Bool.or_eq_true_iff.mp hc with hletter | hunderscore
  · exact alphabet.letter_not_decimal c hletter
  · rw [beq_iff_eq.mp hunderscore]
    rfl

/-- An identifier is one token. -/
theorem tokens_identifier {name : String} (h : alphabet.isIdentifier name.toList = true) :
    alphabet.tokens name.toList = some [.name name] := by
  obtain ⟨c, cs, hname, hstarts, hcs⟩ := isIdentifier_iff.mp h
  have hcontinues : ∀ d ∈ name.toList, alphabet.continues d = true := by
    rw [hname]
    exact List.forall_mem_cons.mpr ⟨by rw [continues, hstarts]; rfl, hcs⟩
  have hdecimal : name.toList.all Char.isDigit = false := by
    rw [hname, List.all_cons, not_decimal_of_starts hstarts]
    rfl
  rw [tokens_run (by simp [hname]) hcontinues]
  unfold lexeme
  rw [hdecimal, h, if_neg Bool.false_ne_true, if_pos rfl, String.ofList_toList]

end Alphabet

end Shapeline.Reading
