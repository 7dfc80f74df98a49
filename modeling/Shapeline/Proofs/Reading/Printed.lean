import Mathlib.Algebra.Field.Basic
import Shapeline.Proofs.Reading.Alphabet
import Shapeline.Proofs.Term.Value
import Shapeline.Term.Printing

/-!
# Reading printed terms

A printed term stands for a term with the same values. It need not be the same tree: the right
operand of an addition or a multiplication is printed without parentheses although the operators
group to the left, so a sum that is added to something is read as summands that are added one by one.
That keeps the values, and it keeps where there is one, because no divisor changes. Parentheses stay
wherever such a regrouping would change a value.
-/

namespace Shapeline.Reading

open Term

variable {alphabet : Alphabet} {a b t u : Term} {ts us : List Token} {o : Operator}

/-- Put tokens in parentheses if a condition holds. -/
def enclose (needed : Bool) (ts : List Token) : List Token :=
  if needed then .opening :: ts ++ [.closing] else ts

/-- The tokens of a term as it is printed. -/
def printed : Term → List Token
  | const n => if 0 ≤ n then [.number n.toNat] else [.sign .sub, .number (-n).toNat]
  | sym name => [.name name]
  | hole p => [.name p.name]
  | op o left right =>
    enclose (left.needsParensLeft o) (printed left) ++
      .sign o :: enclose (right.needsParensRight o) (printed right)

/-- An operator is printed as a character that is a token on its own. -/
theorem exists_mark_symbol (o : Operator) :
    ∃ c, o.symbol.toList = [c] ∧ mark c = some [.sign o] := by
  cases o <;> exact ⟨_, rfl, rfl⟩

namespace Alphabet

/-- A printed integer has its sign and its digits as tokens. -/
theorem tokens_int (n : ℤ) : alphabet.tokens (toString n).toList = some (printed (const n)) := by
  rw [Int.toString_eq_repr, Int.repr_eq_if, printed]
  split
  · exact tokens_repr
  · have hminus : mark '-' = some [.sign .sub] := rfl
    have hdigits : alphabet.tokens (-n).toNat.repr.toList = some [.number (-n).toNat] :=
      tokens_repr
    have hsigned := tokens_cons_mark hminus hdigits
    rw [String.toList_append]
    exact hsigned

/-- Parentheses around a text are parentheses around its tokens. -/
theorem tokens_parenthesize {text : String} (needed : Bool)
    (h : alphabet.tokens text.toList = some ts) :
    alphabet.tokens (parenthesize needed text).toList = some (enclose needed ts) := by
  cases needed with
  | false => exact h
  | true =>
    have hopening : mark '(' = some [.opening] := rfl
    have hclosing : mark ')' = some [.closing] := rfl
    have htokens := tokens_cons_mark hopening (tokens_append_mark h hclosing tokens_nil)
    simpa [parenthesize, enclose] using htokens

/-- The tokens of a printed term. -/
theorem tokens_text (h : ∀ name ∈ t.symbols, alphabet.isIdentifier name.toList = true) :
    alphabet.tokens t.text.toList = some (printed t) := by
  induction t with
  | const n => exact tokens_int n
  | sym name => exact tokens_identifier (h name (List.mem_singleton_self _))
  | hole p => exact tokens_identifier (h p.name (List.mem_singleton_self _))
  | op o left right ihl ihr =>
    have hleft := tokens_parenthesize (left.needsParensLeft o)
      (ihl fun name hname => h name (Names.mem_union.mpr (Or.inl hname)))
    have hright := tokens_parenthesize (right.needsParensRight o)
      (ihr fun name hname => h name (Names.mem_union.mpr (Or.inr hname)))
    obtain ⟨c, hsymbol, hc⟩ := exists_mark_symbol o
    have hblank : mark ' ' = some [] := rfl
    have htokens := tokens_append_mark hleft hblank
      (tokens_cons_mark hc (tokens_cons_mark hblank hright))
    simpa [text, printed, hsymbol] using htokens

end Alphabet

/-- Two terms have the same values: they are defined at the same instantiations and equal there. -/
def SameValues (a b : Term) : Prop := ∀ ρ, a.valueAt ρ = b.valueAt ρ

/-- An operator on terms with the same values has the same values. -/
theorem SameValues.op {a' b' : Term} (ha : SameValues a a') (hb : SameValues b b') :
    SameValues (.op o a b) (.op o a' b') := fun ρ => by
  rw [valueAt, valueAt, ha ρ, hb ρ]

/-- Two operators may change their grouping if they may do so on numbers. -/
theorem sameValues_assoc {o' : Operator} {c : Term}
    (h : ∀ x y z,
      (o.onNumbers x y).bind (o'.onNumbers · z) = (o'.onNumbers y z).bind (o.onNumbers x)) :
    SameValues (.op o' (.op o a b) c) (.op o a (.op o' b c)) := fun ρ => by
  simp only [valueAt, bind]
  rcases a.valueAt ρ with _ | x
  · rfl
  rcases b.valueAt ρ with _ | y
  · rfl
  rcases c.valueAt ρ with _ | z
  · simp
  · simpa using h x y z

/-- A sum or difference may be added operand by operand. -/
theorem sameValues_add_assoc {c : Term} (ho : o.isTight = false) :
    SameValues (.op o (.op .add a b) c) (.op .add a (.op o b c)) := by
  refine sameValues_assoc fun x y z => ?_
  cases o with
  | add => exact congrArg some (add_assoc x y z)
  | sub => exact congrArg some (add_sub_assoc x y z)
  | mul => cases ho
  | div => cases ho

/-- A product or quotient may be multiplied operand by operand. -/
theorem sameValues_mul_assoc {c : Term} (ho : o.isTight = true) :
    SameValues (.op o (.op .mul a b) c) (.op .mul a (.op o b c)) := by
  refine sameValues_assoc fun x y z => ?_
  cases o with
  | add => cases ho
  | sub => cases ho
  | mul => exact congrArg some (mul_assoc x y z)
  | div =>
    by_cases hz : z = 0
    · simp [Operator.onNumbers, hz]
    · simp [Operator.onNumbers, hz, mul_div_assoc]

/-- A sum that is added to another is read as its summands, added one by one: what the last operator
of the sum on the right is applied to has been added to the sum on the left by then. -/
theorem exists_derives_add (ha : Derives .sum ts a) (hb : Derives .sum us b) :
    ∃ u, Derives .sum (ts ++ .sign .add :: us) u ∧ SameValues u (.op .add a b) := by
  generalize hp : Phrase.sum = p at hb
  induction hb with
  | product single => exact ⟨_, .plus rfl ha single, fun _ => rfl⟩
  | @plus o us vs b c loose hb hc ih =>
    obtain ⟨u, hu, hvalues⟩ := ih hp
    refine ⟨.op o u c, by simpa using Derives.plus loose hu hc, fun ρ => ?_⟩
    calc (Term.op o u c).valueAt ρ
      _ = (Term.op o (.op .add a b) c).valueAt ρ := hvalues.op (fun _ => rfl) ρ
      _ = (Term.op .add a (.op o b c)).valueAt ρ := sameValues_add_assoc loose ρ
  | _ => cases hp

/-- A product by which another is multiplied is read as its factors, applied one by one. -/
theorem exists_derives_mul (ha : Derives .product ts a) (hb : Derives .product us b) :
    ∃ u, Derives .product (ts ++ .sign .mul :: us) u ∧ SameValues u (.op .mul a b) := by
  generalize hp : Phrase.product = p at hb
  induction hb with
  | factor single => exact ⟨_, .times rfl ha single, fun _ => rfl⟩
  | @times o us vs b c tight hb hc ih =>
    obtain ⟨u, hu, hvalues⟩ := ih hp
    refine ⟨.op o u c, by simpa using Derives.times tight hu hc, fun ρ => ?_⟩
    calc (Term.op o u c).valueAt ρ
      _ = (Term.op o (.op .mul a b) c).valueAt ρ := hvalues.op (fun _ => rfl) ρ
      _ = (Term.op .mul a (.op o b c)).valueAt ρ := sameValues_mul_assoc tight ρ
  | _ => cases hp

/-- How tight a phrase is. -/
def Phrase.tightness : Phrase → ℕ
  | sum => 0
  | product => 1
  | factor => 2

/-- No phrase is tighter than a factor. -/
theorem Phrase.tightness_le (p : Phrase) : p.tightness ≤ factor.tightness := by
  cases p <;> decide

/-- The phrase that an operator forms. -/
def phraseOf (o : Operator) : Phrase := if o.isTight then .product else .sum

/-- The loosest phrase on the right of an operator that keeps its values there. -/
def rightPhrase : Operator → Phrase
  | .add => .sum
  | .sub => .product
  | .mul => .product
  | .div => .factor

/-- The phrase that a term is printed as. -/
def printedPhrase : Term → Phrase
  | op o _ _ => phraseOf o
  | _ => .factor

/-- A phrase may stand where a looser one is asked for. -/
theorem Derives.loosen {p q : Phrase} (h : Derives p ts t) (hpq : q.tightness ≤ p.tightness) :
    Derives q ts t := by
  cases p <;> cases q <;> simp [Phrase.tightness] at hpq
  case sum.sum => exact h
  case product.sum => exact .product h
  case product.product => exact h
  case factor.sum => exact .product (.factor h)
  case factor.product => exact .factor h
  case factor.factor => exact h

/-- A left operand that is printed without parentheses is no looser than the phrase of its
operator. -/
theorem tightness_of_left (h : t.needsParensLeft o = false) :
    (phraseOf o).tightness ≤ (printedPhrase t).tightness := by
  cases t with
  | op inner left right =>
    rw [needsParensLeft] at h
    rw [printedPhrase]
    revert h
    cases o <;> cases inner <;> decide
  | _ => exact Phrase.tightness_le _

/-- A right operand that is printed without parentheses is no looser than its place allows. -/
theorem tightness_of_right (h : t.needsParensRight o = false) :
    (rightPhrase o).tightness ≤ (printedPhrase t).tightness := by
  cases t with
  | op inner left right =>
    rw [needsParensRight] at h
    rw [printedPhrase]
    revert h
    cases o <;> cases inner <;> decide
  | _ => exact Phrase.tightness_le _

/-- Operands that are read by the phrases that an operator allows are read as one phrase. -/
theorem exists_derives_op (ha : Derives (phraseOf o) ts a) (hb : Derives (rightPhrase o) us b) :
    ∃ u, Derives (phraseOf o) (ts ++ .sign o :: us) u ∧ SameValues u (.op o a b) := by
  cases o with
  | add => exact exists_derives_add ha hb
  | sub => exact ⟨_, .plus rfl ha hb, fun _ => rfl⟩
  | mul => exact exists_derives_mul ha hb
  | div => exact ⟨_, .times rfl ha hb, fun _ => rfl⟩

/-- A printed operand, in parentheses where it needs them, is read as the phrase that its place
allows. -/
theorem derives_enclose {p : Phrase} {needed : Bool} (h : Derives (printedPhrase t) ts u)
    (hp : needed = false → p.tightness ≤ (printedPhrase t).tightness) :
    Derives p (enclose needed ts) u := by
  cases needed with
  | false => exact h.loosen (hp rfl)
  | true =>
    have hinner : Derives .sum ts u := h.loosen (Nat.zero_le _)
    exact (Derives.enclosed hinner).loosen p.tightness_le

/-- The tokens of a printed term stand for a term with the same values. -/
theorem exists_derives_printed (t : Term) :
    ∃ u, Derives (printedPhrase t) (printed t) u ∧ SameValues u t := by
  induction t with
  | const n =>
    rw [printed]
    split
    case isTrue hn =>
      exact ⟨_, .number n.toNat, fun ρ => by rw [Int.toNat_of_nonneg hn]⟩
    case isFalse hn =>
      exact ⟨_, .negative (-n).toNat, fun ρ => by rw [Int.toNat_of_nonneg (by omega), neg_neg]⟩
  | sym name => exact ⟨_, .name name, fun _ => rfl⟩
  | hole p => exact ⟨_, .name p.name, fun _ => rfl⟩
  | op o left right ihl ihr =>
    obtain ⟨left', hleft, hleftValues⟩ := ihl
    obtain ⟨right', hright, hrightValues⟩ := ihr
    obtain ⟨u, hu, hvalues⟩ := exists_derives_op
      (derives_enclose hleft tightness_of_left) (derives_enclose hright tightness_of_right)
    exact ⟨u, hu, fun ρ => (hvalues ρ).trans (hleftValues.op hrightValues ρ)⟩

/-- **Reading a printed term.** If the symbols of a term are identifiers, the printed term is read
back, as the only term that it stands for by the grammar. At every instantiation that term has a
value exactly where the printed one has, and the same. -/
theorem text_reads_back (alphabet : Alphabet) (t : Term)
    (h : ∀ name ∈ t.symbols, alphabet.isIdentifier name.toList = true) :
    ∃ u, alphabet.read t.text = some u ∧ (∀ v, alphabet.Denotes t.text v ↔ v = u) ∧
      ∀ ρ, u.valueAt ρ = t.valueAt ρ := by
  obtain ⟨u, hu, hvalues⟩ := exists_derives_printed t
  have hdenotes : alphabet.Denotes t.text u :=
    ⟨printed t, Alphabet.tokens_text h, hu.loosen (Nat.zero_le _)⟩
  refine ⟨u, Alphabet.read_eq_some_iff.mpr hdenotes, fun v => ?_, hvalues⟩
  exact ⟨fun hv => hv.eq hdenotes, fun hv => hv ▸ hdenotes⟩

/-- A difference and a quotient on the right of an addition and a multiplication are regrouped. The
negative number on the right of an operator keeps its parentheses. -/
theorem text_reads_back_regrouped :
    let product := op .mul (const (-3)) (op .div (sym "W_1") (sym "k2"))
    let t := op .add (sym "H") (op .sub product (const (-2)))
    let product' := op .div (op .mul (const (-3)) (sym "W_1")) (sym "k2")
    let u := op .sub (op .add (sym "H") product') (const (-2))
    t.text = "H + -3 * W_1 / k2 - (-2)" ∧
      (∀ name ∈ t.symbols, Alphabet.ascii.isIdentifier name.toList = true) ∧
      Alphabet.ascii.read t.text = some u ∧ u ≠ t ∧
      (∀ v, Alphabet.ascii.Denotes t.text v ↔ v = u) ∧ ∀ ρ, u.valueAt ρ = t.valueAt ρ := by
  intro product t product' u
  have hidentifiers : ∀ name ∈ t.symbols, Alphabet.ascii.isIdentifier name.toList = true := by
    decide +kernel
  have hread : Alphabet.ascii.read t.text = some u := by decide +kernel
  obtain ⟨v, hv, hdenotes, hvalues⟩ := text_reads_back Alphabet.ascii t hidentifiers
  obtain rfl := Option.some.inj (hv.symm.trans hread)
  exact ⟨by decide +kernel, hidentifiers, hread, by decide +kernel, hdenotes, hvalues⟩

end Shapeline.Reading
