import Mathlib.Data.Nat.Notation
import Shapeline.Term.Basic

/-!
# Grammar of written terms

The tokens of a written term are read by the usual grammar of expressions: addition and subtraction
group to the left, multiplication and division do so too and bind tighter, and parentheses enclose a
whole expression. An integer may have a sign.

The grammar says which term a list of tokens stands for. A reader that keeps the unfinished sum and
product of each open parenthesis finds that term in one pass. It accepts exactly what the grammar
derives, so the grammar leaves no choice.
-/

namespace Shapeline

/-- Whether an operator belongs to products. The others belong to sums. -/
def Operator.isTight : Operator → Bool
  | mul => true
  | div => true
  | add => false
  | sub => false

namespace Reading

/-- The units of a written term. -/
inductive Token
  | number (value : ℕ)
  | name (name : String)
  | sign (operator : Operator)
  | opening
  | closing
  deriving DecidableEq

/-- The phrases of a written term, from the loosest to the tightest. -/
inductive Phrase
  | sum
  | product
  | factor

/-- The term that a list of tokens stands for, as a phrase of some kind. -/
inductive Derives : Phrase → List Token → Term → Prop
  | number (n : ℕ) : Derives .factor [.number n] (.const n)
  | positive (n : ℕ) : Derives .factor [.sign .add, .number n] (.const n)
  | negative (n : ℕ) : Derives .factor [.sign .sub, .number n] (.const (-n))
  | name (name : String) : Derives .factor [.name name] (.sym name)
  | enclosed {ts : List Token} {t : Term} (inner : Derives .sum ts t) :
      Derives .factor (.opening :: ts ++ [.closing]) t
  | factor {ts : List Token} {t : Term} (single : Derives .factor ts t) : Derives .product ts t
  | product {ts : List Token} {t : Term} (single : Derives .product ts t) : Derives .sum ts t
  | times {o : Operator} {ts us : List Token} {left right : Term} (tight : o.isTight = true)
      (hleft : Derives .product ts left) (hright : Derives .factor us right) :
      Derives .product (ts ++ .sign o :: us) (.op o left right)
  | plus {o : Operator} {ts us : List Token} {left right : Term} (loose : o.isTight = false)
      (hleft : Derives .sum ts left) (hright : Derives .product us right) :
      Derives .sum (ts ++ .sign o :: us) (.op o left right)

/-- A term with its operator that waits for a right operand, applied to that operand. -/
def attach : Option (Term × Operator) → Term → Term
  | none, t => t
  | some (left, o), t => .op o left t

/-- What waits for the next operand inside of one pair of parentheses: a sum and, within it, a
product. -/
structure Frame where
  /-- The sum before the product. -/
  sum : Option (Term × Operator) := none
  /-- The product before the operand. -/
  product : Option (Term × Operator) := none

namespace Frame

/-- The product that ends with an operand. -/
def closeProduct (f : Frame) (t : Term) : Term := attach f.product t

/-- The sum that ends with an operand. -/
def closeSum (f : Frame) (t : Term) : Term := attach f.sum (f.closeProduct t)

/-- What waits after an operand and an operator. A tight operator goes on with the product, any other
with the sum. -/
def push (f : Frame) (t : Term) (o : Operator) : Frame :=
  if o.isTight then { f with product := some (f.closeProduct t, o) }
  else { sum := some (f.closeSum t, o) }

end Frame

/-- Read tokens from within a frame, with the frames of the open parentheses around it, before an
operand or after one. -/
def readFrom : Frame → List Frame → Option Term → List Token → Option Term
  | f, [], some t, [] => some (f.closeSum t)
  | f, outer :: stack, some t, .closing :: ts => readFrom outer stack (some (f.closeSum t)) ts
  | f, stack, some t, .sign o :: ts => readFrom (f.push t o) stack none ts
  | f, stack, none, .number n :: ts => readFrom f stack (some (.const n)) ts
  | f, stack, none, .sign .add :: .number n :: ts => readFrom f stack (some (.const n)) ts
  | f, stack, none, .sign .sub :: .number n :: ts => readFrom f stack (some (.const (-n))) ts
  | f, stack, none, .name name :: ts => readFrom f stack (some (.sym name)) ts
  | f, stack, none, .opening :: ts => readFrom {} (f :: stack) none ts
  | _, _, _, _ => none

/-- Read a whole list of tokens. -/
def readTokens (tokens : List Token) : Option Term := readFrom {} [] none tokens

variable {f g : Frame} {stack : List Frame} {t u : Term} {o : Operator} {ts us rest : List Token}

/-- Only the waiting sum and the product up to here matter after an operand. -/
theorem readFrom_congr (hsum : f.sum = g.sum) (hproduct : f.closeProduct t = g.closeProduct u) :
    readFrom f stack (some t) rest = readFrom g stack (some u) rest := by
  have hclose : f.closeSum t = g.closeSum u := by
    rw [Frame.closeSum, Frame.closeSum, hsum, hproduct]
  match rest with
  | [] => cases stack <;> simp only [readFrom, hclose]
  | .closing :: _ => cases stack <;> simp only [readFrom, hclose]
  | .sign o :: _ => simp only [readFrom, Frame.push, hsum, hproduct, hclose]
  | .number _ :: _ => cases stack <;> rfl
  | .name _ :: _ => cases stack <;> rfl
  | .opening :: _ => cases stack <;> rfl

/-- Where no tight operator follows, only the sum up to here matters. -/
theorem readFrom_closeSum (hrest : ∀ o ts, rest = .sign o :: ts → o.isTight = false) :
    readFrom f stack (some t) rest = readFrom {} stack (some (f.closeSum t)) rest := by
  match rest with
  | [] => cases stack <;> rfl
  | .closing :: _ => cases stack <;> rfl
  | .sign o :: ts =>
    have hloose := hrest o ts rfl
    simp only [readFrom, Frame.push, hloose]
    rfl
  | .number _ :: _ => cases stack <;> rfl
  | .name _ :: _ => cases stack <;> rfl
  | .opening :: _ => cases stack <;> rfl

/-- The state in which a phrase of some kind starts: before a product no product waits, before a sum
nothing does. -/
def Phrase.Starts : Phrase → Frame → Prop
  | sum, f => f.sum = none ∧ f.product = none
  | product, f => f.product = none
  | factor, _ => True

/-- What may follow a phrase: a sum is not continued by a tight operator. -/
def Phrase.Ends : Phrase → List Token → Prop
  | sum, rest => ∀ o ts, rest = .sign o :: ts → o.isTight = false
  | _, _ => True

/-- A phrase is read as one operand. What waits in the frame is left alone by a factor, gets a product
by a product and a sum by a sum, which is why these need a frame without one at the start. -/
theorem readFrom_of_derives {p : Phrase} (h : Derives p ts t) (hstart : p.Starts f)
    (hend : p.Ends rest) : readFrom f stack none (ts ++ rest) = readFrom f stack (some t) rest := by
  induction h generalizing f stack rest with
  | number n => rw [List.singleton_append, readFrom]
  | positive n => rw [List.cons_append, List.singleton_append, readFrom]
  | negative n => rw [List.cons_append, List.singleton_append, readFrom]
  | name name => rw [List.singleton_append, readFrom]
  | @enclosed ts t inner ih =>
    calc readFrom f stack none (.opening :: ts ++ [.closing] ++ rest)
      _ = readFrom {} (f :: stack) none (ts ++ .closing :: rest) := by
          rw [List.cons_append, List.cons_append, List.append_assoc, List.singleton_append,
            readFrom]
      _ = readFrom {} (f :: stack) (some t) (.closing :: rest) :=
          ih ⟨rfl, rfl⟩ fun o us h => nomatch h
      _ = readFrom f stack (some t) rest := rfl
  | factor single ih => exact ih trivial trivial
  | product single ih => exact ih hstart.2 trivial
  | @times o ts us left right tight hleft hright ihl ihr =>
    have hproduct : f.product = none := hstart
    calc readFrom f stack none (ts ++ .sign o :: us ++ rest)
      _ = readFrom f stack (some left) (.sign o :: us ++ rest) := by
          rw [List.append_assoc]
          exact ihl hstart trivial
      _ = readFrom (f.push left o) stack none (us ++ rest) := by rw [List.cons_append, readFrom]
      _ = readFrom (f.push left o) stack (some right) rest := ihr trivial trivial
      _ = readFrom f stack (some (.op o left right)) rest :=
          readFrom_congr (by simp [Frame.push, tight])
            (by simp [Frame.push, Frame.closeProduct, attach, tight, hproduct])
  | @plus o ts us left right loose hleft hright ihl ihr =>
    obtain ⟨hsum, hproduct⟩ : f.sum = none ∧ f.product = none := hstart
    have hpush : (f.push left o).closeSum right = .op o left right := by
      simp [Frame.push, Frame.closeSum, Frame.closeProduct, attach, loose, hsum, hproduct]
    calc readFrom f stack none (ts ++ .sign o :: us ++ rest)
      _ = readFrom f stack (some left) (.sign o :: us ++ rest) := by
          rw [List.append_assoc]
          refine ihl ⟨hsum, hproduct⟩ fun o' us' h => ?_
          obtain ⟨⟨⟩, -⟩ := List.cons.inj h
          exact loose
      _ = readFrom (f.push left o) stack none (us ++ rest) := by rw [List.cons_append, readFrom]
      _ = readFrom (f.push left o) stack (some right) rest :=
          ihr (by simp [Phrase.Starts, Frame.push, loose]) trivial
      _ = readFrom {} stack (some (.op o left right)) rest := by rw [readFrom_closeSum hend, hpush]
      _ = readFrom f stack (some (.op o left right)) rest :=
          readFrom_congr hsum.symm (by simp [Frame.closeProduct, hproduct])

/-- The tokens after which a frame waits for an operand. -/
inductive Frame.Awaits : Frame → List Token → Prop
  | start : Awaits {} []
  | sum {ts : List Token} {t : Term} {o : Operator} (loose : o.isTight = false)
      (h : Derives .sum ts t) : Awaits { sum := some (t, o) } (ts ++ [.sign o])
  | product {waiting : Option (Term × Operator)} {ts us : List Token} {t : Term} {o : Operator}
      (tight : o.isTight = true) (hsum : Awaits { sum := waiting } ts) (h : Derives .product us t) :
      Awaits ⟨waiting, some (t, o)⟩ (ts ++ us ++ [.sign o])

/-- The tokens before an open parenthesis, for each of the open parentheses. -/
inductive Opened : List Frame → List Token → Prop
  | none : Opened [] []
  | level {f : Frame} {stack : List Frame} {ts us : List Token} (houter : Opened stack ts)
      (h : f.Awaits us) : Opened (f :: stack) (ts ++ us ++ [.opening])

/-- The tokens of the operand that was read last. -/
def Holds : Option Term → List Token → Prop
  | none, ts => ts = []
  | some t, ts => Derives .factor ts t

/-- An operand completes the product that waits for it. -/
theorem Frame.Awaits.closeProduct (h : f.Awaits ts) (ht : Derives .factor us t) :
    ∃ vs ws, ts ++ us = vs ++ ws ∧ Awaits { sum := f.sum } vs ∧
      Derives .product ws (f.closeProduct t) := by
  cases h with
  | start => exact ⟨[], us, rfl, .start, .factor ht⟩
  | sum loose h => exact ⟨_, us, rfl, .sum loose h, .factor ht⟩
  | @product waiting vs ws left o tight hsum h =>
    exact ⟨vs, ws ++ .sign o :: us, by simp, hsum, .times tight h ht⟩

/-- An operand completes the sum that waits for it. -/
theorem Frame.Awaits.closeSum (h : f.Awaits ts) (ht : Derives .factor us t) :
    Derives .sum (ts ++ us) (f.closeSum t) := by
  obtain ⟨vs, ws, heq, hsum, hproduct⟩ := h.closeProduct ht
  rw [heq, Frame.closeSum]
  generalize f.closeProduct t = u at hproduct
  generalize f.sum = waiting at hsum
  cases hsum with
  | start => exact .product hproduct
  | @sum ts left o loose h =>
    rw [List.append_assoc]
    exact .plus loose h hproduct

/-- An operand and an operator leave a frame that waits for the next operand. -/
theorem Frame.Awaits.push (h : f.Awaits ts) (ht : Derives .factor us t) :
    (f.push t o).Awaits (ts ++ us ++ [.sign o]) := by
  unfold Frame.push
  split
  case isTrue tight =>
    obtain ⟨vs, ws, heq, hsum, hproduct⟩ := h.closeProduct ht
    exact heq ▸ .product tight hsum hproduct
  case isFalse loose => exact .sum (Bool.eq_false_iff.mpr loose) (h.closeSum ht)

/-- Whatever is read follows the grammar, given that the tokens before did so. The tokens split into
those before the innermost open parenthesis, those of the frame, those of the last operand and the
rest, and each step moves one token from the rest into another part. -/
theorem derives_of_readFrom {operand : Option Term} {before : List Token}
    (h : readFrom f stack operand rest = some u) (hstack : Opened stack before)
    (hframe : f.Awaits ts) (hoperand : Holds operand us) :
    Derives .sum (before ++ ts ++ us ++ rest) u := by
  fun_induction readFrom f stack operand rest generalizing before ts us with
  | case1 f t =>
    obtain rfl := Option.some.inj h
    cases hstack
    simpa using hframe.closeSum hoperand
  | case2 f outer stack t rest ih =>
    cases hstack with
    | @level _ _ vs ws houter hf =>
      have hfactor := Derives.enclosed (hframe.closeSum hoperand)
      simpa using ih h houter hf hfactor
  | case3 f stack t o rest ih =>
    simpa using ih h hstack (hframe.push hoperand) rfl
  | case4 f stack n rest ih =>
    obtain rfl : us = [] := hoperand
    simpa using ih h hstack hframe (Derives.number n)
  | case5 f stack n rest ih =>
    obtain rfl : us = [] := hoperand
    simpa using ih h hstack hframe (Derives.positive n)
  | case6 f stack n rest ih =>
    obtain rfl : us = [] := hoperand
    simpa using ih h hstack hframe (Derives.negative n)
  | case7 f stack name rest ih =>
    obtain rfl : us = [] := hoperand
    simpa using ih h hstack hframe (Derives.name name)
  | case8 f stack rest ih =>
    obtain rfl : us = [] := hoperand
    simpa using ih h (.level hstack hframe) .start rfl
  | case9 => cases h

/-- A list of tokens is read as the term that it stands for. -/
theorem readTokens_eq_some_iff : readTokens ts = some t ↔ Derives .sum ts t := by
  constructor
  · intro h
    simpa using derives_of_readFrom h .none .start rfl
  · intro h
    calc readTokens ts
      _ = readFrom {} [] none (ts ++ []) := by rw [List.append_nil, readTokens]
      _ = readFrom {} [] (some t) [] := readFrom_of_derives h ⟨rfl, rfl⟩ fun o us h => nomatch h
      _ = some t := rfl

end Reading

end Shapeline
