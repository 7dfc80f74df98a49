import Shapeline.Proofs.Divisors
import Shapeline.Proofs.Renaming.Program

/-!
# The meaning of expressions

An expression of integers and names has a value wherever its names have numbers and no divisor in it
is zero. Lowering mixes plain integers, integer terms and operations, takes different ways to the
opposite of each, and checks a divisor while the quotient is made. The meaning is kept all the same:
an expression is refused exactly if it divides by an expression that is zero everywhere, and
otherwise the result has the same names and the same values.
-/

namespace Shapeline

namespace Expr

/-- An expression of integers and names under signs and the four operators. -/
def OfIntegers : Expr → Prop
  | literal (.int _) => True
  | identifier _ => True
  | unary operator operand => operator ∈ ["+", "-"] ∧ operand.OfIntegers
  | binary operator left right =>
    operator ∈ ["+", "-", "*", "/"] ∧ left.OfIntegers ∧ right.OfIntegers
  | located _ expr => expr.OfIntegers
  | _ => False

/-- A number with a sign as it is written in front of it. -/
def signed (operator : String) (x : ℚ) : Option ℚ :=
  if operator = "+" then some x
  else if operator = "-" then some (-x)
  else none

/-- Two numbers with an operator as it is written between them. Division by zero has no result. -/
def combined (operator : String) (x y : ℚ) : Option ℚ :=
  if operator = "+" then some (x + y)
  else if operator = "-" then some (x - y)
  else if operator = "*" then some (x * y)
  else if operator = "/" ∧ y ≠ 0 then some (x / y)
  else none

/-- The value of an expression where names have numbers. -/
def valueAt (ρ : Instantiation) : Expr → Option ℚ
  | literal (.int n) => some n
  | identifier name => ρ name
  | unary operator operand => do signed operator (← operand.valueAt ρ)
  | binary operator left right => do combined operator (← left.valueAt ρ) (← right.valueAt ρ)
  | located _ expr => expr.valueAt ρ
  | _ => none

/-- An expression vanishes: wherever it has a value, that is zero. -/
def Vanishes (expr : Expr) : Prop := ∀ ρ x, expr.valueAt ρ = some x → x = 0

/-- An expression contains a division by an expression that vanishes and does not itself contain
such a division. -/
def DividesByZero : Expr → Prop
  | unary _ operand => operand.DividesByZero
  | binary operator left right => left.DividesByZero ∨ right.DividesByZero ∨
    operator = "/" ∧ ¬ right.DividesByZero ∧ right.Vanishes
  | located _ expr => expr.DividesByZero
  | _ => False

/-- A term says what an expression says: it has the names and the values of the expression, and no
divisor in it vanishes. -/
structure Means (expr : Expr) (t : Term) : Prop where
  /-- No divisor vanishes. -/
  sound : t.Sound
  /-- The names are those of the expression. -/
  symbols : ∀ name, name ∈ t.symbols ↔ name ∈ expr.symbols
  /-- The values are those of the expression. -/
  value : ∀ ρ, t.valueAt ρ = expr.valueAt ρ

end Expr

open Term

variable {α β : Type} {x : Outcome α} {f : α → Outcome β} {node : Option Int}
  {expr operand left right : Expr} {t a b : Term} {value : Value} {operator description : String}
  {o : Operator} {ρ : Instantiation}

/-- A sequence of operations raises what its first operation raises. -/
theorem RaisesArithmetic.bind (h : RaisesArithmetic x) : RaisesArithmetic (x >>= f) := by
  obtain ⟨d, rfl, hd⟩ := h
  exact ⟨d, rfl, hd⟩

/-- An operation raises the same kind of diagnostic when a node is attached. -/
theorem RaisesArithmetic.attachNode (h : RaisesArithmetic x) :
    RaisesArithmetic (x.mapError (Failure.mapProblem (Shapeline.attachNode node))) := by
  obtain ⟨d, rfl, hd⟩ := h
  exact ⟨_, rfl, hd.attachNode⟩

/-- The opposite of a term has the opposite values. -/
theorem Term.valueAt_negate : t.negate.valueAt ρ = (t.valueAt ρ).bind (Expr.signed "-") := by
  have hsigned : Expr.signed "-" = fun x => some (-x) := rfl
  have hsub (t : Term) :
      (op .sub (const 0) t).valueAt ρ = (t.valueAt ρ).bind (Expr.signed "-") := by
    simp [valueAt, Operator.onNumbers, hsigned]
  cases t with
  | const n => simp [negate, valueAt, hsigned]
  | _ => exact hsub _

/-- The opposite of a term has the same symbols. -/
theorem Term.symbols_negate : t.negate.symbols = t.symbols := by
  cases t <;> rfl

/-- The opposite of a dimension is the opposite of its term, in whatever form it comes. -/
theorem exists_negateValue (h : value.toTerm? = some t) :
    ∃ w, negateValue value description node = .ok w ∧ w.toTerm? = some t.negate := by
  cases value with
  | int n =>
    obtain rfl := Option.some.inj h
    exact ⟨_, rfl, rfl⟩
  | dim u =>
    obtain rfl := Option.some.inj h
    exact ⟨_, rfl, rfl⟩
  | _ => cases h

/-- The four operators are those of terms. -/
theorem exists_operator (h : operator ∈ ["+", "-", "*", "/"]) :
    ∃ o, Operator.ofSymbol? operator = some o ∧ (o = .div ↔ operator = "/") ∧
      ∀ x y, Expr.combined operator x y = o.onNumbers x y := by
  simp only [List.mem_cons, List.not_mem_nil, or_false] at h
  rcases h with rfl | rfl | rfl | rfl
  · exact ⟨.add, rfl, by simp, fun _ _ => rfl⟩
  · exact ⟨.sub, rfl, by simp, fun _ _ => rfl⟩
  · exact ⟨.mul, rfl, by simp, fun _ _ => rfl⟩
  · refine ⟨.div, rfl, by simp, fun x y => ?_⟩
    by_cases hy : y = 0 <;> simp [Expr.combined, Operator.onNumbers, hy]

namespace Expr.Means

/-- A term that means an expression vanishes together with it. -/
theorem vanishes_iff (h : expr.Means t) : t.Vanishes ↔ expr.Vanishes := by
  simp only [Term.Vanishes, Expr.Vanishes, h.value]

/-- The opposite of a term means the opposite of the expression. -/
theorem negate (h : operand.Means t) : (unary "-" operand).Means t.negate := by
  refine ⟨arithmetic_sound.negate h.sound, fun name => ?_, fun ρ => ?_⟩
  · rw [Term.symbols_negate]
    exact h.symbols name
  · rw [Term.valueAt_negate, h.value]
    rfl

/-- An operator on terms is refused if it divides by an expression that vanishes. Otherwise the
result means the operator on the expressions. -/
theorem apply_cases (hleft : left.Means a) (hright : right.Means b)
    (ho : o = .div ↔ operator = "/")
    (hnumbers : ∀ x y, combined operator x y = o.onNumbers x y) :
    (operator = "/" ∧ right.Vanishes) ∧ RaisesArithmetic (Term.apply o a b) ∨
      ¬ (operator = "/" ∧ right.Vanishes) ∧
        Returns (binary operator left right).Means (Term.apply o a b) := by
  by_cases hzero : operator = "/" ∧ right.Vanishes
  · obtain rfl := ho.mpr hzero.1
    exact Or.inl ⟨hzero,
      (raisesArithmetic_divide_iff hright.sound).mpr (hright.vanishes_iff.mpr hzero.2)⟩
  · have hdivisor (hdiv : o = .div) : ¬ b.Vanishes :=
      fun hvanish => hzero ⟨ho.mp hdiv, hright.vanishes_iff.mp hvanish⟩
    refine Or.inr ⟨hzero, op o a b, ?_, ?_, fun name => ?_, fun ρ => ?_⟩
    · exact apply_eq_ok_iff.mpr
        ⟨fun hdiv => ⟨sound_iff_lowers.mp hright.sound, hdivisor hdiv⟩, rfl⟩
    · exact sound_op_iff.mpr ⟨hleft.sound, hright.sound, hdivisor⟩
    · rw [Term.symbols, Names.mem_union, hleft.symbols, hright.symbols]
      exact List.mem_append.symm
    · simp only [Term.valueAt, Expr.valueAt, hleft.value, hright.value, hnumbers]

end Expr.Means

/-- The right operand is lowered once the left one is a dimension, and then the operator is
applied. -/
theorem lowerExpr_binary {l : Value} (hl : lowerExpr node left = .ok l) (ha : l.toTerm? = some a)
    (ho : Operator.ofSymbol? operator = some o) :
    lowerExpr node (.binary operator left right) = (do
      let r ← requireDimension (← lowerExpr node right) right.text node
      return .dim (← (Term.apply o a r).mapError (Failure.mapProblem (attachNode node)))) := by
  rw [lowerExpr, hl, ho]
  change requireDimension l left.text node >>= _ = _
  rw [requireDimension_eq_ok_iff.mpr ha]
  rfl

/-- Lowering an expression of integers and names is refused if the expression divides by zero, and
otherwise leads to a term that means the expression. -/
theorem lowerExpr_cases (node : Option Int) (h : expr.OfIntegers) :
    expr.DividesByZero ∧ RaisesArithmetic (lowerExpr node expr) ∨
      ¬ expr.DividesByZero ∧ Returns (fun value => ∃ t, value.toTerm? = some t ∧ expr.Means t)
        (lowerExpr node expr) := by
  induction expr with
  | literal value =>
    cases value with
    | int n =>
      exact Or.inr ⟨nofun, _, rfl, .const n, rfl, arithmetic_sound.const n, fun name => Iff.rfl,
        fun ρ => rfl⟩
    | _ => cases h
  | identifier name =>
    exact Or.inr ⟨nofun, _, rfl, .sym name, rfl, by simp [Sound, divisors], fun name => Iff.rfl,
      fun ρ => rfl⟩
  | located _ expr ih =>
    rcases ih h with hraises | ⟨hdivides, value, hvalue, t, ht, hsound, hsymbols, hvalues⟩
    · exact Or.inl hraises
    · exact Or.inr ⟨hdivides, value, hvalue, t, ht, hsound, hsymbols, hvalues⟩
  | importLine name => cases h
  | unary operator operand ih =>
    obtain ⟨hoperator, hoperand⟩ := h
    rcases ih hoperand with ⟨hdivides, hraises⟩ | ⟨hdivides, value, hvalue, t, ht, hmeans⟩
    · exact Or.inl ⟨hdivides, hraises.bind⟩
    · refine Or.inr ⟨hdivides, ?_⟩
      rw [lowerExpr, hvalue]
      rcases List.mem_pair.mp hoperator with rfl | rfl
      · refine ⟨value, rfl, t, ht, hmeans.sound, hmeans.symbols, fun ρ => ?_⟩
        rw [hmeans.value]
        exact (Option.bind_fun_some _).symm
      · obtain ⟨w, hw, hterm⟩ := exists_negateValue ht
        exact ⟨w, hw, _, hterm, hmeans.negate⟩
  | binary operator left right ihl ihr =>
    obtain ⟨hoperator, hleft, hright⟩ := h
    obtain ⟨o, ho, hdiv, hnumbers⟩ := exists_operator hoperator
    rcases ihl hleft with ⟨hdivides, hraises⟩ | ⟨hleftFree, l, hl, a, ha, hmeansLeft⟩
    · exact Or.inl ⟨Or.inl hdivides, hraises.bind⟩
    rw [lowerExpr_binary hl ha ho]
    rcases ihr hright with ⟨hdivides, hraises⟩ | ⟨hrightFree, r, hr, b, hb, hmeansRight⟩
    · exact Or.inl ⟨Or.inr (Or.inl hdivides), hraises.bind⟩
    rw [hr]
    change _ ∧ RaisesArithmetic (requireDimension r right.text node >>= _) ∨
      _ ∧ Returns _ (requireDimension r right.text node >>= _)
    rw [requireDimension_eq_ok_iff.mpr hb]
    have hdivides : (Expr.binary operator left right).DividesByZero ↔
        operator = "/" ∧ right.Vanishes := by
      simp [Expr.DividesByZero, hleftFree, hrightFree]
    rw [hdivides]
    rcases hmeansLeft.apply_cases hmeansRight hdiv hnumbers with
      ⟨hzero, hraises⟩ | ⟨hzero, t, ht, hmeans⟩
    · exact Or.inl ⟨hzero, hraises.attachNode.bind⟩
    · refine Or.inr ⟨hzero, .dim t, ?_, t, rfl, hmeans⟩
      exact bind_eq_ok_iff.mpr ⟨b, rfl, bind_eq_ok_iff.mpr ⟨t, mapError_eq_ok_iff.mpr ht, rfl⟩⟩

/-- **Lowering an expression keeps its arithmetic meaning.** For an expression of integers and names
under signs and the four operators an arithmetic diagnostic is raised exactly if the expression
divides by zero: it contains a division whose divisor contains no such division and is zero wherever
it has a value. Otherwise the expression has a value somewhere, and the result mentions exactly the
names of the expression; wherever names have numbers, it has a value exactly if the expression does,
and the same one. -/
theorem lowerExpr_faithful (node : Option Int) (expr : Expr) (h : expr.OfIntegers) :
    (RaisesArithmetic (lowerExpr node expr) ↔ expr.DividesByZero) ∧
    (¬ expr.DividesByZero →
      (∃ ρ x, expr.valueAt ρ = some x) ∧
      ∃ value t, lowerExpr node expr = .ok value ∧ value.toTerm? = some t ∧
        (∀ name, name ∈ t.symbols ↔ name ∈ expr.symbols) ∧
        ∀ ρ, t.valueAt ρ = expr.valueAt ρ) := by
  rcases lowerExpr_cases node h with
    ⟨hdivides, hraises⟩ | ⟨hdivides, value, hvalue, t, ht, hmeans⟩
  · exact ⟨iff_of_true hraises hdivides, fun hnot => absurd hdivides hnot⟩
  · refine ⟨iff_of_false ?_ hdivides, fun _ => ⟨?_, value, t, hvalue, ht, hmeans.symbols,
      hmeans.value⟩⟩
    · rintro ⟨d, hd, -⟩
      cases hd.symm.trans hvalue
    · obtain ⟨ρ, x, hx⟩ := lowers_iff_exists_valueAt.mp (sound_iff_lowers.mp hmeans.sound)
      exact ⟨ρ, x, (hmeans.value ρ).symm.trans hx⟩

/-- A quotient with the difference of a name and itself below. -/
def vanishingQuotient : Expr :=
  .binary "/" (.identifier "H") (.binary "-" (.identifier "W") (.identifier "W"))

/-- A sum of a number and a quotient, with signs in front of a number and of a name. -/
def signedQuotient : Expr :=
  .binary "+" (.unary "-" (.literal (.int 3))) (.binary "/" (.unary "-" (.identifier "H"))
    (.literal (.int 2)))

/-- The first quotient is refused. The second one keeps its value. -/
theorem lowerExpr_faithful_quotients :
    RaisesArithmetic (lowerExpr (some 1) vanishingQuotient) ∧
    ∃ value t, lowerExpr none signedQuotient = .ok value ∧ value.toTerm? = some t ∧
      (∀ name, name ∈ t.symbols ↔ name = "H") ∧
      t.valueAt (.total fun _ => 5) = some (-11 / 2) := by
  obtain ⟨hraises, -⟩ := lowerExpr_faithful (some 1) vanishingQuotient
    (by simp [vanishingQuotient, Expr.OfIntegers])
  obtain ⟨-, hreturns⟩ := lowerExpr_faithful none signedQuotient
    (by simp [signedQuotient, Expr.OfIntegers])
  have hzero : vanishingQuotient.DividesByZero := by
    refine Or.inr (Or.inr ⟨rfl, by simp [Expr.DividesByZero], fun ρ x hx => ?_⟩)
    obtain ⟨y, hy, hx⟩ := Option.bind_eq_some_iff.mp hx
    obtain ⟨z, hz, hx⟩ := Option.bind_eq_some_iff.mp hx
    obtain rfl := Option.some.inj (hy.symm.trans hz)
    simpa [Expr.combined, eq_comm] using hx
  have hfree : ¬ signedQuotient.DividesByZero := by
    simp [signedQuotient, Expr.DividesByZero, Expr.Vanishes, Expr.valueAt]
  obtain ⟨-, value, t, hvalue, ht, hsymbols, hvalues⟩ := hreturns hfree
  refine ⟨hraises.mpr hzero, value, t, hvalue, ht, fun name => (hsymbols name).trans ?_, ?_⟩
  · simp [signedQuotient, Expr.symbols, Value.toTerm?, Term.symbols]
  · have hnumber : signedQuotient.valueAt (.total fun _ => 5) = some (-3 + -5 / 2) := by
      simp [signedQuotient, Expr.valueAt, Expr.signed, Expr.combined, Instantiation.total]
    rw [hvalues, hnumber]
    norm_num

end Shapeline
