import Shapeline.Proofs.Reported.Inference

/-!
# Zero divisors

A term is sound if every divisor that occurs in it denotes a function other than zero. Terms are
checked when they are built: each operation on sound terms raises an arithmetic diagnostic or
returns sound terms again. Soundness is the same as having a normal form, so nothing that only reads
a sound term can fail.
-/

namespace Shapeline

/-- A diagnostic says that an operation on terms has no value. -/
def Diagnostic.IsArithmetic (d : Diagnostic) : Prop := ∃ message, d.cause = .arithmetic message

/-- An operation raises an arithmetic diagnostic. -/
def RaisesArithmetic {α : Type} (x : Outcome α) : Prop :=
  ∃ d, x = .error (.problem d) ∧ d.IsArithmetic

/-- An operation raises an arithmetic diagnostic or returns a result with a property. -/
def Guarded {α : Type} (P : α → Prop) (x : Outcome α) : Prop := RaisesArithmetic x ∨ Returns P x

section Guarded

variable {α β : Type} {P : α → Prop} {Q : β → Prop} {x : Outcome α} {node : Option Int}

/-- A division by zero is an arithmetic problem. -/
theorem Diagnostic.IsDivision.isArithmetic {d : Diagnostic} (h : d.IsDivision) :
    d.IsArithmetic := by
  obtain ⟨quotient, rfl⟩ := h
  exact ⟨_, rfl⟩

/-- The node that a diagnostic belongs to does not change its cause. -/
theorem Diagnostic.IsArithmetic.attachNode {d : Diagnostic} (h : d.IsArithmetic) :
    (Shapeline.attachNode node d).IsArithmetic := by
  cases node <;> exact h

namespace Guarded

/-- An operation that fails on arithmetic only is guarded by what its results have. -/
theorem of_fails (hx : Fails False Diagnostic.IsArithmetic x) (h : ∀ a, x = .ok a → P a) :
    Guarded P x := by
  cases hresult : x with
  | ok a => exact Or.inr ⟨a, rfl, h a hresult⟩
  | error failure =>
    obtain ⟨d, rfl, hd⟩ := hx.exists_problem hresult
    exact Or.inl ⟨d, rfl, hd⟩

/-- An operation that fails on divisions only is guarded by what its results have. -/
theorem of_divisions (hx : Fails False Diagnostic.IsDivision x) (h : ∀ a, x = .ok a → P a) :
    Guarded P x :=
  of_fails (hx.imp fun _ hd => hd.isArithmetic) h

/-- A guarded operation that is followed by a guarded one is guarded. -/
theorem of_bind {f : α → Outcome β} (hx : Guarded P x) (hf : ∀ a, P a → Guarded Q (f a)) :
    Guarded Q (x >>= f) := by
  rcases hx with ⟨d, rfl, hd⟩ | ⟨a, rfl, ha⟩
  · exact Or.inl ⟨d, rfl, hd⟩
  · exact hf a ha

/-- A result that is there is guarded by what it has. -/
theorem of_pure {a : α} (ha : P a) : Guarded P (pure a : Outcome α) := Or.inr (.of_pure ha)

end Guarded

end Guarded

namespace Term

variable {t u left right : Term} {o : Operator} {σ : Substitution}

/-- The divisors in a term, those inside of other divisors too. -/
def divisors : Term → List Term
  | op o left right =>
    left.divisors ++ right.divisors ++ if o = .div then [right] else []
  | _ => []

/-- Every divisor in a term denotes a rational function that is not zero: somewhere it has a value
other than zero. -/
def Sound (t : Term) : Prop := ∀ d ∈ t.divisors, ∃ ρ x, d.valueAt ρ = some x ∧ x ≠ 0

/-- A term does not vanish if it has a value other than zero somewhere. -/
theorem not_vanishes_iff : ¬ t.Vanishes ↔ ∃ ρ x, t.valueAt ρ = some x ∧ x ≠ 0 := by
  simp [Vanishes]

/-- The divisors of an operation are those of its operands and, in a quotient, the right operand. -/
theorem sound_op_iff :
    (op o left right).Sound ↔ left.Sound ∧ right.Sound ∧ (o = .div → ¬ right.Vanishes) := by
  by_cases ho : o = .div
  · simp only [Sound, divisors, ho, if_pos, List.forall_mem_append, List.forall_mem_singleton,
      not_vanishes_iff, forall_const, and_assoc]
  · simp only [Sound, divisors, ho, if_false, List.append_nil, List.forall_mem_append,
      false_implies, and_true]

/-- A term is sound exactly if it has a normal form. -/
theorem sound_iff_lowers : t.Sound ↔ t.Lowers := by
  induction t with
  | op o left right ihl ihr => rw [sound_op_iff, lowers_op_iff, ihl, ihr]
  | const n => exact iff_of_true (by simp [Sound, divisors]) ⟨_, rfl⟩
  | sym name => exact iff_of_true (by simp [Sound, divisors]) ⟨_, rfl⟩
  | hole p => exact iff_of_true (by simp [Sound, divisors]) ⟨_, rfl⟩

/-- A quotient of a sound divisor is refused exactly if the divisor is zero everywhere. -/
theorem raisesArithmetic_divide_iff (hr : right.Sound) :
    RaisesArithmetic (left.divide right) ↔ right.Vanishes := by
  constructor
  · rintro ⟨d, hd, -⟩
    by_contra hvanish
    have hok : left.divide right = .ok (op .div left right) :=
      divide_eq_ok_iff.mpr ⟨sound_iff_lowers.mp hr, hvanish, rfl⟩
    rw [hok] at hd
    cases hd
  · intro hvanish
    have hguarded : Guarded (fun _ => False) (left.divide right) :=
      .of_divisions fails_divide fun u hu => (divide_eq_ok_iff.mp hu).2.1 hvanish
    exact hguarded.resolve_right fun ⟨_, _, hfalse⟩ => hfalse

/-- Operators keep soundness where they check the divisor. -/
theorem arithmetic_sound : Arithmetic Sound where
  const _ := sound_iff_lowers.mpr ⟨_, rfl⟩
  apply _ _ _ _ hl hr h :=
    sound_iff_lowers.mpr ((sound_iff_lowers.mp hl).apply (sound_iff_lowers.mp hr) h)

/-- An operator on sound terms is guarded. -/
theorem guarded_apply (hl : left.Sound) (hr : right.Sound) :
    Guarded Sound (apply o left right) :=
  .of_divisions fails_apply fun t ht => arithmetic_sound.apply o left right t hl hr ht

/-- A substitution of sound terms in a sound term is guarded. -/
theorem guarded_substitute (ht : t.Sound)
    (hσ : ∀ name r, σ name = some r → ∃ u, r = .ok u ∧ u.Sound) :
    Guarded Sound (t.substitute σ) := by
  have hterms (name : String) (r : Outcome Term) (hr : σ name = some r) : ∃ u, r = .ok u :=
    (hσ name r hr).imp fun _ hu => hu.1
  have hlowers : σ.Lowers := by
    intro name u hu
    obtain ⟨v, hv, hsound⟩ := hσ name _ hu
    exact sound_iff_lowers.mp (Except.ok.inj hv ▸ hsound)
  exact .of_divisions (fails_substitute hterms) fun u hu =>
    sound_iff_lowers.mpr ((sound_iff_lowers.mp ht).substitute hlowers hu)

end Term

open Term

/-- Expanding the references between sound values is guarded. -/
theorem guarded_resolveBindings {values : Dictionary Value}
    (hvalues : ∀ name v, values.get? name = some v → v.TermsSatisfy Sound) :
    Guarded (fun bindings => ∀ name t, bindings.get? name = some t → t.Sound)
      (resolveBindings values) := by
  refine .of_divisions fails_resolveBindings fun bindings hbindings name t ht => ?_
  have hlowers := lowers_resolveBindings (fun name v t hv ht =>
    sound_iff_lowers.mp (hvalues name v hv t ht)) hbindings
  exact sound_iff_lowers.mpr (Substitution.lowers_ofTerms_iff.mp hlowers name t ht)

/-- The product of sound extents is sound. -/
theorem Shape.TermsSatisfy.product {s : Shape} (hs : s.TermsSatisfy Sound) :
    s.product.TermsSatisfy Sound := by
  have hfold (rest : List Term) (first : Term) (hfirst : first.Sound)
      (hrest : ∀ t ∈ rest, t.Sound) : (rest.foldl (op .mul) first).Sound := by
    induction rest generalizing first with
    | nil => exact hfirst
    | cons second rest ih =>
      obtain ⟨hsecond, hrest⟩ := List.forall_mem_cons.mp hrest
      exact ih _ (sound_op_iff.mpr ⟨hfirst, hsecond, nofun⟩) hrest
  rw [Shape.product]
  split
  · exact List.forall_mem_singleton.mpr (arithmetic_sound.const 1)
  · rename_i first rest haxes
    have hall : ∀ t ∈ first :: rest, t.Sound := haxes ▸ hs
    obtain ⟨hfirst, hrest⟩ := List.forall_mem_cons.mp hall
    exact List.forall_mem_singleton.mpr (hfold rest first hfirst hrest)

namespace Expr

/-- An expression of arithmetic: names, integers and dimension terms under the four operators and
under signs. -/
def Arithmetic : Expr → Prop
  | literal value => value.isDimension = true
  | identifier _ => True
  | binary operator left right =>
    (Operator.ofSymbol? operator).isSome ∧ left.Arithmetic ∧ right.Arithmetic
  | unary operator operand => (operator = "+" ∨ operator = "-") ∧ operand.Arithmetic
  | importLine _ => False
  | located _ expr => expr.Arithmetic

end Expr

section Expressions

variable {node : Option Int} {expr : Expr} {value : Value} {description : String} {t : Term}

/-- A value is a dimension, and a sound term. -/
def Value.IsSound (v : Value) : Prop := ∃ t, v.toTerm? = some t ∧ t.Sound

/-- The opposite of a sound dimension is one. -/
theorem guarded_negateValue (h : value.IsSound) :
    Guarded Value.IsSound (negateValue value description node) := by
  obtain ⟨t, ht, hsound⟩ := h
  unfold negateValue
  split
  · exact .of_pure ⟨_, rfl, arithmetic_sound.const _⟩
  · cases ht
  · have hterm : requireDimension value description node = .ok t :=
      requireDimension_eq_ok_iff.mpr ht
    rw [hterm]
    exact .of_pure ⟨_, rfl, arithmetic_sound.negate hsound⟩

/-- An expression of arithmetic over sound literals is guarded: it stands for a sound dimension, or
a divisor in it is zero. -/
theorem guarded_lowerExpr (hexpr : expr.Arithmetic) (hleaves : expr.LeavesSatisfy Sound) :
    Guarded Value.IsSound (lowerExpr node expr) := by
  have hrequire {value : Value} {description : String} (h : value.IsSound) :
      Guarded Sound (requireDimension value description node) := by
    obtain ⟨t, ht, hsound⟩ := h
    exact Or.inr ⟨t, requireDimension_eq_ok_iff.mpr ht, hsound⟩
  induction expr with
  | literal value =>
    obtain ⟨t, ht⟩ := Option.isSome_iff_exists.mp hexpr
    exact .of_pure ⟨t, ht, hleaves t ht⟩
  | identifier name => exact .of_pure ⟨_, rfl, hleaves⟩
  | located _ expr ih => exact ih hexpr hleaves
  | importLine name => cases hexpr
  | unary operator operand ih =>
    refine Guarded.of_bind (ih hexpr.2 hleaves) fun value hvalue => ?_
    rcases hexpr.1 with rfl | rfl
    · exact .of_pure hvalue
    · exact guarded_negateValue hvalue
  | binary operator left right ihl ihr =>
    obtain ⟨hoperator, hleft, hright⟩ := hexpr
    obtain ⟨o, ho⟩ := Option.isSome_iff_exists.mp hoperator
    refine Guarded.of_bind (ihl hleft hleaves.1) fun l hl => (hrequire hl).of_bind fun a ha => ?_
    refine Guarded.of_bind (ihr hright hleaves.2) fun r hr => (hrequire hr).of_bind fun b hb => ?_
    rw [ho]
    have hfails : Fails False Diagnostic.IsArithmetic
        ((Term.apply o a b).mapError (Failure.mapProblem (attachNode node))) :=
      fails_apply.mapProblem fun d hd => hd.isArithmetic.attachNode
    have hresult : Guarded Sound
        ((Term.apply o a b).mapError (Failure.mapProblem (attachNode node))) :=
      .of_fails hfails fun t ht => arithmetic_sound.apply o a b t ha hb (mapError_eq_ok_iff.mp ht)
    exact hresult.of_bind fun t ht => .of_pure ⟨t, rfl, ht⟩

/-- An expression without a value has a zero divisor or a part of the wrong type. -/
theorem fails_lowerExpr_type : Fails False
    (fun d => d.IsArithmetic ∨ d.code = .valueType) (lowerExpr node expr) := by
  have hrequire {value : Value} {description : String} :
      Fails False (fun d => d.IsArithmetic ∨ d.code = .valueType)
        (requireDimension value description node) := by
    unfold requireDimension
    split
    · exact .of_pure _
    · exact .of_problem (Or.inr rfl)
  induction expr with
  | literal value => exact .of_pure value
  | identifier name => exact .of_pure _
  | located _ expr ih => exact ih
  | importLine name => exact .of_problem (Or.inr rfl)
  | unary operator operand ih =>
    refine Fails.of_bind ih fun value _ => .of_ite (fun _ => .of_pure value) fun _ => ?_
    refine .of_ite (fun _ => ?_) fun _ => .of_problem (Or.inr rfl)
    unfold negateValue
    split
    · exact .of_pure _
    · exact .of_pure _
    · exact hrequire.of_bind fun _ _ => .of_pure _
  | binary operator left right ihl ihr =>
    refine Fails.of_bind ihl fun _ _ => hrequire.of_bind fun l _ =>
      Fails.of_bind ihr fun _ _ => hrequire.of_bind fun r _ => ?_
    split
    · refine Fails.of_bind ?_ fun _ _ => .of_pure _
      exact fails_apply.mapProblem fun d hd => Or.inl hd.isArithmetic.attachNode
    · exact .of_problem (Or.inr rfl)

end Expressions

/-- **A zero divisor is refused where it is made, and none gets in later.** A quotient of sound terms
is refused exactly if the divisor is the zero function. The operators, negation, substitution,
bindings that refer to each other and expressions of arithmetic raise an arithmetic diagnostic or
yield sound terms; expressions of any kind never yield others, and fail otherwise only on a part of
the wrong type. Products and simplified terms are sound. Fractions, normal forms, comparisons and
the test for constants are defined on all sound terms. -/
theorem zero_divisors_refused :
    (∀ a b : Term, a.Sound → b.Sound → (RaisesArithmetic (a.divide b) ↔ b.Vanishes)) ∧
    (∀ (o : Operator) (a b : Term), a.Sound → b.Sound → Guarded Sound (Term.apply o a b)) ∧
    (∀ a : Term, a.Sound → a.negate.Sound) ∧
    (∀ (node : Option Int) (expr : Expr), expr.LeavesSatisfy Sound →
      (expr.Arithmetic → Guarded Value.IsSound (lowerExpr node expr)) ∧
      (∀ v, lowerExpr node expr = .ok v → v.TermsSatisfy Sound) ∧
      ∀ failure, lowerExpr node expr = .error failure →
        ∃ d, failure = .problem d ∧ (d.IsArithmetic ∨ d.code = .valueType)) ∧
    (∀ (t : Term) (σ : Substitution), t.Sound →
      (∀ name r, σ name = some r → ∃ u, r = .ok u ∧ u.Sound) → Guarded Sound (t.substitute σ)) ∧
    (∀ values : Dictionary Value,
      (∀ name v, values.get? name = some v → v.TermsSatisfy Sound) →
      Guarded (fun bindings => ∀ name t, bindings.get? name = some t → t.Sound)
        (resolveBindings values)) ∧
    (∀ s : Shape, s.TermsSatisfy Sound → s.product.TermsSatisfy Sound) ∧
    (∀ t : Term, t.Sound →
      Returns Sound t.simplify ∧
      (∀ names : List String, (∀ name ∈ t.symbols, name ∈ names) →
        ∃ f, t.fraction names = .ok f) ∧
      (∃ f, t.normalForm = .ok f) ∧
      ∃ constant, t.isConcrete = .ok constant) ∧
    (∀ a b : Term, a.Sound → b.Sound → ∃ equal, a.equivalent b = .ok equal) := by
  refine ⟨fun _ _ _ hb => raisesArithmetic_divide_iff hb, fun _ _ _ => guarded_apply,
    fun _ => arithmetic_sound.negate, fun node expr hleaves => ⟨fun hexpr =>
      guarded_lowerExpr hexpr hleaves, fun _ => termsSatisfy_lowerExpr arithmetic_sound hleaves,
      fun _ => fails_lowerExpr_type.exists_problem⟩, fun _ _ => guarded_substitute,
    fun _ => guarded_resolveBindings, fun _ => .product, fun t ht => ?_, fun a b ha hb => ?_⟩
  · have hlow : t.Lowers := sound_iff_lowers.mp ht
    obtain ⟨u, hu, hulow⟩ := hlow.simplify
    have hconcrete : ∃ constant, t.isConcrete = .ok constant := by
      obtain ⟨f, hf⟩ := hlow
      exact ⟨_, bind_eq_ok_iff.mpr ⟨f, hf, rfl⟩⟩
    exact ⟨⟨u, hu, sound_iff_lowers.mpr hulow⟩, fun names => hlow.exists_fraction, hlow, hconcrete⟩
  · exact (equivalent_iff_equal_values (sound_iff_lowers.mp ha) (sound_iff_lowers.mp hb)).1

/-- A divisor such as `W - V` is harmless until `W` becomes `V`. -/
theorem vanishing_divisors_refused :
    let zero := op .sub (sym "W") (sym "W")
    let t := op .div (sym "H") (op .sub (sym "W") (sym "V"))
    let σ := Substitution.ofTerms (.ofList [("W", sym "V")])
    zero.Sound ∧ RaisesArithmetic (divide (sym "H") zero) ∧
      t.Sound ∧ (∀ name r, σ name = some r → ∃ u, r = .ok u ∧ u.Sound) ∧
      RaisesArithmetic (t.substitute σ) := by
  intro zero t σ
  have hzero : zero.Sound := by simp [zero, Sound, divisors]
  have hvanish : zero.Vanishes := by
    intro ρ x hx
    obtain ⟨y, z, hy, hz, hop⟩ := valueAt_op_eq_some_iff.mp hx
    obtain rfl := Option.some.inj (hy.symm.trans hz)
    rw [← Option.some.inj hop, sub_self]
  have hvalue : (op .sub (sym "W") (sym "V")).valueAt
      (.total fun name => if name = "W" then 1 else 0) = some 1 := by
    simp [valueAt, Operator.onNumbers, Instantiation.total]
  have ht : t.Sound :=
    sound_op_iff.mpr ⟨by simp [Sound, divisors], by simp [Sound, divisors],
      fun _ => not_vanishes_iff.mpr ⟨_, 1, hvalue, one_ne_zero⟩⟩
  have hσ (name : String) (r : Outcome Term) (hr : σ name = some r) :
      ∃ u, r = .ok u ∧ u.Sound := by
    obtain ⟨u, hu, rfl⟩ := Substitution.ofTerms_eq_some_iff.mp hr
    obtain ⟨-, rfl⟩ := Prod.mk.inj (List.mem_singleton.mp (Dictionary.mem_of_get?_ofList hu))
    exact ⟨_, rfl, by simp [Sound, divisors]⟩
  obtain ⟨hdivide, -, -, -, hsubstitute, -⟩ := zero_divisors_refused
  refine ⟨hzero, (hdivide (sym "H") zero (by simp [Sound, divisors]) hzero).mpr hvanish, ht, hσ, ?_⟩
  refine (hsubstitute t σ ht hσ).resolve_right ?_
  rintro ⟨u, hu, -⟩
  have hnone : (t.substitute σ).toOption = none := by decide +kernel
  rw [hu] at hnone
  cases hnone

end Shapeline
