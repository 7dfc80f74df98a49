import Shapeline.Term.Substitution

/-!
# Simplification and evaluation

Simplifying folds the constant parts of a term and drops neutral operands; everything else stays as
written. Evaluating replaces every symbol and yields the exact number.
-/

namespace Shapeline.Term

/-- The operator applied to two integers, if the result is an integer. Division by zero has no
result. -/
def foldConstants (o : Operator) (a b : Int) : Outcome (Option Int) :=
  match o with
  | .add => pure (some (a + b))
  | .sub => pure (some (a - b))
  | .mul => pure (some (a * b))
  | .div =>
    if b = 0 then throw (.problem (.divisionByZero ((const a).text ++ " / " ++ (const b).text)))
    else pure (if a % b = 0 then some (a / b) else none)

/-- The operator applied to two simplified terms, without neutral operands. -/
def combine (o : Operator) (left right : Term) : Outcome Term :=
  match left.const?, right.const? with
  | some a, some b => do
    match ← foldConstants o a b with
    | some value => pure (const value)
    | none => pure (op o left right)
  | l, r =>
    match o with
    | .add =>
      if l = some 0 then pure right
      else if r = some 0 then pure left
      else pure (op .add left right)
    | .sub => if r = some 0 then pure left else pure (op .sub left right)
    | .mul =>
      if l = some 0 ∨ r = some 0 then pure (const 0)
      else if l = some 1 then pure right
      else if r = some 1 then pure left
      else pure (op .mul left right)
    | .div => if r = some 1 then pure left else divide left right

/-- Fold the constant parts of a term and drop neutral operands. -/
def simplify : Term → Outcome Term
  | op o left right => do
    let l ← left.simplify
    let r ← right.simplify
    combine o l r
  | t => pure t

/-- The exact value of a term whose symbols are all replaced by constants. Of the symbols that are
not replaced the least is reported. -/
def evaluate (σ : Substitution) (t : Term) : Outcome Rat := do
  match t.symbols.filter fun name => (σ name).isNone with
  | missing :: _ => throw (.problem (.undeclaredSymbol missing none))
  | [] => (← t.substitute σ).concreteValue

end Shapeline.Term
