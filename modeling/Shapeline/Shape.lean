import Shapeline.Value

/-!
# Shapes

The shape of a tensor is the list of the extents of its axes, each a dimension term. Shapes are
compared axis by axis as rational functions, after the values that are known for symbols have been
substituted on both sides.
-/

namespace Shapeline

/-- The extents of the axes of a tensor. -/
structure Shape where
  /-- The extents in order. -/
  axes : List Term
  deriving DecidableEq

namespace Shape

/-- The number of axes. -/
def rank (s : Shape) : Nat := s.axes.length

/-- A shape as it is written. -/
def text (s : Shape) : String := ", ".intercalate (s.axes.map Term.text)

/-- Whether a shape can be written where the length of numbers is limited. -/
def isWritable (s : Shape) : Bool := s.axes.all Term.isWritable

/-- A shape with the name of its kind, for inspection. -/
def inspect (s : Shape) : String := "Shape(" ++ s.text ++ ")"

/-- The names of the symbols of a shape. -/
def symbols (s : Shape) : List String :=
  s.axes.foldr (fun axis names => Names.union axis.symbols names) []

/-- The placeholders of a shape from left to right, with repetitions. -/
def placeholders (s : Shape) : List Placeholder := s.axes.flatMap Term.placeholders

/-- Replace the symbols of a shape. -/
def substitute (σ : Substitution) (s : Shape) : Outcome Shape := do
  return ⟨← s.axes.mapM (Term.substitute σ)⟩

/-- Simplify every axis. -/
def simplify (s : Shape) : Outcome Shape := do return ⟨← s.axes.mapM Term.simplify⟩

/-- The shape with one axis, whose extent is the product of all. -/
def product (s : Shape) : Shape :=
  match s.axes with
  | [] => ⟨[.const 1]⟩
  | first :: rest => ⟨[rest.foldl (Term.op .mul) first]⟩

/-- Whether every axis is constant. -/
def isConcrete (s : Shape) : Outcome Bool := s.axes.allM Term.isConcrete

/-- The exact extents of a shape whose symbols are all replaced by constants. -/
def evaluate (σ : Substitution) (s : Shape) : Outcome (List Rat) := s.axes.mapM (Term.evaluate σ)

/-- The positions, counted from the given one, at which two lists of extents differ after a
substitution. Extents without a partner are not compared. -/
def mismatchesFrom (σ : Substitution) : Nat → List Term → List Term → Outcome (List Nat)
  | position, a :: as, b :: bs => do
    let same ← Term.equivalent (← a.substitute σ) (← b.substitute σ)
    let rest ← mismatchesFrom σ (position + 1) as bs
    pure (if same then rest else position :: rest)
  | _, _, _ => pure []

/-- The positions of the axes at which two shapes differ after a substitution. -/
def mismatches (σ : Substitution) (a b : Shape) : Outcome (List Nat) :=
  mismatchesFrom σ 0 a.axes b.axes

/-- Whether two shapes have the same number of axes and agree on each after a substitution. -/
def equivalent (σ : Substitution) (a b : Shape) : Outcome Bool :=
  if a.rank = b.rank then do return (← mismatches σ a b).isEmpty else pure false

/-- Note what an axis stands for if it is to be the declared one, unless its placeholder stands for
another axis already. -/
def unifyAxis (bindings : Dictionary Term) : Term × Term → Dictionary Term
  | (.hole p, want) => bindings.insertNew p.name want
  | _ => bindings

/-- What the axes that are placeholders stand for if a shape is to be the declared one. A
placeholder that occurs several times stands for the first declared axis; shapes with different
numbers of axes say nothing. -/
def unify (inferred declared : Shape) : Dictionary Term :=
  if inferred.rank = declared.rank then
    (inferred.axes.zip declared.axes).foldl unifyAxis .empty
  else .empty

end Shape

namespace Term

/-- A term without its structure: an integer as it is, everything else as text. -/
def plain : Term → Value
  | const n => .int n
  | t => .text t.text

end Term

/-- The axes of a shape without their structure. -/
def Shape.plain (s : Shape) : List Value := s.axes.map Term.plain

/-- A value with its terms written out. -/
def Value.plain : Value → Value
  | .dim term => term.plain
  | value => value

end Shapeline
