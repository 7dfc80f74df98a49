import Shapeline.Parameters

/-!
# Shape rules

A layer type carries a rule that takes the shape of its input to the shape of its output. The
families of rules are fixed:

* a convolution replaces the first axis by the output channels and divides the others by the stride;
* a pooling keeps the first axis and divides the others by the stride;
* a dense rule maps one axis to the output features;
* a pointwise rule keeps the shape;
* a flattening rule multiplies all axes into one;
* a softmax keeps the shape and makes its axis parameter count from the front.

Besides the shape a rule yields the parameters it derived: the input channels that it found, a
placeholder for output channels that nobody has set, the axis it made out. Known values of symbols
take part in the checks only.
-/

namespace Shapeline

/-- The families of shape rules. -/
inductive RuleFamily
  | convolution
  | pooling
  | dense
  | pointwise
  | flatten
  | softmax
  deriving DecidableEq

namespace RuleFamily

/-- The name of a family. -/
def name : RuleFamily → String
  | convolution => "convolution"
  | pooling => "pooling"
  | dense => "dense"
  | pointwise => "pointwise"
  | flatten => "flatten"
  | softmax => "softmax"

/-- The family with a certain name. -/
def ofName? (name : String) : Option RuleFamily :=
  [convolution, pooling, dense, pointwise, flatten, softmax].find? (·.name = name)

end RuleFamily

/-- The parameter for the channels of a convolution's input. -/
def inputChannels : String := "input channels"

/-- The parameter for the channels of a convolution's output. -/
def outputChannels : String := "output channels"

/-- The parameter for the features of a dense layer's input. -/
def inputFeatures : String := "input features"

/-- The parameter for the features of a dense layer's output. -/
def outputFeatures : String := "output features"

/-- The parameter for the extent of a kernel. -/
def kernelSize : String := "kernel size"

/-- The parameter for the distance between two places of a kernel. -/
def stride : String := "stride"

/-- The parameter for the axis of a softmax. -/
def axisParameter : String := "axis"

/-- A shape rule. The number of spatial axes counts for convolutions and poolings only. -/
structure Rule where
  /-- The family. -/
  family : RuleFamily
  /-- The number of axes that the stride divides. -/
  spatialRank : Int := 0
  deriving DecidableEq

/-- What a rule yields. -/
structure RuleOutcome where
  /-- The shape of the output. -/
  shape : Shape
  /-- The parameters that the rule derived. -/
  derived : Parameters

/-- The input channels or features: taken from the input if nobody has set them, otherwise compared
with it. -/
def checkInput (layer : String) (params : Parameters) (name : String) (actual : Term)
    (σ : Substitution) : Outcome Parameters :=
  match params.given? name with
  | none => pure (Dictionary.empty.insert name (.dim actual))
  | some expected => do
    let expected ← expected.toTerm
    if ← Term.equivalent (← expected.substitute σ) (← actual.substitute σ) then
      pure .empty
    else
      throw (.problem
        (.mismatch expected.text actual.text (some 0) none (some layer) s!"'{name}'"))

/-- The output channels or features, with a placeholder added to the derived parameters if nobody
has set them. -/
def resolveOutput (params : Parameters) (name : String) (mint : String → Placeholder)
    (derived : Parameters) : Outcome (Term × Parameters) :=
  match params.given? name with
  | none => pure (.hole (mint name), derived.insert name (.dim (.hole (mint name))))
  | some value => do pure (← value.toTerm, derived)

/-- The stride, which is one unless set and must not be zero. -/
def checkStride (layer : String) (params : Parameters) (σ : Substitution) : Outcome Term := do
  match ← params.dimension stride (.int 1) with
  | none => throw (.notADimension Value.absent.kind)
  | some step =>
    let bound ← step.substitute σ
    if ← bound.isConcrete then
      if (← bound.concreteValue) = 0 then
        throw (.problem { cause := .arithmetic "stride must not be zero", layer := some layer })
    pure step

/-- A kernel must not be larger than the extent it is applied to, as far as both are known. -/
def checkKernel (layer : String) (position : Nat) (extent kernel : Term) (σ : Substitution) :
    Outcome Unit := do
  let boundExtent ← extent.substitute σ
  let boundKernel ← kernel.substitute σ
  if ← boundExtent.isConcrete then
    if ← boundKernel.isConcrete then
      if (← boundExtent.concreteValue) < (← boundKernel.concreteValue) then
        throw (.problem (.kernelExtent layer position extent.text kernel.text none))

/-- Check a kernel against extents whose positions start at the given one. -/
def checkKernels (layer : String) (kernel : Term) (σ : Substitution) :
    Nat → List Term → Outcome Unit
  | _, [] => pure ()
  | position, extent :: rest => do
    checkKernel layer position extent kernel σ
    checkKernels layer kernel σ (position + 1) rest

/-- The shape with the given channels and every other axis divided by the stride. -/
def downsample (layer : String) (spatial : List Term) (params : Parameters) (channels : Term)
    (σ : Substitution) : Outcome Shape := do
  let step ← checkStride layer params σ
  match ← params.dimension kernelSize .absent with
  | none => pure ()
  | some kernel => checkKernels layer kernel σ 1 spatial
  return ⟨channels :: (← spatial.mapM (·.divide step))⟩

/-- The first axis of a shape and the others. -/
def splitFirst (shape : Shape) : Outcome (Term × List Term) :=
  match shape.axes with
  | [] => throw .outOfRange
  | first :: rest => pure (first, rest)

/-- The axis that a value selects from a shape of the given rank, counted from the front. A negative
value counts from the end, and a constant term counts as its integer. There is none if the value is
out of range or no integer. -/
def resolveAxis (value : Value) (rank : Int) : Outcome (Option Int) := do
  let selected : Option Int ←
    match value with
    | .int n => pure (some n)
    | .dim term =>
      if ← term.isConcrete then
        let number ← term.concreteValue
        pure (if number.den = 1 then some number.num else none)
      else pure none
    | _ => pure none
  match selected with
  | none => pure none
  | some n =>
    let position := if n < 0 then n + rank else n
    pure (if 0 ≤ position ∧ position < rank then some position else none)

namespace Rule

/-- The rule that a family's name and a spatial rank describe. -/
def ofName (name : String) (spatialRank : Int) : Outcome Rule :=
  match RuleFamily.ofName? name with
  | some family => pure ⟨family, spatialRank⟩
  | none => throw (.unknownRule name)

/-- The numbers of axes that a rule accepts, in words. -/
def expectedRank (r : Rule) : String :=
  match r.family with
  | .convolution | .pooling => toString (r.spatialRank + 1)
  | .dense => "1"
  | .flatten | .softmax => "at least 1"
  | .pointwise => "any number of"

/-- Whether a rule accepts a number of axes. -/
def acceptsRank (r : Rule) (rank : Nat) : Bool :=
  match r.family with
  | .convolution | .pooling => decide ((rank : Int) = r.spatialRank + 1)
  | .dense => decide (rank = 1)
  | .flatten | .softmax => decide (1 ≤ rank)
  | .pointwise => true

/-- The outcome of a rule on a shape with an accepted number of axes, not yet simplified. -/
def transform (r : Rule) (layer : String) (shape : Shape) (params : Parameters)
    (mint : String → Placeholder) (σ : Substitution) : Outcome RuleOutcome :=
  match r.family with
  | .convolution => do
    let (first, spatial) ← splitFirst shape
    let derived ← checkInput layer params inputChannels first σ
    let (channels, derived) ← resolveOutput params outputChannels mint derived
    return ⟨← downsample layer spatial params channels σ, derived⟩
  | .pooling => do
    let (first, spatial) ← splitFirst shape
    return ⟨← downsample layer spatial params first σ, .empty⟩
  | .dense => do
    let (first, _) ← splitFirst shape
    let derived ← checkInput layer params inputFeatures first σ
    let (features, derived) ← resolveOutput params outputFeatures mint derived
    return ⟨⟨[features]⟩, derived⟩
  | .pointwise => pure ⟨shape, .empty⟩
  | .flatten => pure ⟨shape.product, .empty⟩
  | .softmax => do
    match ← resolveAxis ((params.get? axisParameter).getD (.int (-1))) shape.rank with
    | some position => pure ⟨shape, Dictionary.empty.insert axisParameter (.int position)⟩
    | none => pure ⟨shape, .empty⟩

/-- Apply a rule: check the number of axes, transform the shape and simplify it. -/
def apply (r : Rule) (layer : String) (shape : Shape) (params : Parameters)
    (mint : String → Placeholder) (σ : Substitution) : Outcome RuleOutcome := do
  if r.acceptsRank shape.rank then
    let outcome ← r.transform layer shape params mint σ
    return { outcome with shape := ← outcome.shape.simplify }
  else throw (.problem (.arity (some layer) r.expectedRank shape.rank none))

end Rule

end Shapeline
