import Shapeline.Registry

/-!
# The standard library

The layer types and groups that a model may import unless it is compiled with a registry of its own.
-/

namespace Shapeline.Standard

/-- A convolution with the given number of spatial axes. -/
def convolution (name : String) (spatialRank : Nat) : LayerType where
  name := name
  parameters := [
    { name := inputChannels, shortName := some "Ci", kind := .dim,
      description := "channels of the incoming tensor" },
    { name := outputChannels, shortName := some "Co", kind := .dim,
      description := "channels produced; taken from the declared shape when unset" },
    { name := kernelSize, default := .int 3, shortName := some "K", kind := .uint },
    { name := stride, default := .int 1, shortName := some "S", kind := .uint },
    { name := "bias", default := .bool true, kind := .bool }]
  rule := ⟨.convolution, spatialRank⟩
  description := s!"{spatialRank}-d convolution"

/-- A pooling with the given number of spatial axes. -/
def pooling (name : String) (spatialRank : Nat) : LayerType where
  name := name
  parameters := [
    { name := kernelSize, default := .int 2, shortName := some "K", kind := .uint },
    { name := stride, default := .int 2, shortName := some "S", kind := .uint }]
  rule := ⟨.pooling, spatialRank⟩
  description := s!"{spatialRank}-d pooling"

/-- A layer that treats every element for itself. -/
def pointwise (name : String) (parameters : List ParameterSpec) : LayerType where
  name := name
  parameters := parameters
  rule := ⟨.pointwise, 0⟩
  description := "elementwise"

/-- A layer that normalizes along one axis. -/
def softmax (name : String) : LayerType where
  name := name
  parameters := [
    { name := axisParameter, default := .int (-1), shortName := some "dim", kind := .int }]
  rule := ⟨.softmax, 0⟩
  axisParameters := [axisParameter]
  description := "normalization over one axis"

/-- A layer that connects every feature of its input to every one of its output. -/
def dense (name : String) : LayerType where
  name := name
  parameters := [
    { name := inputFeatures, shortName := some "Ci", kind := .dim },
    { name := outputFeatures, shortName := some "Co", kind := .dim },
    { name := "bias", default := .bool true, kind := .bool }]
  rule := ⟨.dense, 0⟩
  description := "fully connected"

/-- A layer that lays out all axes along one. -/
def flatten (name : String) : LayerType where
  name := name
  rule := ⟨.flatten, 0⟩
  description := "flatten every axis into one"

/-- A parameter whose default is a floating-point number, given as a decimal. -/
def realParameter (name short : String) (digits : Nat) (exponent : Int) : ParameterSpec where
  name := name
  default := .real (.ofDecimal false digits exponent)
  shortName := some short
  kind := .real

/-- The layer types of the standard library. -/
def layers : List LayerType := [
  convolution "Conv1d" 1,
  convolution "Conv2d" 2,
  convolution "Conv3d" 3,
  pooling "MaxPool2d" 2,
  pooling "AvgPool2d" 2,
  dense "Linear",
  flatten "Transform",
  pointwise "ReLU" [],
  pointwise "Sigmoid" [],
  pointwise "Tanh" [],
  pointwise "GELU" [],
  pointwise "LeakyReLU" [realParameter "negative slope" "alpha" 1 (-2)],
  pointwise "Dropout" [realParameter "probability" "p" 5 (-1)],
  softmax "Softmax",
  softmax "LogSoftmax"]

/-- The groups of the standard library. -/
def groups : List (String × List String) := [
  ("Activations", ["ReLU", "Sigmoid", "Tanh", "GELU", "LeakyReLU", "Softmax", "LogSoftmax"]),
  ("Convolutions", ["Conv1d", "Conv2d", "Conv3d"]),
  ("Pooling", ["MaxPool2d", "AvgPool2d"]),
  ("Flatten", ["Transform"])]

/-- Register the standard library. -/
def install (r : Registry) : Outcome Registry := do
  let r ← layers.foldlM Registry.registerLayer r
  groups.foldlM (fun r (name, members) => r.registerGroup name members) r

/-- The registry that holds the standard library and is frozen. -/
def registry : Registry where
  layers := .ofList (layers.map fun layer => (layer.name, layer))
  groups := .ofList groups
  frozen := true

end Shapeline.Standard
