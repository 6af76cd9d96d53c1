import LayerGraph.Geometry.Window

/-!
# Kinds of layers

A layer of a network is described by its kind: what it computes, with the parameters that this
needs. `Kind` has one constructor for each of the thirteen kinds, and `KindTag` names them without
their parameters.

The layout of a layer's output follows from its kind and from the layouts of what it reads
(`Kind.outputFormat`, `Kind.outputShape`). A kind that fixes no format takes the one of its first
input. A kind whose shape depends on its inputs has none when there is no first input.
-/

namespace LayerGraph

/-- A function that is applied to every element. -/
inductive Activation where
  | relu
  | sigmoid
  | tanh
  | abs
  | linear
deriving DecidableEq

namespace Activation

def all : List Activation := [relu, sigmoid, tanh, abs, linear]

def name : Activation → String
  | relu => "relu"
  | sigmoid => "sigmoid"
  | tanh => "tanh"
  | abs => "abs"
  | linear => "linear"

def ofName? (name : String) : Option Activation :=
  all.find? fun activation => activation.name == name

end Activation

/-- How an element-wise layer joins its inputs. -/
inductive EltwiseMode where
  | sum
  | sub
  | prod
  | max
deriving DecidableEq

namespace EltwiseMode

def all : List EltwiseMode := [sum, sub, prod, max]

def name : EltwiseMode → String
  | sum => "sum"
  | sub => "sub"
  | prod => "prod"
  | max => "max"

def ofName? (name : String) : Option EltwiseMode :=
  all.find? fun mode => mode.name == name

end EltwiseMode

/-- How a pooling layer joins the elements of a window. -/
inductive PoolingMode where
  | max
  | average
deriving DecidableEq

namespace PoolingMode

def all : List PoolingMode := [max, average]

def name : PoolingMode → String
  | max => "max"
  | average => "average"

def ofName? (name : String) : Option PoolingMode :=
  all.find? fun mode => mode.name == name

end PoolingMode

/-- A named part of a tensor that is split along the feature axis. -/
structure SplitPart where
  name : String
  featureOffset : UInt32
deriving DecidableEq

/-- What a layer computes. -/
inductive Kind where
  | inputLayout (layout : Layout)
  | data (layout : Layout)
  /-- A convolution; it reads its data first, then weights and bias. -/
  | convolution (outputFeatures : UInt32) (window : Window)
      (outputSize : Option (Spatial UInt32))
  | pooling (mode : PoolingMode) (window : Window) (outputSize : Option (Spatial UInt32))
  | activation (function : Activation)
  | eltwise (mode : EltwiseMode)
  | fullyConnected (outputFeatures : UInt32)
  | softmax
  | reorder (format : Format)
  | reshape (shape : Shape)
  | concatenation
  /-- A division along the feature axis; readers name its parts. -/
  | split (parts : List SplitPart)
  /-- A run of features; without a number it goes on to the last one. -/
  | crop (featureOffset : UInt32) (features : Option UInt32)
deriving DecidableEq

/-- The name of a kind, without its parameters. -/
inductive KindTag where
  | inputLayout
  | data
  | convolution
  | pooling
  | activation
  | eltwise
  | fullyConnected
  | softmax
  | reorder
  | reshape
  | concatenation
  | split
  | crop
deriving DecidableEq

namespace KindTag

/-- Every tag, in the order in which documents may number them. -/
def all : List KindTag :=
  [inputLayout, data, convolution, pooling, activation, eltwise, fullyConnected, softmax, reorder,
    reshape, concatenation, split, crop]

def name : KindTag → String
  | inputLayout => "input_layout"
  | data => "data"
  | convolution => "convolution"
  | pooling => "pooling"
  | activation => "activation"
  | eltwise => "eltwise"
  | fullyConnected => "fully_connected"
  | softmax => "softmax"
  | reorder => "reorder"
  | reshape => "reshape"
  | concatenation => "concatenation"
  | split => "split"
  | crop => "crop"

def title : KindTag → String
  | inputLayout => "InputLayout"
  | data => "Data"
  | convolution => "Convolution"
  | pooling => "Pooling"
  | activation => "Activation"
  | eltwise => "Eltwise"
  | fullyConnected => "FullyConnected"
  | softmax => "Softmax"
  | reorder => "Reorder"
  | reshape => "Reshape"
  | concatenation => "Concatenation"
  | split => "Split"
  | crop => "Crop"

def ofName? (name : String) : Option KindTag :=
  all.find? fun tag => tag.name == name

end KindTag

namespace Kind

def tag : Kind → KindTag
  | inputLayout _ => .inputLayout
  | data _ => .data
  | convolution _ _ _ => .convolution
  | pooling _ _ _ => .pooling
  | activation _ => .activation
  | eltwise _ => .eltwise
  | fullyConnected _ => .fullyConnected
  | softmax => .softmax
  | reorder _ => .reorder
  | reshape _ => .reshape
  | concatenation => .concatenation
  | split _ => .split
  | crop _ _ => .crop

/-- The window of a convolution or a pooling, with the output size it asks for. -/
def window? : Kind → Option (Window × Option (Spatial UInt32))
  | convolution _ window size => some (window, size)
  | pooling _ window size => some (window, size)
  | _ => none

/-- The format of the output, given the formats of the inputs. -/
def outputFormat (kind : Kind) (inputs : List Format) : Format :=
  match kind with
  | inputLayout layout => layout.format
  | data layout => layout.format
  | reorder format => format
  | _ => inputs.head?.getD .bfyx

/-- The size of the output of a window: the one asked for, or the natural one. -/
def windowSize (window : Window) (asked : Option (Spatial UInt32)) (input : Shape) :
    Checked (Spatial UInt32) :=
  match asked with
  | some size => pure size
  | none => window.outputSize input.spatial

/-- The shape of the output, given the shapes of the inputs, where the first one is at hand. -/
def outputShapeFrom (kind : Kind) (input : Shape) (rest : List Shape) : Checked Shape :=
  match kind with
  | inputLayout layout => pure layout.shape
  | data layout => pure layout.shape
  | convolution outputFeatures window asked => do
    let size ← windowSize window asked input
    return ⟨input.batch, outputFeatures, size.y, size.x⟩
  | pooling _ window asked => do
    let size ← windowSize window asked input
    return ⟨input.batch, input.features, size.y, size.x⟩
  | fullyConnected outputFeatures => pure ⟨input.batch, outputFeatures, 1, 1⟩
  | reshape shape => pure shape
  | concatenation => do
    let features ← Checked.unsigned32
      ((input :: rest).foldl (fun total shape => total + shape.features.toNat) 0)
    return { input with features }
  | crop featureOffset features =>
    let left := UInt32.ofNat (input.features.toNat - featureOffset.toNat)
    pure { input with features := features.getD left }
  | activation _ => pure input
  | eltwise _ => pure input
  | softmax => pure input
  | reorder _ => pure input
  | split _ => pure input

/-- The shape of the output, given the shapes of the inputs in slot order. There is none when an
input that it depends on is missing. -/
def outputShape (kind : Kind) (inputs : List Shape) : Checked (Option Shape) :=
  match kind, inputs with
  | inputLayout layout, _ => pure (some layout.shape)
  | data layout, _ => pure (some layout.shape)
  | reshape shape, _ => pure (some shape)
  | _, [] => pure none
  | kind, input :: rest => some <$> kind.outputShapeFrom input rest

end Kind

end LayerGraph
