import LayerGraph.Document.Geometry
import LayerGraph.Json.Reader
import LayerGraph.Json.Writer
import LayerGraph.Primitive.Basic

/-!
# Primitives and topologies in documents

A primitive is an object. It holds its id, the ids it reads and its border next to the parameters
of its kind, and names the kind in the member `type`. Parameters of other kinds are passed over.

The members that describe the kind are set aside until `type` is known, since it may stand after
them. Whatever is set aside has to be readable and may not be nested too deeply; this holds for
members that turn out to be superfluous as well. In a primitive the kind may be given by its
number in the list of kinds, and `{}` may stand for null behind a name.
-/

namespace LayerGraph

namespace Activation

def toJson (activation : Activation) : Json := .text activation.name

end Activation

namespace KindTag

def toJson (tag : KindTag) : Json := .text tag.name

def ofJson? : Json → Option KindTag := Json.name? .strict ofName?

/-- A tag from a document that holds its name and nothing else. -/
def ofText? (text : String) : Option KindTag := (Json.parse text).bind ofJson?

end KindTag

namespace SplitPart

def fieldNames : List String := ["name", "feature_offset"]

def toJson (part : SplitPart) : Json :=
  .object [("name", .text part.name), ("feature_offset", .nat part.featureOffset.toNat)]

def ofJson? (json : Json) : Option SplitPart := do
  let fields ← json.fields? fieldNames
  let name ← fields.required "name" Json.text?
  let featureOffset ← fields.required "feature_offset" Json.uint32?
  return ⟨name, featureOffset⟩

end SplitPart

namespace Kind

def fieldNames : KindTag → List String
  | .inputLayout => ["layout"]
  | .data => ["layout"]
  | .convolution => ["output_features", "window", "output_size"]
  | .pooling => ["mode", "window", "output_size"]
  | .activation => ["func"]
  | .eltwise => ["mode"]
  | .fullyConnected => ["output_features"]
  | .softmax => []
  | .reorder => ["format"]
  | .reshape => ["shape"]
  | .concatenation => []
  | .split => ["outputs"]
  | .crop => ["feature_offset", "features"]

def members : Kind → List (String × Json)
  | inputLayout layout => [("layout", layout.toJson)]
  | data layout => [("layout", layout.toJson)]
  | convolution outputFeatures window outputSize =>
    [("output_features", .nat outputFeatures.toNat), ("window", window.toJson),
      ("output_size", Json.nullable Spatial.sizesToJson outputSize)]
  | pooling mode window outputSize =>
    [("mode", .text mode.name), ("window", window.toJson),
      ("output_size", Json.nullable Spatial.sizesToJson outputSize)]
  | activation function => [("func", function.toJson)]
  | eltwise mode => [("mode", .text mode.name)]
  | fullyConnected outputFeatures => [("output_features", .nat outputFeatures.toNat)]
  | softmax => []
  | reorder format => [("format", format.toJson)]
  | reshape shape => [("shape", shape.toJson)]
  | concatenation => []
  | split parts => [("outputs", .array (parts.map SplitPart.toJson))]
  | crop featureOffset features =>
    [("feature_offset", .nat featureOffset.toNat),
      ("features", Json.nullable (fun count => .nat count.toNat) features)]

def ofFields? (tag : KindTag) (json : Json) : Option Kind := do
  let fields ← json.fields? (fieldNames tag)
  match tag with
  | .inputLayout => inputLayout <$> fields.required "layout" (Layout.ofJson? .lenient)
  | .data => data <$> fields.required "layout" (Layout.ofJson? .lenient)
  | .convolution =>
    let outputFeatures ← fields.required "output_features" Json.uint32?
    let window ← fields.required "window" Window.ofJson?
    let outputSize ← fields.optional "output_size" (Json.option? Spatial.sizes?) none
    return convolution outputFeatures window outputSize
  | .pooling =>
    let mode ← fields.required "mode" (Json.name? .lenient PoolingMode.ofName?)
    let window ← fields.required "window" Window.ofJson?
    let outputSize ← fields.optional "output_size" (Json.option? Spatial.sizes?) none
    return pooling mode window outputSize
  | .activation =>
    activation <$> fields.required "func" (Json.name? .lenient Activation.ofName?)
  | .eltwise => eltwise <$> fields.required "mode" (Json.name? .lenient EltwiseMode.ofName?)
  | .fullyConnected => fullyConnected <$> fields.required "output_features" Json.uint32?
  | .softmax => some softmax
  | .reorder => reorder <$> fields.required "format" (Format.ofJson? .lenient)
  | .reshape => reshape <$> fields.required "shape" Shape.ofJson?
  | .concatenation => some concatenation
  | .split => split <$> fields.required "outputs" (Json.list? SplitPart.ofJson?)
  | .crop =>
    let featureOffset ← fields.required "feature_offset" Json.uint32?
    let features ← fields.optional "features" (Json.option? Json.uint32?) none
    return crop featureOffset features

/-- A kind from an object with a member `type`, which `readTag` reads. -/
def ofMembers? (readTag : Json → Option KindTag) (members : List (String × Json)) :
    Option Kind := do
  let fields ← (Json.object members).fields? ["type"]
  let tag ← fields.required "type" readTag
  ofFields? tag (.object members)

/-- A kind that stands alone: an object, or an array of the name and the parameters. -/
def ofJson? : Json → Option Kind
  | .object members =>
    ofMembers? (fun json => json.text?.bind KindTag.ofName?) members
  | .array (.text name :: parameters) => do
    let tag ← KindTag.ofName? name
    ofFields? tag (.array parameters)
  | _ => none

end Kind

namespace Primitive

def fieldNames : List String := ["id", "inputs", "output_padding"]

def tag? : Json → Option KindTag
  | .text name => KindTag.ofName? name
  | .integer number => if 0 ≤ number then KindTag.all[number.toNat]? else none
  | _ => none

def toJson (primitive : Primitive) : Json :=
  .object (("id", .text primitive.id) :: ("type", primitive.tag.toJson) ::
    (primitive.kind.members ++
      [("inputs", .array (primitive.inputs.map .text)),
        ("output_padding", primitive.outputPadding.toJson)]))

/-- A primitive from an object that stands inside `depth` containers, itself included. -/
def ofJson? (depth : Nat) : Json → Option Primitive
  | .object members => do
    let aside := members.filter fun member => !fieldNames.contains member.1
    guard (Json.readableMembers (Json.nestingLimit - depth) aside)
    let fields ← (Json.object members).fields? fieldNames
    let id ← fields.required "id" Json.text?
    let kind ← Kind.ofMembers? tag? aside
    let inputs ← fields.optional "inputs" (Json.list? Json.text?) []
    let outputPadding ← fields.optional "output_padding" Padding.ofJson? {}
    return { id, kind, inputs, outputPadding }
  | _ => none

def ofText? (text : String) : Option Primitive := (Json.parse text).bind (ofJson? 1)

end Primitive

namespace Topology

def fieldNames : List String := ["primitives", "inputs", "outputs"]

def toJson (topology : Topology) : Json :=
  .object [("primitives", .array (topology.primitives.map Primitive.toJson)),
    ("inputs", .array (topology.inputs.map .text)),
    ("outputs", .array (topology.outputs.map .text))]

/-- A topology from a record; its primitives stand inside three containers. -/
def ofJson? (json : Json) : Option Topology := do
  let fields ← json.fields? fieldNames
  let primitives ← fields.required "primitives" (Json.list? (Primitive.ofJson? 3))
  let inputs ← fields.optional "inputs" (Json.list? Json.text?) []
  let outputs ← fields.optional "outputs" (Json.list? Json.text?) []
  return { primitives, inputs, outputs }

def ofText? (text : String) : Option Topology := (Json.parse text).bind ofJson?

end Topology

end LayerGraph
