import LayerGraph.Geometry.Window
import LayerGraph.Json.Record

/-!
# Geometry in documents

How shapes, borders, layouts and windows are written and read. A pair of spatial values is an
array of two, `x` first. What has a default may be left out.
-/

namespace LayerGraph

namespace Spatial

def toJson {α : Type} (write : α → Json) (pair : Spatial α) : Json :=
  .array [write pair.x, write pair.y]

def ofJson? {α : Type} (read : Json → Option α) : Json → Option (Spatial α)
  | .array [x, y] => do
    let x ← read x
    let y ← read y
    return ⟨x, y⟩
  | _ => none

def sizesToJson : Spatial UInt32 → Json := toJson fun size => .nat size.toNat

def sizes? : Json → Option (Spatial UInt32) := ofJson? Json.uint32?

def offsetsToJson : Spatial Int32 → Json := toJson fun offset => .integer offset.toInt

def offsets? : Json → Option (Spatial Int32) := ofJson? Json.int32?

end Spatial

namespace Format

def toJson (format : Format) : Json := .text format.name

def ofJson? (form : Json.NameForm) : Json → Option Format := Json.name? form ofName?

end Format

namespace Shape

def fieldNames : List String := ["batch", "features", "y", "x"]

def toJson (shape : Shape) : Json :=
  .object [("batch", .nat shape.batch.toNat), ("features", .nat shape.features.toNat),
    ("y", .nat shape.y.toNat), ("x", .nat shape.x.toNat)]

def ofJson? (json : Json) : Option Shape := do
  let fields ← json.fields? fieldNames
  let batch ← fields.required "batch" Json.uint32?
  let features ← fields.required "features" Json.uint32?
  let y ← fields.required "y" Json.uint32?
  let x ← fields.required "x" Json.uint32?
  return ⟨batch, features, y, x⟩

end Shape

namespace Padding

def fieldNames : List String := ["lower", "upper"]

def toJson (padding : Padding) : Json :=
  .object [("lower", padding.lower.sizesToJson), ("upper", padding.upper.sizesToJson)]

def ofJson? (json : Json) : Option Padding := do
  let fields ← json.fields? fieldNames
  let lower ← fields.optional "lower" Spatial.sizes? ⟨0, 0⟩
  let upper ← fields.optional "upper" Spatial.sizes? ⟨0, 0⟩
  return { lower, upper }

end Padding

namespace Layout

def fieldNames : List String := ["format", "shape", "padding"]

def toJson (layout : Layout) : Json :=
  .object [("format", layout.format.toJson), ("shape", layout.shape.toJson),
    ("padding", layout.padding.toJson)]

def ofJson? (form : Json.NameForm) (json : Json) : Option Layout := do
  let fields ← json.fields? fieldNames
  let format ← fields.optional "format" (Format.ofJson? form) .bfyx
  let shape ← fields.required "shape" Shape.ofJson?
  let padding ← fields.optional "padding" Padding.ofJson? {}
  return { format, shape, padding }

end Layout

namespace Window

def fieldNames : List String := ["kernel", "stride", "dilation", "input_offset"]

def toJson (window : Window) : Json :=
  .object [("kernel", window.kernel.sizesToJson), ("stride", window.stride.sizesToJson),
    ("dilation", window.dilation.sizesToJson), ("input_offset", window.inputOffset.offsetsToJson)]

def ofJson? (json : Json) : Option Window := do
  let fields ← json.fields? fieldNames
  let kernel ← fields.required "kernel" Spatial.sizes?
  let stride ← fields.optional "stride" Spatial.sizes? ⟨1, 1⟩
  let dilation ← fields.optional "dilation" Spatial.sizes? ⟨1, 1⟩
  let inputOffset ← fields.optional "input_offset" Spatial.offsets? ⟨0, 0⟩
  return { kernel, stride, dilation, inputOffset }

end Window

end LayerGraph
