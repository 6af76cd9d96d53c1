import LayerGraph.Checked

/-!
# Layouts of tensors

A tensor has four axes: batch, features, and the two spatial axes `y` and `x`. Its `Shape` gives
the size along each of them, its `Format` the order in which they are stored, and its `Padding`
the border that is allocated around the spatial axes so that a reader may step over the edge.
The three together are the `Layout` of a buffer.

Every size is a word of 32 bits. The number of elements of a shape is a word of 64 bits and may
overflow (`Shape.count`).
-/

namespace LayerGraph

/-- A pair of values, one for each spatial axis. -/
structure Spatial (α : Type) where
  /-- The value along the `x` axis. -/
  x : α
  /-- The value along the `y` axis. -/
  y : α
deriving DecidableEq

/-- The order in which the axes of a tensor are stored. -/
inductive Format where
  | bfyx
  | yxfb
  | byxf
deriving DecidableEq

namespace Format

def all : List Format := [bfyx, yxfb, byxf]

/-- The name of a format in documents and in the ids of inserted nodes. -/
def name : Format → String
  | bfyx => "bfyx"
  | yxfb => "yxfb"
  | byxf => "byxf"

/-- The name of a format at the head of the text of a layout. -/
def title : Format → String
  | bfyx => "Bfyx"
  | yxfb => "Yxfb"
  | byxf => "Byxf"

def ofName? (name : String) : Option Format :=
  all.find? fun format => format.name == name

end Format

/-- The size of a tensor along each axis. -/
structure Shape where
  batch : UInt32
  features : UInt32
  y : UInt32
  x : UInt32
deriving DecidableEq

namespace Shape

def spatial (shape : Shape) : Spatial UInt32 := ⟨shape.x, shape.y⟩

/-- The number of elements, multiplied up axis by axis in a word of 64 bits. -/
def count (shape : Shape) : Checked Nat := do
  let planes ← Checked.unsigned64 (shape.batch.toNat * shape.features.toNat)
  let rows ← Checked.unsigned64 (planes * shape.y.toNat)
  Checked.unsigned64 (rows * shape.x.toNat)

/-- The text of a shape: the sizes in the order batch, features, `y`, `x`. -/
def text (shape : Shape) : String :=
  s!"{shape.batch.toNat}x{shape.features.toNat}x{shape.y.toNat}x{shape.x.toNat}"

end Shape

/-- The border around the spatial axes of a tensor, before and after its elements. -/
structure Padding where
  lower : Spatial UInt32 := ⟨0, 0⟩
  upper : Spatial UInt32 := ⟨0, 0⟩
deriving DecidableEq

namespace Padding

def zero : Padding := {}

def isZero (padding : Padding) : Bool := padding == zero

def merge (first second : Padding) : Padding where
  lower := ⟨max first.lower.x second.lower.x, max first.lower.y second.lower.y⟩
  upper := ⟨max first.upper.x second.upper.x, max first.upper.y second.upper.y⟩

def text (padding : Padding) : String :=
  s!"l[{padding.lower.x.toNat},{padding.lower.y.toNat}] " ++
    s!"u[{padding.upper.x.toNat},{padding.upper.y.toNat}]"

end Padding

/-- Format, shape and border of a buffer. -/
structure Layout where
  format : Format := .bfyx
  shape : Shape
  padding : Padding := {}
deriving DecidableEq

namespace Layout

def withPadding (layout : Layout) (padding : Padding) : Layout := { layout with padding }

def text (layout : Layout) : String :=
  let bare := s!"{layout.format.title} {layout.shape.text}"
  if layout.padding.isZero then bare else s!"{bare} pad {layout.padding.text}"

end Layout

end LayerGraph
