import LayerGraph.Geometry.Layout

/-!
# Sliding windows

Convolutions and poolings slide a window over the spatial axes of their input. On one axis the
window has `kernel` taps, `dilation` apart; successive windows start `stride` apart, and the first
one starts at `offset`, which is negative when the window reaches over the lower edge.

Two questions are asked of a window. How many positions does it take on an input of a given size
(`Window.outputSize`), when the upper edge may be stepped over as far as the lower one? And how
much border does an input need so that a given number of positions stays inside it
(`Window.neededPadding`)? Both are computed in signed words of 64 bits. The extent of a window can
be too large for such a word, and then there is no answer.
-/

namespace LayerGraph

/-- A window along one axis. -/
structure WindowAxis where
  kernel : UInt32
  stride : UInt32
  dilation : UInt32
  offset : Int32
deriving DecidableEq

namespace WindowAxis

/-- The number of elements from the first tap of a window to the last, both included. -/
def extent (axis : WindowAxis) : Checked Int :=
  Checked.signed64 ((axis.kernel.toNat - 1) * axis.dilation.toNat + 1 : Nat)

/-- The elements that a window reads before the first one of the input. -/
def lowerReach (axis : WindowAxis) : Nat := (-axis.offset.toInt).toNat

/-- The number of windows on an input that is stepped over as far on either side. It is one when
not even the first window fits, and at most the largest word. -/
def outputSize (axis : WindowAxis) (input : UInt32) : Checked UInt32 := do
  let available : Int := input.toNat + 2 * axis.lowerReach
  let extent ← axis.extent
  if extent ≤ available then
    let stride : Nat := max axis.stride.toNat 1
    let windows : Nat := (available - extent).toNat / stride + 1
    return UInt32.ofNat (min windows (UInt32.size - 1))
  else
    return 1

/-- The end of the last of `output` windows, counted from the first element of the input. -/
def limit (axis : WindowAxis) (output : UInt32) : Checked Int := do
  let steps ← Checked.signed64 ((output.toNat - 1) * axis.stride.toNat : Nat)
  let last ← Checked.signed64 (axis.offset.toInt + steps)
  let extent ← axis.extent
  Checked.signed64 (last + extent)

/-- The border that `output` windows need before and after an input, in words of 32 bits. -/
def neededPadding (axis : WindowAxis) (input output : UInt32) : Checked (UInt32 × UInt32) := do
  let limit ← axis.limit output
  return (UInt32.ofNat axis.lowerReach, UInt32.ofNat (limit - input.toNat).toNat)

end WindowAxis

/-- A window over both spatial axes. -/
structure Window where
  kernel : Spatial UInt32
  stride : Spatial UInt32 := ⟨1, 1⟩
  dilation : Spatial UInt32 := ⟨1, 1⟩
  inputOffset : Spatial Int32 := ⟨0, 0⟩
deriving DecidableEq

namespace Window

/-- The window along the `x` axis. -/
def alongX (window : Window) : WindowAxis :=
  ⟨window.kernel.x, window.stride.x, window.dilation.x, window.inputOffset.x⟩

/-- The window along the `y` axis. -/
def alongY (window : Window) : WindowAxis :=
  ⟨window.kernel.y, window.stride.y, window.dilation.y, window.inputOffset.y⟩

def outputSize (window : Window) (input : Spatial UInt32) : Checked (Spatial UInt32) := do
  let x ← window.alongX.outputSize input.x
  let y ← window.alongY.outputSize input.y
  return ⟨x, y⟩

/-- The border an input needs so that `output` positions of the window stay inside it. -/
def neededPadding (window : Window) (input output : Spatial UInt32) : Checked Padding := do
  let (lowerX, upperX) ← window.alongX.neededPadding input.x output.x
  let (lowerY, upperY) ← window.alongY.neededPadding input.y output.y
  return { lower := ⟨lowerX, lowerY⟩, upper := ⟨upperX, upperY⟩ }

end Window

end LayerGraph
