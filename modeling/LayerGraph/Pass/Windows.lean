import LayerGraph.Build.Session
import LayerGraph.Program.Insertion

/-!
# Room for windows

Kernels read their windows without asking whether they are still inside the input, so the input
needs a border that is wide enough. A convolution or pooling may ask for an output size other than
the one that its window has naturally. Whether such sizes have to be honoured is decided once for
the whole program (`Build.decideOutputSizes`).

`Build.prepareWindows` then widens the borders. A network input or a constant cannot have a wider
border; a reorder with the border is put in front of the reader instead.
-/

namespace LayerGraph

namespace Program

def firstInputLayout? (program : Program) (key : NodeKey) : Option Layout :=
  ((program.dependency? key 0).bind program.node?).bind (·.layout)

/-- Whether a node asks for an output size other than the natural one. -/
def asksForOtherSize (program : Program) (key : NodeKey) : Checked Bool := do
  let node ← program.nodeAt key
  match node.kind.window?, program.firstInputLayout? key with
  | some (window, some asked), some layout =>
    let natural ← window.outputSize layout.shape.spatial
    return natural != asked
  | _, _ => return false

/-- Whether one of the nodes asks for an output size other than the natural one; the nodes after
the first such node are not looked at. -/
def anyAsksForOtherSize (program : Program) : List NodeKey → Checked Bool
  | [] => pure false
  | key :: rest => do
    if ← program.asksForOtherSize key then return true
    else program.anyAsksForOtherSize rest

end Program

/-- The border that a node of some kind needs around what it reads first, which has the given
layout. There is none when the kind takes care of itself. -/
def Kind.neededBorder (handling : Bool) (kind : Kind) (input : Layout) :
    Checked (Option Padding) :=
  let spatial := input.shape.spatial
  match kind with
  | .convolution _ window (some size) | .pooling _ window (some size) =>
    if handling then some <$> window.neededPadding spatial size else pure none
  | .convolution _ window none =>
    if input.format = .bfyx then do
      let natural ← window.outputSize spatial
      some <$> window.neededPadding spatial natural
    else pure none
  | _ => pure none

def Primitive.paddedReorder (source reader : String) (format : Format) (padding : Padding) :
    Primitive :=
  { reorder s!"{source}_padding_reorder_{reader}" source format with outputPadding := padding }

namespace Edit

/-- Gives what a node reads first a border that covers the given one. -/
def widen (key input : NodeKey) (padding : Padding) : Edit Unit := do
  let source ← nodeAt input
  if source.tag = .inputLayout ∨ source.tag = .data then
    let format := (source.layout.map (·.format)).getD .bfyx
    let reader ← nodeAt key
    let reorder := Primitive.paddedReorder source.id reader.id format padding
    let inserted ← insertPrimitive reorder key 0 ⟨true, false⟩
    discard (refreshLayout inserted)
  else
    modify (·.modifyNode input (·.mergePadding padding))

/-- Gives what a node reads first the border that the node needs. -/
def prepareWindow (handling : Bool) (key : NodeKey) : Edit Unit := do
  let program ← get
  match program.dependency? key 0, program.firstInputLayout? key with
  | some input, some layout =>
    let node ← nodeAt key
    match ← (node.kind.neededBorder handling layout).lift with
    | some padding => unless padding.isZero do widen key input padding
    | none => pure ()
  | _, _ => pure ()

end Edit

namespace Build

/-- Decides whether explicit output sizes have to be honoured, unless the options say it. -/
def decideOutputSizes : Build Unit := do
  let program ← program
  let handling ← match program.options.outputSizeHandling with
    | some forced => pure forced
    | none => (program.anyAsksForOtherSize program.order.toList).lift
  modify fun session => { session with outputSizeHandling := handling }

/-- Gives everything that is read by a window the border that the window needs. -/
def prepareWindows : Build Unit := do
  let session ← get
  edit (session.program.order.toList.forM (Edit.prepareWindow session.outputSizeHandling))

end Build

end LayerGraph
