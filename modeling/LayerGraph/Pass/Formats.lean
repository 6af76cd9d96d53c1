import LayerGraph.Build.Session
import LayerGraph.Program.Insertion
import LayerGraph.Program.Removal

/-!
# Reorders

A reorder that changes nothing is removed (`Build.dropReorders`). A network input that a convolution
reads is reordered to the format that convolutions prefer for its batch; all its readers read the
reorder, which is handed to the backend on the spot (`Build.reorderInputs`).
-/

namespace LayerGraph

def preferredFormat (batch : UInt32) : Format := if 16 ≤ batch then .yxfb else .bfyx

namespace Program

def isRedundantReorder (program : Program) (key : NodeKey) (node : Node) : Bool :=
  match node.kind with
  | .reorder format =>
    !node.isOutput && node.padding.isZero &&
      ((program.dependency? key 0).bind program.node?).any fun source =>
        source.layout.any (·.format == format)
  | _ => false

def convolutionReader? (program : Program) (key : NodeKey) : Option NodeKey :=
  (program.users key).find? fun user =>
    (program.node? user).any (·.tag == .convolution) && program.dependency? user 0 == some key

/-- The reorder that an input needs, and a convolution in front of which it is put. -/
def neededReorder? (program : Program) (key : NodeKey) (node : Node) :
    Option (Primitive × NodeKey) := do
  guard (node.tag == .inputLayout)
  let layout ← node.layout
  let reader ← program.convolutionReader? key
  let format := preferredFormat layout.shape.batch
  guard (layout.format != format)
  return (.reorder s!"{node.id}_reorder_{format.name}" node.id format, reader)

end Program

namespace Edit

def dropReorder (key : NodeKey) : Edit Unit := do
  let node ← nodeAt key
  if (← get).isRedundantReorder key node then discard (bypass key)

/-- Puts a reorder behind an input, if it needs one, and gives its key. -/
def reorderInput (key : NodeKey) : Edit (Option NodeKey) := do
  let node ← nodeAt key
  match (← get).neededReorder? key node with
  | some (reorder, reader) => some <$> insertPrimitive reorder reader 0 ⟨true, true⟩
  | none => return none

/-- Puts reorders behind the inputs that need one, and gives their keys. -/
def reorderEach : List NodeKey → Edit (List NodeKey)
  | [] => return []
  | key :: rest => do
    let inserted ← reorderInput key
    let others ← reorderEach rest
    return inserted.toList ++ others

end Edit

namespace Build

def dropReorders : Build Unit := do
  edit ((← program).order.toList.forM Edit.dropReorder)

/-- Gives network inputs the format that their convolutions prefer. -/
def reorderInputs : Build Unit := do
  let inserted ← edit (Edit.reorderEach (← program).inputs)
  unless inserted.isEmpty do
    edit Edit.refreshLayouts
    inserted.forM compileNode

end Build

end LayerGraph
