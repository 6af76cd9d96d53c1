import LayerGraph.Build.Session
import LayerGraph.Program.Derivation
import LayerGraph.Program.Removal

/-!
# Setting up and trimming

The first passes of a build. Split layers have been replaced by crops and are removed unless they
are read; without declared outputs every node that nobody reads becomes one; then the first
processing order and the layouts are computed (`Build.setUp`). After that nodes are marked
(`Build.markNodes`), and everything that no output depends on is removed, except for network inputs
(`Build.trim`).
-/

namespace LayerGraph

namespace Program

/-- The split layers of a program, in the order of registration. -/
def splitKeys (program : Program) : List NodeKey :=
  program.keys.filter fun key => (program.node? key).any (·.tag == .split)

/-- Makes every node that nobody reads an output, unless there are outputs. -/
def markSinks (program : Program) : Program :=
  if program.outputs.isEmpty then
    (program.keys.filter fun key => program.userCount key == 0).foldl
      (fun program key => program.setOutput key true) program
  else program

/-- The keys of a list that are neither needed nor network inputs. Those that are not needed have
to be live. -/
def unneeded (program : Program) (needed : List NodeKey) : List NodeKey → Checked (List NodeKey)
  | [] => pure []
  | key :: rest =>
    if needed.contains key then program.unneeded needed rest
    else do
      let node ← program.nodeAt key
      let others ← program.unneeded needed rest
      return if node.tag == .inputLayout then others else key :: others

/-- The nodes in the processing order that no output depends on, network inputs excepted. -/
def deadKeys (program : Program) : Checked (List NodeKey) :=
  program.unneeded (program.dependencyCone program.outputs) program.order.toList

end Program

def Edit.markNode (key : NodeKey) : Edit Unit := do
  markConstant key
  markDataFlow key

namespace Build

def removeSplit (key : NodeKey) : Build Unit := do
  unless ← edit (Edit.prune key) do
    let node ← nodeAt key
    warn (.splitKept node.id)

/-- Sets the graph up: splits, outputs, processing order and layouts. -/
def setUp : Build Unit := do
  (← program).splitKeys.forM removeSplit
  modifyProgram (·.markSinks)
  edit Edit.orderDepthFirst
  edit Edit.refreshLayouts

/-- Marks all nodes in processing order, so that each sees the marks of what it reads. -/
def markNodes : Build Unit := do
  edit ((← program).order.toList.forM Edit.markNode)

def trim : Build Unit := do
  let dead ← (← program).deadKeys.lift
  modifyProgram (·.removeAll dead)

end Build

end LayerGraph
