import LayerGraph.Build.Session
import LayerGraph.Memory.Conflicts

/-!
# The end of a build

The nodes are handed to the backend in processing order (`Build.compileNodes`), the memory
dependencies are computed (`Build.computeConflicts`), and in the end the layouts are brought up to
date (`Build.cleanUp`). In a debug build every node that is no constant buffer becomes an output,
so that its value can be read.
-/

namespace LayerGraph

def Edit.expose (key : NodeKey) : Edit Unit := do
  let node ← nodeAt key
  unless node.tag == .data do modify (·.setOutput key true)

namespace Build

def compileNodes : Build Unit := do
  (← program).order.toList.forM compileNode

/-- Computes the memory dependencies with the strategy in effect. -/
def computeConflicts : Build Unit := do
  edit (Edit.computeConflicts (← program).options.memoryStrategy)

/-- Brings the layouts up to date, and in a debug build makes nodes outputs. -/
def cleanUp : Build Unit := do
  edit Edit.refreshLayouts
  let program ← program
  if program.options.debug then edit (program.order.toList.forM Edit.expose)

end Build

end LayerGraph
