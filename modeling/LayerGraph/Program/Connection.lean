import LayerGraph.Program.Derivation

/-!
# Connecting and disconnecting nodes

A connection is added after everything that the reader reads already. When connections are taken
away, the reader closes the gaps. A connection can be turned around when no other path leads from
the node to its reader, for then no cycle arises.
-/

namespace LayerGraph.Edit

/-- Makes `next` read `prev` after everything that it reads already. -/
def connect (prev next : NodeKey) : Edit Unit := do
  requireLive prev
  requireLive next
  modify (·.attach prev next)

/-- Makes `next` read `prev` no longer, at any slot. -/
def disconnect (prev next : NodeKey) : Edit Unit := do
  requireLive prev
  requireLive next
  if (← get).hasEdge prev next then
    modify fun program =>
      (program.dropEdges fun edge => edge.source == prev && edge.target == next).closeGaps next

/-- Takes away everything that a node reads and all its readers. -/
def isolate (key : NodeKey) : Edit Unit := do
  requireLive key
  modify (·.detach key)

/-- Makes every reader of one node read another one at the same slots. The other node itself goes
on reading what it read. -/
def redirectReaders (old new : NodeKey) : Edit Unit := do
  requireLive old
  requireLive new
  modify fun program => program.redirectAll ((program.users old).filter (· != new)) old new

/-- Whether a path from a node to a reader of it leads over another reader. -/
def hasDetour (program : Program) (dep user : NodeKey) : Bool :=
  ((program.users dep).filter (· != user)).any fun other => program.leadsTo other user

/-- Notes that `user` may read nothing now, and that `dep` reads something. -/
def updateReversedInputs (dep user : NodeKey) (program : Program) : Program :=
  let inputs :=
    if program.dependencyCount user == 0 && !program.inputs.contains user
    then program.inputs ++ [user] else program.inputs
  { program with inputs := inputs.filter (· != dep) }

/-- Makes `dep` read its reader `user`, after everything that it reads already, instead of being
read by it. The processing order, if there is one, is computed anew. -/
def reverse (dep user : NodeKey) : Edit Unit := do
  requireLive dep
  requireLive user
  let program ← get
  unless program.hasEdge dep user do
    let depNode ← nodeAt dep
    let userNode ← nodeAt user
    refuse (.notADependency depNode.id userNode.id)
  if hasDetour program dep user then
    let userNode ← nodeAt user
    refuse (.cycle userNode.id)
  disconnect dep user
  modify (·.attach user dep)
  modify (updateReversedInputs dep user)
  unless (← get).order.isEmpty do orderDepthFirst

end LayerGraph.Edit
