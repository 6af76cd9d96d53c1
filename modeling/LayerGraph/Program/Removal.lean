import LayerGraph.Program.Edit

/-!
# Removing nodes

A node can be taken out of the path of the data when it reads exactly one other node: its readers
then read that one at the same slots (`Program.bypass?`). A node that nobody reads can be removed
(`Program.prune?`). Outputs are never removed in either way. Any nodes can be removed together with
all their edges (`Program.removeAll`).
-/

namespace LayerGraph.Program

/-- The program without a node that reads exactly one other and is no output; its readers read what
it read. There is none when the node does not qualify. -/
def bypass? (program : Program) (key : NodeKey) : Option Program :=
  match program.node? key, program.dependencies key with
  | some node, [input] =>
    if node.isOutput then none
    else some ((program.redirectAll (program.users key) key input).detachAndErase key)
  | _, _ => none

/-- The program without a node that nobody reads and that is no output. There is none when the node
does not qualify. -/
def prune? (program : Program) (key : NodeKey) : Option Program :=
  match program.node? key with
  | some node =>
    if node.isOutput || program.userCount key != 0 then none
    else some (program.detachAndErase key)
  | none => none

/-- The program without some nodes and their edges; keys that name no node are passed over. -/
def removeAll (program : Program) (keys : List NodeKey) : Program :=
  keys.foldl (fun program key =>
    if program.contains key then program.detachAndErase key else program) program

end LayerGraph.Program

namespace LayerGraph.Edit

/-- Performs a removal if the node qualifies, and tells whether it did. -/
def attempt (removal : Program → Option Program) : Edit Bool := do
  match removal (← get) with
  | some program => set program; return true
  | none => return false

/-- Takes a node out of the path of the data, if it qualifies. -/
def bypass (key : NodeKey) : Edit Bool := attempt (·.bypass? key)

def prune (key : NodeKey) : Edit Bool := attempt (·.prune? key)

end LayerGraph.Edit
