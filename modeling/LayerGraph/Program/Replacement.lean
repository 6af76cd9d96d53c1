import LayerGraph.Program.Edit

/-!
# Replacing and renaming nodes

A node that stands alone can take the place of another one: it reads the same nodes at the same
slots, has the same readers, the same place in the processing order, the same flags and, in the
end, the same id. The node it replaces is gone.

Ids can be changed and exchanged. An output keeps its id, and an id keeps its place in the order
of registration.
-/

namespace LayerGraph

namespace Program

def copyWiring (program : Program) (old new : NodeKey) : Program :=
  let into := (program.incoming old).map fun edge => { edge with target := new }
  let out := (program.outgoing old).map fun edge => { edge with source := new }
  { program with edges := out.reverse ++ into.reverse ++ program.edges }

def substitute (old new : NodeKey) (keys : List NodeKey) : List NodeKey :=
  keys.map fun key => if key == old then new else key

/-- Puts a node, whose id is `newId`, in the place of another one. -/
def replaceNode (program : Program) (old new : NodeKey) (model : Node) (newId : String) : Program :=
  let wired := (program.copyWiring old new).modifyNode new fun node =>
    { node with
      isConstant := model.isConstant, inDataFlow := model.inDataFlow, isOutput := model.isOutput }
  let listed :=
    { wired with
      inputs := substitute old new wired.inputs
      outputs := substitute old new wired.outputs
      order :=
        if wired.order.contains old then wired.order.replace old new else wired.order.erase new }
  let removed := listed.removeNode old
  ({ removed with names := removed.names.filter (·.1 != newId) }.repoint model.id new).modifyNode
    new (·.withId model.id)

/-- Gives a node another id, which takes the place of the old one among the ids. -/
def renameNode (program : Program) (key : NodeKey) (node : Node) (id : String) : Program :=
  let names := program.names.map fun entry => if entry.1 == node.id then (id, key) else entry
  { program with names }.modifyNode key (·.withId id)

def exchangeNodeIds (program : Program) (first second : NodeKey) (firstId secondId : String) :
    Program :=
  let names := (program.repoint firstId second).repoint secondId first
  (names.modifyNode first (·.withId secondId)).modifyNode second (·.withId firstId)

end Program

namespace Edit

/-- Puts a node that stands alone in the place of another one. -/
def replace (old new : NodeKey) : Edit Unit := do
  requireLive old
  requireLive new
  if old = new then return
  let program ← get
  let replacement ← nodeAt new
  unless program.dependencyCount new == 0 && program.userCount new == 0 do
    refuse (.notDetached replacement.id .replacementHasConnections)
  if replacement.isOutput then refuse (.notDetached replacement.id .replacementIsOutput)
  let model ← nodeAt old
  modify (·.replaceNode old new model replacement.id)

def rename (key : NodeKey) (id : String) : Edit Unit := do
  requireLive key
  let program ← get
  match program.keyOf? id with
  | some holder => unless holder = key do refuse (.duplicateId id)
  | none =>
    let node ← nodeAt key
    if node.isOutput then refuse (.renameOutput node.id)
    modify (·.renameNode key node id)

def exchangeIds (first second : NodeKey) : Edit Unit := do
  requireLive first
  requireLive second
  let one ← nodeAt first
  let other ← nodeAt second
  modify (·.exchangeNodeIds first second one.id other.id)

end Edit

end LayerGraph
