import LayerGraph.Program.Edit

/-!
# Derived facts

What a build derives about a node follows from what the node reads: whether it is constant, whether
it is in the data flow, and the layout of its output. Each is computed for one node from the
current facts about its dependencies, so the order in which nodes are visited matters.

Two nodes whose buffers may not share storage are noted with each other (`Program.addConflict`).
-/

namespace LayerGraph

namespace Program

def dependencyNodes (program : Program) (key : NodeKey) : List Node :=
  (program.dependencies key).filterMap program.node?

/-- A node that reads something is constant when everything it reads is. -/
def markConstant (program : Program) (key : NodeKey) : Program :=
  match program.dependencyNodes key with
  | [] => program
  | nodes => program.modifyNode key fun node => { node with isConstant := nodes.all (·.isConstant) }

/-- Whether a node is a network input or reads a node of the data flow. -/
def isFed (program : Program) (key : NodeKey) (node : Node) : Bool :=
  node.tag == .inputLayout || (program.dependencyNodes key).any (·.inDataFlow)

/-- The layout of the output of a node. It is unknown when the layout of something it reads is. -/
def inferLayout (program : Program) (key : NodeKey) (node : Node) : Checked (Option Layout) :=
  match (program.dependencyNodes key).mapM (·.layout) with
  | none => pure none
  | some layouts => do
    let shape ← node.kind.outputShape (layouts.map (·.shape))
    return shape.map fun shape =>
      { format := node.kind.outputFormat (layouts.map (·.format)), shape, padding := node.padding }

/-- Notes with each of two live nodes that its buffer may not share storage with the other. -/
def addConflict (program : Program) (first second : NodeKey) : Program :=
  if first = second then program
  else
    match program.node? first, program.node? second with
    | some one, some other =>
      (program.modifyNode first (·.withConflict other.id)).modifyNode second (·.withConflict one.id)
    | _, _ => program

/-- Forgets all notes about buffers that may not share storage. -/
def clearConflicts (program : Program) : Program :=
  { program with store := program.store.map fun node => { node with conflicts := [] } }

end Program

namespace Edit

def markConstant (key : NodeKey) : Edit Unit := modify (·.markConstant key)

def markDataFlow (key : NodeKey) : Edit Unit := do
  let node ← nodeAt key
  let fed := (← get).isFed key node
  modify (·.modifyNode key fun node => { node with inDataFlow := fed })

def refreshLayout (key : NodeKey) : Edit (Option Layout) := do
  let node ← nodeAt key
  let layout ← ((← get).inferLayout key node).lift
  modify (·.modifyNode key (·.withLayout layout))
  return layout

/-- Computes the layouts of all nodes anew, in processing order. -/
def refreshLayouts : Edit Unit := do
  (← get).order.toList.forM fun key => discard (refreshLayout key)

end Edit

end LayerGraph
