import LayerGraph.Program.Basic

/-!
# Wiring

The edits of nodes and edges that all others are made of. They are total: they do not ask whether
their keys are live, and what they leave behind may have gaps that the operations built on them
close again.

A new edge into a node takes the slot after all others. When edges are taken away, the remaining
slots close the gaps and keep their order (`Program.closeGaps`). When a reader is redirected, it
reads the new node at the same slots (`Program.redirect`).
-/

namespace LayerGraph.Program

/-- The program with a node for a primitive, and its key. A node that has the id already is taken
as it is; a new one stands alone and outside of the processing order. -/
def ensure (program : Program) (primitive : Primitive) : Program × NodeKey :=
  match program.keyOf? primitive.id with
  | some key => (program, key)
  | none =>
    let (store, key) := program.store.insert (.ofPrimitive primitive)
    ({ program with store, names := program.names ++ [(primitive.id, key)] }, key)

def addEdge (program : Program) (edge : Edge) : Program :=
  { program with edges := edge :: program.edges }

/-- Makes a node read another one after everything that it reads already. -/
def attach (program : Program) (source target : NodeKey) : Program :=
  program.addEdge ⟨source, target, program.dependencyCount target⟩

def dropEdges (program : Program) (condition : Edge → Bool) : Program :=
  { program with edges := program.edges.filter fun edge => !condition edge }

/-- The rank of an edge among the edges into the same node: by slot, and among equal slots the
newer edge first. `newer` holds the edges that are newer than this one. -/
def slotRank (edges newer : List Edge) (edge : Edge) : Nat :=
  edges.countP (fun other => other.target == edge.target && decide (other.slot < edge.slot)) +
    newer.countP fun other => other.target == edge.target && other.slot == edge.slot

def rankSlots (edges : List Edge) (key : NodeKey) : List Edge → List Edge → List Edge
  | _, [] => []
  | newer, edge :: older =>
    (if edge.target == key then { edge with slot := slotRank edges newer edge } else edge) ::
      rankSlots edges key (edge :: newer) older

/-- Numbers the slots of a node anew, without gaps and in the same order. -/
def closeGaps (program : Program) (key : NodeKey) : Program :=
  { program with edges := rankSlots program.edges key [] program.edges }

/-- Makes a reader of one node read another one, at the same slots. -/
def redirect (program : Program) (user old new : NodeKey) : Program :=
  let (moved, kept) :=
    program.edges.partition fun edge => edge.source == old && edge.target == user
  { program with edges := (moved.map fun edge => { edge with source := new }).reverse ++ kept }

def redirectAll (program : Program) (users : List NodeKey) (old new : NodeKey) : Program :=
  users.foldl (fun program user => program.redirect user old new) program

/-- Takes away every edge of a node; its readers close the gaps. -/
def detach (program : Program) (key : NodeKey) : Program :=
  (program.users key).foldl closeGaps
    (program.dropEdges fun edge => edge.source == key || edge.target == key)

def removeNode (program : Program) (key : NodeKey) : Program :=
  { program with
    store := program.store.erase key
    edges := program.edges.filter fun edge => edge.source != key && edge.target != key }

/-- Takes a node out of the store and out of every list, and notes its id. -/
def eraseNode (program : Program) (key : NodeKey) : Program :=
  let unlisted :=
    { program with
      order := program.order.erase key
      inputs := program.inputs.filter (· != key)
      outputs := program.outputs.filter (· != key) }
  match program.node? key with
  | none => unlisted
  | some node =>
    { unlisted.removeNode key with
      names := program.names.filter (·.1 != node.id)
      optimizedOut := program.optimizedOut ++ [node.id] }

def detachAndErase (program : Program) (key : NodeKey) : Program :=
  (program.detach key).eraseNode key

/-- Makes an id stand for another key; it keeps its place among the ids. -/
def repoint (program : Program) (id : String) (key : NodeKey) : Program :=
  { program with
    names := program.names.map fun entry => if entry.1 == id then (id, key) else entry }

/-- The inputs are the nodes that read nothing, in the order of registration. -/
def collectInputs (program : Program) : Program :=
  { program with inputs := program.keys.filter fun key => program.dependencyCount key == 0 }

end LayerGraph.Program
