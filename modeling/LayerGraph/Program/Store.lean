import LayerGraph.Error
import LayerGraph.Primitive.Basic

/-!
# Nodes and their store

A node wraps a primitive with what the build derives about it: flags, the border that its readers
need, an activation that is applied to its result, the cached layout, and the ids of the nodes
whose buffers it may not share.

Nodes live in a store and are named by keys. The key of a node that is removed becomes free, and a
new node takes the key that became free last, or the next unused number (`NodeStore.insert`).
-/

namespace LayerGraph

/-- A node of a program. -/
structure Node where
  primitive : Primitive
  /-- Everything it reads is constant, or it is a constant buffer. -/
  isConstant : Bool := false
  inDataFlow : Bool := false
  isOutput : Bool := false
  runsInPlace : Bool := false
  fused : Option Activation := none
  padding : Padding := {}
  layout : Option Layout := none
  /-- The ids of the nodes whose buffers it may not share, in ascending order. -/
  conflicts : List String := []
deriving DecidableEq

namespace Node

/-- The node of a primitive, as it is before the build derives anything. -/
def ofPrimitive (primitive : Primitive) : Node where
  primitive
  isConstant := primitive.tag == .data
  padding := primitive.outputPadding

def id (node : Node) : String := node.primitive.id

def kind (node : Node) : Kind := node.primitive.kind

def tag (node : Node) : KindTag := node.primitive.tag

def withId (node : Node) (id : String) : Node :=
  { node with primitive := { node.primitive with id } }

/-- The node with another border; its cached layout has the border too. -/
def withPadding (node : Node) (padding : Padding) : Node :=
  { node with padding, layout := node.layout.map (·.withPadding padding) }

def mergePadding (node : Node) (padding : Padding) : Node :=
  node.withPadding (node.padding.merge padding)

/-- The node with another cached layout, which takes on the border of the node. -/
def withLayout (node : Node) (layout : Option Layout) : Node :=
  { node with layout := layout.map (·.withPadding node.padding) }

def insertId (id : String) : List String → List String
  | [] => [id]
  | head :: tail =>
    if id < head then id :: head :: tail
    else if id = head then head :: tail
    else head :: insertId id tail

/-- The node with one more node whose buffer it may not share. -/
def withConflict (node : Node) (id : String) : Node :=
  { node with conflicts := insertId id node.conflicts }

end Node

/-- The nodes of a program by key. -/
structure NodeStore where
  cells : List (Option Node) := []
  free : List NodeKey := []
deriving DecidableEq

namespace NodeStore

def get? (store : NodeStore) (key : NodeKey) : Option Node := store.cells[key]?.join

def contains (store : NodeStore) (key : NodeKey) : Bool := (store.get? key).isSome

def nodes (store : NodeStore) : List Node := store.cells.filterMap id

def size (store : NodeStore) : Nat := store.nodes.length

def insert (store : NodeStore) (node : Node) : NodeStore × NodeKey :=
  match store.free with
  | key :: free => ({ cells := store.cells.set key (some node), free }, key)
  | [] => ({ store with cells := store.cells ++ [some node] }, store.cells.length)

def modify (store : NodeStore) (key : NodeKey) (change : Node → Node) : NodeStore :=
  { store with cells := store.cells.modify key (Option.map change) }

def map (store : NodeStore) (change : Node → Node) : NodeStore :=
  { store with cells := store.cells.map (Option.map change) }

/-- Removes the node of a key, if there is one; the key becomes free. -/
def erase (store : NodeStore) (key : NodeKey) : NodeStore :=
  if store.contains key then { cells := store.cells.set key none, free := key :: store.free }
  else store

end NodeStore

end LayerGraph
