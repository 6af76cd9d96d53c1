import LayerGraph.Options
import LayerGraph.Order.BreadthFirst
import LayerGraph.Order.DepthFirst
import LayerGraph.Order.Reach
import LayerGraph.Program.Store

/-!
# Programs

A program is a graph of nodes. An edge runs from a node to a node that reads it, and carries the
slot at which it is read. The list of edges has the newest edge first. The dependencies of a node
are the sources of its incoming edges in the order of their slots, and of two edges with the same
slot the newer one comes first.

Besides nodes and edges a program keeps the ids of its nodes in the order of their registration,
its processing order, its inputs (the nodes that read nothing) and outputs, and the ids of the
nodes that were removed.
-/

namespace LayerGraph

/-- An edge from a node to a reader of it. -/
structure Edge where
  source : NodeKey
  target : NodeKey
  slot : Nat
deriving DecidableEq

/-- A graph of nodes. -/
structure Program where
  id : Nat
  options : Options := {}
  /-- Whether the program is a part of another one that is built on its own. -/
  isInternal : Bool := false
  store : NodeStore := {}
  edges : List Edge := []
  /-- The ids of the live nodes, in the order of their registration. -/
  names : List (String × NodeKey) := []
  order : ProcessingOrder := {}
  inputs : List NodeKey := []
  outputs : List NodeKey := []
  optimizedOut : List String := []
deriving DecidableEq

/-- Puts a number into a strictly ascending list, unless it is there. -/
def insertAscending (number : Nat) : List Nat → List Nat
  | [] => [number]
  | head :: tail =>
    if number < head then number :: head :: tail
    else if number = head then head :: tail
    else head :: insertAscending number tail

def ascending : List Nat → List Nat
  | [] => []
  | head :: tail => insertAscending head (ascending tail)

namespace Program

/-! ## Nodes and ids -/

def node? (program : Program) (key : NodeKey) : Option Node := program.store.get? key

def contains (program : Program) (key : NodeKey) : Bool := program.store.contains key

def nodeAt (program : Program) (key : NodeKey) : Checked Node :=
  match program.node? key with
  | some node => .ok node
  | none => .error (.deadKey key)

def nodeCount (program : Program) : Nat := program.store.size

def keys (program : Program) : List NodeKey := program.names.map Prod.snd

def keyOf? (program : Program) (id : String) : Option NodeKey := List.lookup id program.names

def hasId (program : Program) (id : String) : Bool := (program.keyOf? id).isSome

def requireKey (program : Program) (id : String) : Except Error NodeKey :=
  match program.keyOf? id with
  | some key => .ok key
  | none => .error (.nodeNotFound id)

def typedNode (program : Program) (id : String) (tag : KindTag) : Except Error Node :=
  match (program.keyOf? id).bind program.node? with
  | none => .error (.nodeNotFound id)
  | some node =>
    if node.tag = tag then .ok node else .error (.typeMismatch node.id tag node.tag)

/-! ## Edges -/

def edgeCount (program : Program) : Nat := program.edges.length

def incoming (program : Program) (key : NodeKey) : List Edge :=
  program.edges.filter (·.target == key)

def outgoing (program : Program) (key : NodeKey) : List Edge :=
  program.edges.filter (·.source == key)

/-- What a node reads, in slot order; a node that is read at several slots is listed for each. -/
def dependencies (program : Program) (key : NodeKey) : List NodeKey :=
  (sortByRank Edge.slot (program.incoming key)).map Edge.source

def dependency? (program : Program) (key : NodeKey) (slot : Nat) : Option NodeKey :=
  (program.dependencies key)[slot]?

def dependencyCount (program : Program) (key : NodeKey) : Nat := (program.incoming key).length

def users (program : Program) (key : NodeKey) : List NodeKey :=
  ascending ((program.outgoing key).map Edge.target)

def userCount (program : Program) (key : NodeKey) : Nat := (program.users key).length

def hasEdge (program : Program) (source target : NodeKey) : Bool :=
  program.edges.any fun edge => edge.source == source && edge.target == target

def graph (program : Program) : DependencyGraph where
  keys := program.keys
  dependencies := program.dependencies
  users := program.users

def dependencyCone (program : Program) (keys : List NodeKey) : List NodeKey :=
  reach program.dependencies program.keys keys []

def leadsTo (program : Program) (source target : NodeKey) : Bool :=
  (reach program.users program.keys [source] []).contains target

/-! ## The processing order -/

/-- Whether a node stands after what it reads and before its readers. -/
def isOrderCorrect (program : Program) (key : NodeKey) : Bool :=
  program.order.isCorrect program.graph key

/-- The first node of the order that stands at a wrong place. -/
def firstMisplaced? (program : Program) : Option NodeKey :=
  program.order.toList.find? fun key => !program.isOrderCorrect key

/-- The program with the breadth-first regrouping of its order. -/
def orderBreadthFirst (program : Program) : Program :=
  { program with order := program.graph.breadthFirst program.order }

def modifyNode (program : Program) (key : NodeKey) (change : Node → Node) : Program :=
  { program with store := program.store.modify key change }

/-- Makes a node an output or not; nothing happens when the key names no node. -/
def setOutput (program : Program) (key : NodeKey) (output : Bool) : Program :=
  if program.contains key then
    let marked := program.modifyNode key fun node => { node with isOutput := output }
    if output then
      if program.outputs.contains key then marked
      else { marked with outputs := program.outputs ++ [key] }
    else { marked with outputs := program.outputs.filter (· != key) }
  else program

end Program

end LayerGraph
