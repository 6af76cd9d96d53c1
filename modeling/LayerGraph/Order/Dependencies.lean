import LayerGraph.Order.Basic

/-!
# Dependency graphs

The orders are computed from a view of a program: its keys, what every key depends on, and what
uses it (`DependencyGraph`). The view is finite: walks go on from the listed keys only, so a key
that is not listed counts as one without dependencies (`dependenciesOf`).

Walks over such a graph visit a key at most once. They end because visiting a key takes more away
from the weight of what is unvisited than it adds to what is still to be done
(`unvisitedWeight_visit`).
-/

namespace LayerGraph

/-- A finite graph of dependencies. -/
structure DependencyGraph where
  keys : List NodeKey
  /-- What a key depends on, in slot order and with repetitions. -/
  dependencies : NodeKey → List NodeKey
  users : NodeKey → List NodeKey

/-- The weight of the keys that have not been visited: for each of them two, and two more for
every key next to it. -/
def unvisitedWeight (next : NodeKey → List NodeKey) (visited : List NodeKey) :
    List NodeKey → Nat
  | [] => 0
  | key :: rest =>
    (if key ∈ visited then 0 else 2 * (next key).length + 2) +
      unvisitedWeight next visited rest

/-- Visiting a key never adds weight. -/
theorem unvisitedWeight_cons_le (next : NodeKey → List NodeKey) (key : NodeKey)
    (visited keys : List NodeKey) :
    unvisitedWeight next (key :: visited) keys ≤ unvisitedWeight next visited keys := by
  induction keys with
  | nil => simp [unvisitedWeight]
  | cons head tail ih =>
    by_cases before : head ∈ visited
    · simp only [unvisitedWeight, before, List.mem_cons, or_true, if_true]
      omega
    · by_cases same : head = key
      · simp only [unvisitedWeight, same, List.mem_cons, true_or, if_true]
        omega
      · simp only [unvisitedWeight, before, same, List.mem_cons, or_self, if_false]
        omega

/-- Visiting a key for the first time takes away its own weight. -/
theorem unvisitedWeight_visit (next : NodeKey → List NodeKey) {key : NodeKey}
    {visited keys : List NodeKey} (listed : key ∈ keys) (fresh : key ∉ visited) :
    unvisitedWeight next (key :: visited) keys + (2 * (next key).length + 2) ≤
      unvisitedWeight next visited keys := by
  induction keys with
  | nil => simp at listed
  | cons head tail ih =>
    by_cases same : head = key
    · have rest := unvisitedWeight_cons_le next key visited tail
      simp only [unvisitedWeight, same, fresh, List.mem_cons, true_or, if_true, if_false]
      omega
    · have rest := ih ((List.mem_cons.mp listed).resolve_left fun equal => same equal.symm)
      simp only [unvisitedWeight, same, List.mem_cons, false_or]
      omega

namespace DependencyGraph

/-- The dependencies of a key of the graph; any other key has none. -/
def dependenciesOf (graph : DependencyGraph) (key : NodeKey) : List NodeKey :=
  if key ∈ graph.keys then graph.dependencies key else []

/-- The graph in which a key depends on what is listed at its position. -/
def ofLists (lists : List (List NodeKey)) : DependencyGraph where
  keys := List.range lists.length
  dependencies key := lists[key]?.getD []
  users key := (List.range lists.length).filter fun user => (lists[user]?.getD []).contains key

end DependencyGraph

namespace ProcessingOrder

/-- Whether a key is listed strictly after everything it depends on and strictly before
everything that uses it. -/
def isCorrect (order : ProcessingOrder) (graph : DependencyGraph) (key : NodeKey) : Bool :=
  match order.position? key with
  | none => false
  | some position =>
    (graph.dependencies key).all (fun dependency =>
      (order.position? dependency).any (· < position)) &&
    (graph.users key).all (fun user => (order.position? user).any (position < ·))

end ProcessingOrder

end LayerGraph
