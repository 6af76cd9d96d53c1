import LayerGraph.Order.Dependencies

/-!
# Depth-first order

The depth-first order lists every key after its dependencies. It walks from the given roots, and
then from every key that nothing uses, along dependencies in slot order, and lists a key when it
leaves it. The path from the root to the current key is kept on a stack of frames, each with the
dependencies that are still to be walked to.

Meeting a key on the current path is a cycle through that key. A key that is never met lies on a
cycle too, or leads to one: everything that uses it is used itself.
-/

namespace LayerGraph.DependencyGraph

/-- A key on the current path, with the dependencies still to be walked to. -/
structure Frame where
  key : NodeKey
  pending : List NodeKey
deriving DecidableEq

def pathWeight : List Frame → Nat
  | [] => 0
  | frame :: rest => 2 * frame.pending.length + 1 + pathWeight rest

def enter (graph : DependencyGraph) (key : NodeKey) : Frame := ⟨key, graph.dependenciesOf key⟩

/-- Entering a key for the first time takes away more weight than its frame adds. -/
theorem weight_enter (graph : DependencyGraph) {key : NodeKey} {visited : List NodeKey}
    (fresh : key ∉ visited) (path : List Frame) :
    unvisitedWeight graph.dependencies (key :: visited) graph.keys +
        pathWeight (graph.enter key :: path) ≤
      unvisitedWeight graph.dependencies visited graph.keys + pathWeight path + 1 := by
  by_cases listed : key ∈ graph.keys
  · have visit := unvisitedWeight_visit graph.dependencies listed fresh
    simp only [pathWeight, enter, dependenciesOf, listed, if_true]
    omega
  · have visit := unvisitedWeight_cons_le graph.dependencies key visited graph.keys
    simp only [pathWeight, enter, dependenciesOf, listed, if_false, List.length_nil]
    omega

/-- Walks the current path to its end. `visited` holds every key that was entered, and `listed`
those that were left again, last first. The result is what both have become, or a key on a
cycle. -/
def walk (graph : DependencyGraph) (path : List Frame) (visited listed : List NodeKey) :
    Except NodeKey (List NodeKey × List NodeKey) :=
  match path with
  | [] => .ok (visited, listed)
  | ⟨key, []⟩ :: rest => graph.walk rest visited (key :: listed)
  | ⟨key, dependency :: pending⟩ :: rest =>
    if dependency ∈ listed then graph.walk (⟨key, pending⟩ :: rest) visited listed
    else if _seen : dependency ∈ visited then .error dependency
    else
      graph.walk (graph.enter dependency :: ⟨key, pending⟩ :: rest) (dependency :: visited) listed
termination_by
  unvisitedWeight graph.dependencies visited graph.keys + pathWeight path
decreasing_by
  · simp only [pathWeight]
    omega
  · simp only [pathWeight, List.length_cons]
    omega
  · have entering := graph.weight_enter _seen (⟨key, pending⟩ :: rest)
    simp only [pathWeight, List.length_cons] at entering ⊢
    omega

/-- Walks from one key after the other, passing over those that were visited already. -/
def walkAll (graph : DependencyGraph) :
    List NodeKey → List NodeKey → List NodeKey → Except NodeKey (List NodeKey × List NodeKey)
  | [], visited, listed => .ok (visited, listed)
  | start :: rest, visited, listed =>
    if start ∈ visited then graph.walkAll rest visited listed
    else do
      let (visited, listed) ← graph.walk [graph.enter start] (start :: visited) listed
      graph.walkAll rest visited listed

def sinks (graph : DependencyGraph) : List NodeKey :=
  graph.keys.filter fun key => (graph.users key).isEmpty

/-- The depth-first order from the given roots, or a key on a cycle. -/
def depthFirst (graph : DependencyGraph) (roots : List NodeKey) :
    Except NodeKey ProcessingOrder := do
  let (visited, listed) ← graph.walkAll (roots ++ graph.sinks) [] []
  match graph.keys.find? (· ∉ visited) with
  | some stray => throw stray
  | none => return ⟨listed.reverse⟩

/-- Computes an order anew, depth first from the given roots. When there is a cycle the order stays
as it is. -/
def orderDepthFirst (graph : DependencyGraph) (roots : List NodeKey) :
    EStateM NodeKey ProcessingOrder Unit :=
  match graph.depthFirst roots with
  | .ok order => set order
  | .error key => throw key

end LayerGraph.DependencyGraph
