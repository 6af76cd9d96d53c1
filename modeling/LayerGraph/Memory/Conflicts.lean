import LayerGraph.Memory.Buffers
import LayerGraph.Program.Derivation

/-!
# Memory dependencies

Two nodes have a memory dependency when their buffers may not share storage. With a queue that
works in order, this is so when the ranges of positions in which they are needed meet. With a queue
that does not, positions say nothing: two buffers may share storage only if data flow puts one of
them, with all its readers, before the other.
-/

namespace LayerGraph

def laterPairs {α : Type} : List α → List (α × α)
  | [] => []
  | head :: tail => tail.map (fun later => (head, later)) ++ laterPairs tail

namespace Program

/-- Everything that each of the given nodes depends on, collected along the given keys; `known`
holds what was collected for earlier ones. -/
def collectAncestors (program : Program) (known : List (NodeKey × List NodeKey)) :
    List NodeKey → List (NodeKey × List NodeKey)
  | [] => known
  | key :: rest =>
    let ancestors := (program.dependencies key).foldl (fun found dependency =>
      (dependency :: (List.lookup dependency known).getD []).foldl (fun found ancestor =>
        found.insert ancestor) found) []
    program.collectAncestors ((key, ancestors) :: known) rest

/-- Everything that each node depends on, collected in processing order. -/
def ancestors (program : Program) : List (NodeKey × List NodeKey) :=
  program.collectAncestors [] program.order.toList

end Program

namespace Buffer

/-- Whether the second of two buffers, which comes later, is written while the first is needed. -/
def overlaps (earlier later : Buffer) : Bool := later.start ≤ earlier.stop

/-- Whether data flow puts one buffer and all its readers before the owner of another one. -/
def precedes (ancestors : List (NodeKey × List NodeKey)) (first second : Buffer) : Bool :=
  match List.lookup second.owner ancestors with
  | none => false
  | some above =>
    !first.isKept && above.contains first.owner && first.readers.all above.contains

/-- Whether data flow leaves open which of two buffers is needed first. -/
def isUnordered (ancestors : List (NodeKey × List NodeKey)) (first second : Buffer) : Bool :=
  !precedes ancestors first second && !precedes ancestors second first

end Buffer

namespace Program

/-- The owners of each two buffers between which there is a conflict. -/
def ownersInConflict (conflict : Buffer → Buffer → Bool) (buffers : List Buffer) :
    List (NodeKey × NodeKey) :=
  ((laterPairs buffers).filter fun pair => conflict pair.1 pair.2).map fun pair =>
    (pair.1.owner, pair.2.owner)

def conflictingPairs (program : Program) (strategy : MemoryStrategy) :
    Checked (List (NodeKey × NodeKey)) := do
  let buffers ← program.buffers (strategy != .basic)
  match strategy with
  | .outOfOrderAware => return ownersInConflict (Buffer.isUnordered program.ancestors) buffers
  | _ => return ownersInConflict Buffer.overlaps buffers

end Program

namespace Edit

def computeConflicts (strategy : MemoryStrategy) : Edit Unit := do
  modify (·.clearConflicts)
  let pairs ← ((← get).conflictingPairs strategy).lift
  modify fun program => pairs.foldl (fun program pair => program.addConflict pair.1 pair.2) program

end Edit

end LayerGraph
