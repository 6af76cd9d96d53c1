import LayerGraph.Order.Dependencies

/-!
# Breadth-first order

The breadth-first order regroups an order by level. The level of a key is its distance from the
nearest key without dependencies (`levels`). Keys take their turns level by level, and within a
level in their previous order.

A key whose dependencies are all listed when its turn comes is listed at once. Any other key waits
for each dependency that is missing. When the last of them is listed the key is released: it is
listed right after it, and followed directly by the keys that it releases in turn (`Turn.release`).
-/

namespace LayerGraph

/-- Puts an element before the first one whose rank is not smaller. -/
def insertByRank {α : Type} (rank : α → Nat) (element : α) : List α → List α
  | [] => [element]
  | head :: tail =>
    if rank element ≤ rank head then element :: head :: tail
    else head :: insertByRank rank element tail

/-- Sorts a list by rank; elements of equal rank keep their order. -/
def sortByRank {α : Type} (rank : α → Nat) : List α → List α
  | [] => []
  | head :: tail => insertByRank rank head (sortByRank rank tail)

namespace DependencyGraph

/-- Keys that are about to be given a level. -/
structure Wave where
  level : Nat
  pending : List NodeKey
deriving DecidableEq

def queueWeight : List Wave → Nat
  | [] => 0
  | wave :: rest => 2 * wave.pending.length + 1 + queueWeight rest

/-- A wave at the end of a queue. -/
theorem queueWeight_append (queue : List Wave) (wave : Wave) :
    queueWeight (queue ++ [wave]) = queueWeight queue + (2 * wave.pending.length + 1) := by
  induction queue with
  | nil => simp [queueWeight]
  | cons head tail ih =>
    simp only [List.cons_append, queueWeight, ih]
    omega

def levelOf? (levels : List (NodeKey × Nat)) (key : NodeKey) : Option Nat :=
  List.lookup key levels

/-- Gives a level to every key that can be reached from a queue of waves. `reached` holds the keys
that have a level. -/
def spread (graph : DependencyGraph) (queue : List Wave) (reached : List NodeKey)
    (levels : List (NodeKey × Nat)) : List (NodeKey × Nat) :=
  match queue with
  | [] => levels
  | ⟨_, []⟩ :: rest => graph.spread rest reached levels
  | ⟨level, key :: pending⟩ :: rest =>
    if _seen : key ∈ reached then graph.spread (⟨level, pending⟩ :: rest) reached levels
    else if _listed : key ∈ graph.keys then
      graph.spread (⟨level, pending⟩ :: (rest ++ [⟨level + 1, graph.users key⟩]))
        (key :: reached) ((key, level) :: levels)
    else graph.spread (⟨level, pending⟩ :: rest) reached levels
termination_by unvisitedWeight graph.users reached graph.keys + queueWeight queue
decreasing_by
  · simp only [queueWeight]
    omega
  · simp only [queueWeight, List.length_cons]
    omega
  · have visit := unvisitedWeight_visit graph.users _listed _seen
    simp only [queueWeight, queueWeight_append, List.length_cons]
    omega
  · simp only [queueWeight, List.length_cons]
    omega

/-- The level of every key that can be reached from a key without dependencies among those
given. -/
def levels (graph : DependencyGraph) (keys : List NodeKey) : List (NodeKey × Nat) :=
  let sources := keys.filter fun key => (graph.dependencies key).isEmpty
  graph.spread (sources.map fun key => ⟨1, graph.users key⟩) sources
    (sources.map fun key => (key, 0))

/-- The keys in the order in which they take their turns: by level, those without a level last. -/
def turns (graph : DependencyGraph) (keys : List NodeKey) : List NodeKey :=
  let levels := graph.levels keys
  sortByRank (fun key => (levelOf? levels key).getD (levels.length + 1)) keys

/-- Where the listing stands: what is listed, how many dependencies each waiting key still waits
for, and who waits for whom, in the order of their turns. -/
structure Turn where
  listed : List NodeKey
  missing : List (NodeKey × Nat)
  waiting : List (NodeKey × NodeKey)
deriving DecidableEq

namespace Turn

def waitingFor (turn : Turn) (key : NodeKey) : List NodeKey :=
  (turn.waiting.filter (·.1 == key)).map Prod.snd

/-- Lists a key; those that wait for it are taken out of the waiting list. -/
def list (turn : Turn) (key : NodeKey) : Turn :=
  { turn with
    listed := turn.listed ++ [key]
    waiting := turn.waiting.filter (·.1 != key) }

/-- Moving those who wait for a key out of the waiting list loses nobody. -/
theorem length_waiting (turn : Turn) (key : NodeKey) :
    (turn.list key).waiting.length + (turn.waitingFor key).length = turn.waiting.length := by
  simp only [list, waitingFor, List.length_map]
  induction turn.waiting with
  | nil => rfl
  | cons head tail ih =>
    by_cases same : head.1 = key
    · simp only [same, List.filter_cons, bne_self_eq_false, Bool.false_eq_true, if_false,
        BEq.rfl, if_true, List.length_cons]
      omega
    · have differs : (head.1 != key) = true := by simpa using same
      have unequal : (head.1 == key) = false := by simpa using same
      simp only [List.filter_cons, differs, unequal, Bool.false_eq_true, if_false, if_true,
        List.length_cons]
      omega

/-- Notes that one of the dependencies a key waits for is listed. -/
def countDown (turn : Turn) (key : NodeKey) : Turn :=
  { turn with
    missing := turn.missing.map fun entry =>
      if entry.1 == key then (key, entry.2 - 1) else entry }

def forget (turn : Turn) (key : NodeKey) : Turn :=
  { turn with missing := turn.missing.filter (·.1 != key) }

/-- Tells keys, one after the other, that a dependency of theirs is listed. A key that waits for
nothing else is listed, and those who wait for it are told next. -/
def release (turn : Turn) (told : List NodeKey) : Turn :=
  match told with
  | [] => turn
  | key :: rest =>
    match List.lookup key turn.missing with
    | none => turn.release rest
    | some count =>
      if count ≤ 1 then
        ((turn.forget key).list key).release ((turn.forget key).waitingFor key ++ rest)
      else (turn.countDown key).release rest
termination_by turn.waiting.length + told.length
decreasing_by
  · simp
  · have moved := (turn.forget key).length_waiting key
    have same : (turn.forget key).waiting = turn.waiting := rfl
    rw [same] at moved
    simp only [List.length_append, List.length_cons]
    omega
  · simp [countDown]

def take (graph : DependencyGraph) (turn : Turn) (key : NodeKey) : Turn :=
  let absent := (graph.dependencies key).eraseDups.filter (· ∉ turn.listed)
  if absent.isEmpty then (turn.list key).release (turn.waitingFor key)
  else
    { turn with
      missing := (key, absent.length) :: turn.missing
      waiting := turn.waiting ++ absent.map fun dependency => (dependency, key) }

end Turn

/-- The breadth-first order of the keys that an order lists, or of all keys when it lists none.
Keys that wait for ever lie on a cycle or behind one; they are listed at the end. -/
def breadthFirst (graph : DependencyGraph) (order : ProcessingOrder) : ProcessingOrder :=
  let keys := if order.isEmpty then graph.keys else order.toList
  let turn := (graph.turns keys).foldl (Turn.take graph) ⟨[], [], []⟩
  keys.foldl ProcessingOrder.push ⟨turn.listed⟩

end DependencyGraph

end LayerGraph
