import LayerGraph.Proofs.Order.DepthFirst

/-!
# The depth-first order by recursion

Without cycles the depth-first order can be computed by recursion along dependencies. A visit passes
over a key that has been visited. Otherwise it visits the dependencies of the key in slot order and
lists the key after them (`visit`).

The walk with its path of frames does the same: frames are visits that have begun, and what is pending
in a frame its visit has not come to yet. A key that was entered and is not listed depends on the key
on top of the path, so it would close a cycle if it came up again. What a visit enters it lists, so
nothing else is left open when it ends (`Tour.Closes`).
-/

namespace LayerGraph.DependencyGraph

open List Relation

variable {graph : DependencyGraph} {key : NodeKey}

/-- Without cycles, going on from keys to their dependencies comes to an end. -/
theorem WellFormed.wellFounded_feeds (wellFormed : graph.WellFormed)
    (acyclic : Acyclic graph.dependenciesOf) : WellFounded (Feeds graph.dependenciesOf) := by
  obtain ⟨order, found⟩ := wellFormed.exists_depthFirst acyclic []
  obtain ⟨topological, listed⟩ := depthFirst_isTopological wellFormed.closed (nil_subset _) found
  refine ⟨fun key => ⟨key, fun dep hr => ?_⟩⟩
  have inside := dependenciesOf_closed wellFormed.closed key (mem_keys_of_feeds hr) dep hr
  exact topological.induction (fun k _ earlier => ⟨k, earlier⟩) dep ((listed dep).mpr inside)

/-- The keys that have been visited, and those that have been listed. -/
structure Tour where
  visited : List NodeKey := []
  listed : List NodeKey := []

def Tour.enter (tour : Tour) (key : NodeKey) : Tour := { tour with visited := key :: tour.visited }

def Tour.leave (tour : Tour) (key : NodeKey) : Tour := { tour with listed := tour.listed ++ [key] }

section Visits

/-- Visits a key: its dependencies in slot order, and then the key itself is listed. -/
def visit (ends : WellFounded (Feeds graph.dependenciesOf)) (tour : Tour) (key : NodeKey) : Tour :=
  if key ∈ tour.visited then tour
  else ((graph.dependenciesOf key).attach.foldl
    (fun tour dependency => visit ends tour dependency.val) (tour.enter key)).leave key
termination_by ends.wrap key
decreasing_by exact dependency.property

/-- Visits the roots, and then the keys that nothing uses. -/
def postorder (ends : WellFounded (Feeds graph.dependenciesOf)) (roots : List NodeKey) : List NodeKey :=
  ((roots ++ graph.sinks).foldl (visit ends) {}).listed

variable {ends : WellFounded (Feeds graph.dependenciesOf)} {tour after : Tour}

theorem visit_of_mem (seen : key ∈ tour.visited) : visit ends tour key = tour := by
  rw [visit, if_pos seen]

theorem visit_of_not_mem (fresh : key ∉ tour.visited) : visit ends tour key =
    ((graph.dependenciesOf key).foldl (visit ends) (tour.enter key)).leave key := by
  rw [visit, if_neg fresh, foldl_attach]

/-- Visits list all that they enter: what is open after them was open before. -/
structure Tour.Closes (tour after : Tour) : Prop where
  entered : after.listed ⊆ after.visited
  still : ∀ key ∈ after.visited, key ∉ after.listed → key ∈ tour.visited ∧ key ∉ tour.listed
  grows : tour.visited ⊆ after.visited

theorem Tour.Closes.trans {mid : Tour} (first : tour.Closes mid) (second : mid.Closes after) :
    tour.Closes after where
  entered := second.entered
  still key seen unlisted := (second.still key seen unlisted).elim (first.still key)
  grows := List.Subset.trans first.grows second.grows

theorem Tour.Closes.leave (closes : (tour.enter key).Closes after) : tour.Closes (after.leave key) where
  entered := append_subset.mpr
    ⟨closes.entered, cons_subset.mpr ⟨closes.grows mem_cons_self, nil_subset _⟩⟩
  still o seen unlisted := by
    simp only [Tour.leave, mem_append, mem_singleton, not_or] at unlisted
    obtain ⟨entered, fresh⟩ := closes.still o seen unlisted.1
    exact ⟨(mem_cons.mp entered).resolve_left unlisted.2, fresh⟩
  grows := (cons_subset.mp closes.grows).2

/-- **A frame of the walk is a visit under way.** The walk goes through what is pending in it as visits
do, and then lists its key. -/
theorem walk_visits (acyclic : Acyclic graph.dependenciesOf) (pending : List NodeKey)
    (rest : List Frame) (reads : pending ⊆ graph.dependenciesOf key)
    (entered : tour.listed ⊆ tour.visited) (opened : ∀ o ∈ tour.visited, o ∉ tour.listed →
      ReflTransGen (Feeds graph.dependenciesOf) key o) :
    let after := pending.foldl (visit ends) tour
    graph.walk (⟨key, pending⟩ :: rest) tour.visited tour.listed.reverse =
      graph.walk rest after.visited (after.leave key).listed.reverse ∧ tour.Closes after := by
  -- Deeper frames belong to dependencies; within a frame, the induction is on what is pending.
  induction key using ends.induction generalizing tour pending rest with
  | _ key deeper =>
  induction pending generalizing tour with
  | nil =>
    rw [walk]
    exact ⟨by simp [Tour.leave], entered, fun _ seen fresh => ⟨seen, fresh⟩, fun _ h => h⟩
  | cons dep pending ih =>
    obtain ⟨hr, reads⟩ := cons_subset.mp reads
    rw [walk, foldl_cons]
    by_cases seen : dep ∈ tour.visited
    · have listed : dep ∈ tour.listed := by
        by_contra unlisted
        exact acyclic dep (.head' hr (opened dep seen unlisted))
      rw [visit_of_mem seen, if_pos (mem_reverse.mpr listed)]
      exact ih reads entered opened
    · have unlisted : dep ∉ tour.listed.reverse := fun mem => seen (entered (mem_reverse.mp mem))
      obtain ⟨walked, closes⟩ := @deeper dep hr (tour.enter dep) (graph.dependenciesOf dep)
        (⟨key, pending⟩ :: rest) (List.Subset.refl _) (subset_cons_of_subset _ entered) (by
          intro o seen fresh
          obtain rfl | seen := mem_cons.mp seen
          · exact .refl
          · exact .head hr (opened o seen fresh))
      rw [if_neg unlisted, dif_neg seen, enter]
      obtain ⟨continued, more⟩ := ih reads closes.leave.entered fun o seen fresh =>
        (closes.leave.still o seen fresh).elim (opened o)
      rw [visit_of_not_mem seen]
      exact ⟨walked.trans continued, closes.leave.trans more⟩

/-- Walking from one start after the other is visiting them. -/
theorem walkAll_visits (acyclic : Acyclic graph.dependenciesOf) (starts : List NodeKey)
    (entered : tour.listed ⊆ tour.visited) (settled : tour.visited ⊆ tour.listed) :
    graph.walkAll starts tour.visited tour.listed.reverse =
      .ok ((starts.foldl (visit ends) tour).visited,
        (starts.foldl (visit ends) tour).listed.reverse) := by
  induction starts generalizing tour with
  | nil => rfl
  | cons start rest ih =>
    rw [walkAll, foldl_cons]
    by_cases seen : start ∈ tour.visited
    · rw [if_pos seen, visit_of_mem seen]
      exact ih entered settled
    · obtain ⟨walked, closes⟩ := @walk_visits _ start ends (tour.enter start) acyclic
        (graph.dependenciesOf start) [] (List.Subset.refl _) (subset_cons_of_subset _ entered) (by
          intro o seen fresh
          obtain rfl | seen := mem_cons.mp seen
          · exact .refl
          · exact absurd (settled seen) fresh)
      have done := ih closes.leave.entered fun o seen => by
        by_contra fresh
        obtain ⟨before, unlisted⟩ := closes.leave.still o seen fresh
        exact unlisted (settled before)
      rw [if_neg seen, visit_of_not_mem seen]
      rw [walk] at walked
      exact (congrArg (· >>= _) walked).trans done

end Visits

end LayerGraph.DependencyGraph
