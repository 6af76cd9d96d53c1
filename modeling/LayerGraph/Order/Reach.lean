import LayerGraph.Order.Dependencies

/-!
# Reachability

`reach next keys pending visited` adds to `visited` every key that can be reached from the pending
ones by following `next` along keys of the list `keys`. It is the one traversal behind questions of
the form "which keys lead here" and "which keys are led to".
-/

namespace LayerGraph

/-- The visited keys together with all keys reachable from the pending ones. -/
def reach (next : NodeKey → List NodeKey) (keys pending visited : List NodeKey) :
    List NodeKey :=
  match pending with
  | [] => visited
  | key :: rest =>
    if _seen : key ∈ visited then reach next keys rest visited
    else if _listed : key ∈ keys then reach next keys (next key ++ rest) (key :: visited)
    else reach next keys rest (key :: visited)
termination_by unvisitedWeight next visited keys + pending.length
decreasing_by
  · simp
  · have visit := unvisitedWeight_visit next _listed _seen
    simp only [List.length_append, List.length_cons]
    omega
  · have visit := unvisitedWeight_cons_le next key visited keys
    simp only [List.length_cons]
    omega

end LayerGraph
