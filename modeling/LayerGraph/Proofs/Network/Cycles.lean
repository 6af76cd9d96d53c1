import LayerGraph.Proofs.Network.Confluence
import LayerGraph.Proofs.Pass.Setup

/-!
# Cycles in networks

Whether there are cycles can be told from the network (`Program.Consistent.acyclic_iff`). A depth-first
order can be made if and only if there are none (`Program.Consistent.orderDepthFirst`). A breadth-first
order is there in any case, but when there are cycles some node stands at a wrong place in it
(`Program.Consistent.acyclic_of_placed`).
-/

namespace LayerGraph

open DependencyGraph Relation.TransGen

namespace Network

/-- Nothing depends on itself. -/
def Acyclic (net : Network) : Prop := ∀ id, ¬ Relation.TransGen net.Reads id id

end Network

namespace Program

variable {p q : Program} {key : NodeKey} {node : Node}

theorem Consistent.acyclic_iff (wf : p.Consistent) :
    p.network.Acyclic ↔ LayerGraph.Acyclic p.dependencies := by
  constructor
  · intro acyclic key path
    have step : ∀ dep r, Feeds p.dependencies dep r → Function.swap p.network.Reads (p.idOf dep) (p.idOf
        r) := fun _ _ hr => wf.reads_of_dependency hr
    exact acyclic _ (Relation.transGen_swap.mp (lift p.idOf step _ _ path))
  · intro acyclic id path
    obtain ⟨src, hr, -⟩ := head'_iff.mp path
    obtain ⟨key, hv, rfl⟩ := wf.has_iff_contains.mp ⟨hr.choose, hr.choose_spec.1⟩
    obtain ⟨dep, alive, e, feeds⟩ := wf.exists_feeds hv path
    rw [wf.idOf_inj alive hv] at e
    exact acyclic key (e ▸ feeds)

theorem Sound.acyclic (hs : p.Sound) : p.network.Acyclic :=
  hs.consistent.acyclic_iff.mpr (acyclic_of_before hs.complete.nodup hs.complete.before)

/-- What has been set up has no other edges than before. -/
theorem Prepares.acyclic (prep : Prepares p q) (wf : p.Consistent)
    (after : q.Consistent) (acyclic : p.network.Acyclic) : q.network.Acyclic := by
  rw [after.acyclic_iff]
  rw [wf.acyclic_iff] at acyclic
  intro key path
  refine acyclic key (mono (fun dep r hr => ?_) _ _ path)
  have hv := (after.reads_live r dep hr).2
  rw [Feeds, ← prep.reads r hv]
  exact hr

theorem Consistent.exists_depthFirst (wf : p.Consistent) (acyclic : p.network.Acyclic) :
    ∃ order, p.graph.depthFirst p.outputs = .ok order :=
  wf.wellFormed_graph.exists_depthFirst (acyclic_dependenciesOf (wf.acyclic_iff.mp
    acyclic)) _

/-- **The first order is made if and only if there are no cycles.** -/
theorem Consistent.orderDepthFirst (wf : p.Consistent) : Ensures Edit.orderDepthFirst p
      (fun _ next => next.Sound ∧ Prepares p next ∧ ∃ order, next = { p with order })
      fun _ => ¬ p.network.Acyclic := by
  have orders := ensures_orderDepthFirst wf
  simp only [Edit.orderDepthFirst, ensures_bind, ensures_get] at orders ⊢
  cases result : p.graph.depthFirst p.outputs with
  | ok order =>
    rw [result] at orders
    exact ⟨orders.1, orders.2, order, rfl⟩
  | error key =>
    have cyclic : ¬ p.network.Acyclic := by
      intro acyclic
      obtain ⟨order, hf⟩ := wf.exists_depthFirst acyclic
      rw [result] at hf
      cases hf
    have hl := depthFirst_error_mem wf.keys_closed wf.outputs_subset_keys result
    obtain ⟨node, hf⟩ := contains_iff.mp (wf.mem_keys.mp hl)
    simp [ensures_nodeAt hf, cyclic]

section BreadthFirst

variable (wf : p.Consistent) (unordered : p.order.toList = [])
include wf unordered

omit wf in
/-- Without an order, the breadth-first order starts from all keys. -/
theorem keys_eq_of_unordered : p.keys =
    if p.order.isEmpty then p.graph.keys else p.order.toList := by
  rw [ProcessingOrder.isEmpty, unordered]
  rfl

theorem Consistent.mem_orderBreadthFirst :
    key ∈ p.orderBreadthFirst.order.toList ↔ p.contains key := by
  rw [← wf.mem_keys]
  exact (breadthFirst_nodup (keys_eq_of_unordered unordered) wf.keys_nodup).2 key

/-- **Without cycles the breadth-first order of all nodes is complete.** -/
theorem Consistent.sound_orderBreadthFirst (acyclic : p.network.Acyclic) :
    p.orderBreadthFirst.Sound := by
  obtain ⟨order, hf⟩ := wf.exists_depthFirst acyclic
  obtain ⟨kept, complete⟩ := wf.depthFirst hf
  have arranged : IsTopological p.graph.dependencies order.toList :=
    complete.toHasValidOrder.isTopological
  obtain ⟨topological, hl⟩ := breadthFirst_isTopological
    (keys_eq_of_unordered unordered) wf.keys_nodup arranged fun key =>
      (complete.complete key).trans wf.mem_keys.symm
  refine ⟨wf.orderBreadthFirst, ⟨topological.nodup, ?_⟩, fun key => ?_⟩
  · intro key dep hr
    refine topological.before key ?_ dep hr
    exact (wf.mem_orderBreadthFirst unordered).mpr (wf.reads_live key dep hr).2
  · exact wf.mem_orderBreadthFirst unordered

end BreadthFirst

/-- When all nodes are listed and none of them stands at a wrong place, there are no cycles. -/
theorem Consistent.acyclic_of_placed (wf : p.Consistent)
    (hl : ∀ key, p.contains key → key ∈ p.order.toList)
    (placed : p.firstMisplaced? = none) : p.network.Acyclic := by
  rw [firstMisplaced?, List.find?_eq_none] at placed
  have smaller : ∀ dep key, Feeds p.dependencies dep key → ∃ earlier later, p.order.position? dep = some
      earlier ∧ p.order.position? key = some later ∧ earlier < later := by
    intro dep key hr
    have correct := placed key (hl key (wf.reads_live key dep hr).2)
    simp only [isOrderCorrect, ProcessingOrder.isCorrect, Bool.not_eq_true, Bool.not_eq_false'] at correct
    split at correct
    · cases correct
    · next pos place =>
      rw [Bool.and_eq_true, List.all_eq_true] at correct
      obtain ⟨earlier, placeToo, isSmaller⟩ := (Option.any_eq_true _ _).mp (correct.1 dep hr)
      exact ⟨earlier, pos, placeToo, place, of_decide_eq_true isSmaller⟩
  rw [wf.acyclic_iff]
  intro key path
  have ordered : ∀ a last, Relation.TransGen (Feeds p.dependencies) a last → ∃ earlier later,
      p.order.position? a = some earlier ∧ p.order.position? last = some later ∧ earlier < later := by
    intro a last path
    induction path with
    | single hr => exact smaller _ _ hr
    | tail _ hr ih =>
      obtain ⟨earlier, mid, place, placeMiddle, isSmaller⟩ := ih
      obtain ⟨e, later, placeSame, placeLater, isSmallerToo⟩ := smaller _ _ hr
      cases placeMiddle.symm.trans placeSame
      exact ⟨earlier, later, place, placeLater, isSmaller.trans isSmallerToo⟩
  obtain ⟨earlier, later, place, placeToo, isSmaller⟩ := ordered key key path
  cases place.symm.trans placeToo
  exact absurd isSmaller (Nat.lt_irrefl _)

end Program

end LayerGraph
