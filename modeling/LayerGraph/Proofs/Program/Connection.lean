import LayerGraph.Proofs.Program.Construction
import LayerGraph.Proofs.Program.Removal
import LayerGraph.Proofs.Program.Replacement

/-!
# Connecting and disconnecting nodes

Each edit of connections is described by when it is refused, in which case nothing changes, and by
what it leaves behind otherwise. All of them keep programs consistent.

Turning a connection around changes two dependency lists (`dependencies_turned`). When there was no
cycle and the connection was the only way from the node to its reader (`Turnable`), no cycle arises, so
that the new order, which is computed afterwards, exists (`Turnable.exists_order`).
-/

namespace LayerGraph.Program

open List

variable {p q : Program} {k o dep user : NodeKey}

/-! ## Wiring of live nodes -/

theorem Consistent.detach (wf : p.Consistent) (k : NodeKey) : (p.detach k).Consistent := by
  have lists := dependencies_detach wf.slots k
  have slots := slotsExact_detach wf.slots k
  rw [detach_rest] at lists slots ⊢
  refine wf.rewired (fun o dep hr => ?_) slots
  rw [lists] at hr
  split at hr
  · cases hr
  · exact wf.reads_live o dep (mem_of_mem_filter hr)

theorem HasValidOrder.detach (valid : p.HasValidOrder)
    (slots : ∀ k, p.SlotsExact k) (k : NodeKey) : (p.detach k).HasValidOrder := by
  refine valid.of_subset (by rw [detach_rest]) fun o => ?_
  rw [dependencies_detach slots]
  split
  · exact nil_subset _
  · exact filter_sublist.subset

/-! ## Edits of connections -/

theorem ends_connect (prev next : NodeKey) : Ends (Edit.connect prev next) p
      (fun _ q => (p.contains prev ∧ p.contains next) ∧ q = p.attach prev next)
      (fun fault left => fault.IsRefusal ∧ left = p ∧ ¬ (p.contains prev ∧ p.contains next)) := by
  rw [Edit.connect]
  exact ends_requireBoth (fun hv => ⟨hv, rfl⟩) fun _ refused missing => ⟨refused, rfl, missing⟩

theorem ends_isolate (k : NodeKey) : Ends (Edit.isolate k) p
      (fun _ q => p.contains k ∧ q = p.detach k)
      (fun fault left => fault.IsRefusal ∧ left = p ∧ ¬ p.contains k) := by
  simp only [Edit.isolate, ends_bind]
  exact ends_requireLive (fun hv => ⟨hv, rfl⟩) fun dead => ⟨⟨not_false, _, rfl⟩, rfl, dead⟩

theorem ends_redirectReaders (old new : NodeKey) : Ends (Edit.redirectReaders old new) p
      (fun _ q => (p.contains old ∧ p.contains new) ∧
        q = p.redirectAll ((p.users old).filter (· != new)) old new)
      (fun fault left => fault.IsRefusal ∧ left = p ∧ ¬ (p.contains old ∧ p.contains new)) := by
  rw [Edit.redirectReaders]
  exact ends_requireBoth (fun hv => ⟨hv, rfl⟩) fun _ refused missing => ⟨refused, rfl, missing⟩

/-- A new order is computed, or there is a cycle and the old one stays. -/
theorem ends_orderDepthFirst : Ends Edit.orderDepthFirst p
      (fun _ q => ∃ order, p.graph.depthFirst p.outputs = .ok order ∧ q = { p with order })
      (fun fault left => left = p ∧ ∃ k, p.graph.depthFirst p.outputs = .error k ∧
          (p.contains k → fault.IsRefusal)) := by
  simp only [Edit.orderDepthFirst, ends_bind, ends_get]
  cases res : p.graph.depthFirst p.outputs with
  | ok order => exact ⟨order, rfl, rfl⟩
  | error k =>
    rw [ends_bind]
    exact ends_nodeAt_or (fun _ _ => ⟨rfl, k, rfl, fun _ => ⟨not_false, _, rfl⟩⟩)
      fun dead => ⟨rfl, k, rfl, fun hv => absurd hv dead⟩

/-! ## Turning a connection around -/

/-- A connection that can be turned around: it is the only way from a node to its reader. -/
structure Turnable (program : Program) (dep user : NodeKey) : Prop where
  depLive : program.contains dep
  userLive : program.contains user
  reads : dep ∈ program.dependencies user
  direct : Edit.hasDetour program dep user = false

/-- The program in which a connection has been turned around, with the order that it had. -/
def turned (program : Program) (dep user : NodeKey) : Program :=
  Edit.updateReversedInputs dep user ((program.separated dep user).attach user dep)

/-- **A connection is turned around, or the program stays as it is.** A new order is computed if there
was one. -/
theorem ends_reverse (dep user : NodeKey) : Ends (Edit.reverse dep user) p
      (fun _ q => p.Turnable dep user ∧ ((p.turned dep user).order.isEmpty ∧ q = p.turned dep user ∨
          ∃ order, (p.turned dep user).graph.depthFirst (p.turned dep user).outputs =
            .ok order ∧ q = { p.turned dep user with order }))
      (fun fault left => fault.IsRefusal ∧ left = p ∧ ¬ p.Turnable dep user ∨
        p.Turnable dep user ∧ left = p.turned dep user ∧
          ∃ k, left.graph.depthFirst left.outputs = .error k ∧
            (left.contains k → fault.IsRefusal)) := by
  rw [Edit.reverse]
  refine ends_requireBoth (fun hv => ?_) fun _ refused missing =>
    .inl ⟨refused, rfl, fun h => missing ⟨h.depLive, h.userLive⟩⟩
  obtain ⟨depNode, foundDep⟩ := contains_iff.mp hv.1
  obtain ⟨userNode, foundUser⟩ := contains_iff.mp hv.2
  simp only [ends_bind, ends_get]
  split
  case isFalse apart =>
    simp only [ends_bind, ends_nodeAt foundDep, ends_nodeAt foundUser, ends_refuse]
    exact .inl ⟨⟨not_false, _, rfl⟩, trivial, fun h => apart (hasEdge_iff.mpr h.reads)⟩
  next joined =>
  split
  · next detour =>
    simp only [ends_bind, ends_nodeAt foundUser, ends_refuse]
    exact .inl ⟨⟨not_false, _, rfl⟩, trivial, fun h => by simp [h.direct] at detour⟩
  next direct =>
  have turnable : p.Turnable dep user := ⟨hv.1, hv.2, hasEdge_iff.mp joined, by simpa using direct⟩
  simp only [ends_bind]
  refine (ends_disconnect dep user).mono ?_ fun _ _ h => absurd hv h.2.2
  rintro _ _ ⟨-, rfl⟩
  simp only [ends_modify, ends_get]
  split
  · next empty => exact ⟨turnable, .inl ⟨empty, rfl⟩⟩
  · refine ends_orderDepthFirst.mono (fun _ _ hk => ⟨turnable, .inr hk⟩) ?_
    rintro _ _ ⟨rfl, cycle⟩
    exact .inr ⟨turnable, rfl, cycle⟩

theorem turned_rest (p : Program) (dep user : NodeKey) :
    p.turned dep user = { p with
      edges := (p.turned dep user).edges
      inputs := (p.turned dep user).inputs } := by
  rw [turned, separated]
  split <;> rfl

theorem dependencies_turned (slots : ∀ k, p.SlotsExact k) (dep user k : NodeKey) :
    (p.turned dep user).dependencies k =
      (if k = user then (p.dependencies k).filter (· != dep)
        else p.dependencies k) ++ if k = dep then [user] else [] := by
  obtain ⟨less, list⟩ := readsLess_separated slots dep user
  show ((p.separated dep user).attach user dep).dependencies k = _
  rw [dependencies_attach (less.slots k)]
  by_cases isUser : k = user
  · subst isUser
    rw [list, if_pos rfl]
    split <;> simp
  · rw [less.others k isUser, if_neg isUser]
    split <;> simp

theorem HasValidOrder.acyclic (valid : p.HasValidOrder) : Acyclic p.dependencies :=
  acyclic_of_before valid.nodup valid.before

/-- A path along dependencies is found. -/
theorem Consistent.leadsTo_of_path (wf : p.Consistent)
    (path : Relation.ReflTransGen (Feeds p.dependencies) k o) : p.leadsTo k o := by
  have users : Relation.ReflTransGen (fun k o => o ∈ p.users k) k o :=
    Relation.ReflTransGen.mono (fun _ _ hr => mem_users_iff.mpr hr) _ _ path
  refine contains_iff_mem.mpr (mem_reach_of_path (fun k o hr => ?_) mem_cons_self users)
  exact wf.mem_keys.mpr (wf.reads_live o k (mem_users_iff.mp hr)).1

namespace Turnable

variable (turnable : p.Turnable dep user)

include turnable

theorem consistent (wf : p.Consistent) : (p.turned dep user).Consistent := by
  obtain ⟨less, -⟩ := readsLess_separated wf.slots dep user
  have contains : ∀ k, p.contains k → (p.separated dep user).contains k := fun k hv => by
      rw [less.rest]
      exact hv
  have userLive := contains user turnable.userLive
  have ht := (less.consistent wf).attach userLive (contains dep turnable.depLive)
  refine ht.withInputs fun k mem => ?_
  have hl := mem_of_mem_filter mem
  split at hl
  · rcases mem_append.mp hl with pre | last
    · exact ht.inputs_live k pre
    · exact mem_singleton.mp last ▸ userLive
  · exact ht.inputs_live k hl

/-- **No cycle arises when a connection is turned around.** -/
theorem acyclic (wf : p.Consistent) (acyclic : Acyclic p.dependencies) :
    Acyclic (p.turned dep user).dependencies := by
  refine acyclic.turnAround turnable.reads (fun k dependency hr => ?_) ?_
  · rw [dependencies_turned wf.slots, mem_append] at hr
    rcases hr with kept | added
    · split at kept
      · obtain ⟨pre, differs⟩ := mem_filter.mp kept
        exact .inl ⟨pre, fun both => by simp [both.1] at differs⟩
      · next differs => exact .inl ⟨kept, fun both => differs both.2⟩
    · split at added
      · next e => exact .inr ⟨mem_singleton.mp added, e⟩
      · cases added
  · intro r hr ne path
    have direct := turnable.direct
    rw [Edit.hasDetour, List.any_eq_false] at direct
    refine direct r (mem_filter.mpr ⟨mem_users_iff.mpr hr, ?_⟩) (wf.leadsTo_of_path path)
    simpa using ne

theorem exists_order (wf : p.Consistent) (acyclic : Acyclic p.dependencies) :
    ∃ order, (p.turned dep user).graph.depthFirst (p.turned dep user).outputs = .ok order := by
  have stays := turnable.consistent wf
  exact stays.wellFormed_graph.exists_depthFirst (DependencyGraph.acyclic_dependenciesOf
    (turnable.acyclic wf acyclic)) _

/-- A connection of a program with a valid order is an edge between listed nodes, so that there is an
order. -/
theorem order_occupied (valid : p.HasValidOrder) : (p.turned dep user).order.isEmpty = false := by
  have pair := valid.before user dep turnable.reads
  rw [turned_rest]
  exact isEmpty_eq_false_iff.mpr (ne_nil_of_mem (pair.subset mem_cons_self))

end Turnable

end LayerGraph.Program
