import LayerGraph.Proofs.Program.Outcome
import Mathlib.Logic.Equiv.Basic

/-!
# Renaming nodes

A node is given another id, or two nodes exchange theirs. The names follow, so that looking an id up
still finds the node that has it. Nothing else changes.
-/

namespace LayerGraph.Program

open Option

variable {p q : Program} {k a b : NodeKey} {n one o : Node} {id : String}

/-! ## One node -/

theorem node?_renameNode (p : Program) (k : NodeKey) (n : Node) (id : String) (place : NodeKey) :
    (p.renameNode k n id).node? place = if place = k then (p.node? place).map (·.withId id) else p.node?
    place :=
  node?_modifyNode _ k place _

/-- **A node can be given an id that no other node has.** -/
theorem Consistent.renameNode (wf : p.Consistent)
    (hk : p.node? k = some n) (unused : p.keyOf? id = none) : (p.renameNode k n id).Consistent := by
  have free := wf.keyOf?_eq_none.mp unused
  have nodes := p.node?_renameNode k n id
  have names : (p.renameNode k n id).names =
      p.names.map fun entry => (if entry.2 = k then id else entry.1, entry.2) := by
    refine List.map_congr_left fun entry mem => ?_
    simp only [beq_iff_eq, wf.name_iff hk mem]
    split
    · next e => rw [e]
    · rfl
  refine wf.relabelled rfl (wf.store.modify k _) (fun place => ?_) ?_ fun o place => ?_
  · rw [nodes]
    split
    · rw [map_map]
      rfl
    · rfl
  · -- The new id is not among the old ones, so no id appears twice.
    rw [names, List.map_map]
    refine wf.names_nodup.of_map.map_on fun left inLeft right inRight e => ?_
    obtain ⟨one, foundOne, namedOne⟩ := (wf.mem_names left.1 left.2).mp inLeft
    obtain ⟨two, foundTwo, namedTwo⟩ := (wf.mem_names right.1 right.2).mp inRight
    simp only [Function.comp_apply, ← namedOne, ← namedTwo] at e
    have same : left.2 = right.2 := by
      split at e
      · split at e
        · next isLeft isRight => exact isLeft.trans isRight.symm
        · exact absurd e.symm (free right.2 two foundTwo)
      · split at e
        · exact absurd e (free left.2 one foundOne)
        · exact wf.key_eq_of_id_eq foundOne foundTwo e
    cases (same ▸ foundOne).symm.trans foundTwo
    exact Prod.ext (namedOne.symm.trans namedTwo) same
  · rw [names, List.mem_map, nodes]
    constructor
    · rintro ⟨entry, mem, ⟨⟩⟩
      obtain ⟨holder, foundHolder, named⟩ := (wf.mem_names entry.1 entry.2).mp mem
      split
      · exact ⟨_, congrArg _ foundHolder, rfl⟩
      · exact ⟨holder, foundHolder, named⟩
    · rintro ⟨renamed, foundRenamed, rfl⟩
      split at foundRenamed
      · next e =>
        obtain ⟨holder, foundHolder, rfl⟩ := map_eq_some_iff.mp foundRenamed
        exact ⟨(holder.id, place), (wf.mem_names _ _).mpr ⟨holder, foundHolder, rfl⟩, by
          rw [if_pos e]; rfl⟩
      · next e =>
        exact ⟨(renamed.id, place), (wf.mem_names _ _).mpr ⟨renamed, foundRenamed, rfl⟩, by
          rw [if_neg e]⟩

/-- A node is renamed, or the program stays as it is. -/
theorem ends_rename (k : NodeKey) (id : String) : Ends (Edit.rename k id) p
      (fun _ q => ∃ n, p.node? k = some n ∧ (q = p ∨ p.keyOf? id = none ∧ q = p.renameNode k n id))
      (fun fault left => fault.IsRefusal ∧ left = p) := by
  simp only [Edit.rename, ends_bind]
  refine ends_requireLive (fun hv => ?_) fun _ => ⟨⟨not_false, _, rfl⟩, rfl⟩
  obtain ⟨n, hk⟩ := contains_iff.mp hv
  rw [ends_get]
  split
  · split
    · exact ⟨n, hk, .inl rfl⟩
    · exact ⟨⟨not_false, _, rfl⟩, rfl⟩
  · next unused =>
    simp only [ends_bind, ends_nodeAt hk]
    split
    · exact ⟨⟨not_false, _, rfl⟩, rfl⟩
    · exact ⟨n, hk, .inr ⟨unused, rfl⟩⟩

/-! ## Two nodes -/

theorem node?_exchangeNodeIds (p : Program) (a b : NodeKey)
    (firstId secondId : String) (place : NodeKey) :
    (p.exchangeNodeIds a b firstId secondId).node? place = (p.node? place).map fun n =>
        if place = b then n.withId firstId
        else if place = a then n.withId secondId else n := by
  rw [exchangeNodeIds, node?_modifyNode, node?_modifyNode]
  have kept : ((p.repoint firstId b).repoint secondId a).node? place = p.node? place := rfl
  rw [kept]
  by_cases isSecond : place = b
  · by_cases isFirst : place = a
    · simp only [isSecond, if_true, if_pos (isSecond.symm.trans isFirst), map_map]
      rfl
    · simp only [if_pos isSecond, if_neg isFirst]
  · by_cases isFirst : place = a
    · simp only [if_neg isSecond, if_pos isFirst]
    · simp only [if_neg isSecond, if_neg isFirst]
      exact map_id'.symm

open Equiv in
/-- **Two nodes can exchange their ids.** They may be the same node. -/
theorem Consistent.exchangeNodeIds (wf : p.Consistent)
    (foundFirst : p.node? a = some one) (foundSecond : p.node? b = some o) :
    (p.exchangeNodeIds a b one.id o.id).Consistent := by
  have nodes := p.node?_exchangeNodeIds a b one.id o.id
  have ids : ∀ place, ((p.exchangeNodeIds a b one.id o.id).node? place).map Node.id =
      (p.node? (swap a b place)).map Node.id := by
    intro place
    rw [nodes, map_map, swap_comm, swap_apply_def]
    split
    · next isSecond =>
      rw [isSecond, foundSecond, foundFirst]
      rfl
    · split
      · next isFirst =>
        rw [isFirst, foundSecond, foundFirst]
        rfl
      · rfl
  -- Every id keeps its place among the names and stands for the other key.
  have names : (p.exchangeNodeIds a b one.id o.id).names =
      p.names.map fun entry => (entry.1, swap a b entry.2) := by
    have names : (p.exchangeNodeIds a b one.id o.id).names =
        (p.names.map fun entry => if entry.1 == one.id then (one.id, b) else entry).map
          fun entry => if entry.1 == o.id then (o.id, a) else entry := rfl
    rw [names, List.map_map]
    refine List.map_congr_left fun entry mem => ?_
    have isFirst := wf.name_iff foundFirst mem
    have isSecond := wf.name_iff foundSecond mem
    simp only [Function.comp_apply, beq_iff_eq, isFirst, swap_apply_def]
    split
    · next first =>
      rw [isFirst.mpr first]
      split
      · next e => exact Prod.ext e.symm (wf.key_eq_of_id_eq foundFirst foundSecond e)
      · rfl
    · simp only [isSecond]
      split
      · next second => rw [isSecond.mpr second]
      · rfl
  refine wf.relabelled rfl ((wf.store.modify _ _).modify _ _) (fun place => ?_) ?_ fun id place => ?_
  · rw [nodes, map_map]
    refine congrArg (fun view => (p.node? place).map view) (funext fun n => ?_)
    simp only [Function.comp_apply]
    split
    · rfl
    · split <;> rfl
  · rw [names, List.map_map]
    exact wf.names_nodup
  · rw [names, ← map_eq_some_iff, ids, map_eq_some_iff, ← wf.mem_names, List.mem_map]
    constructor
    · rintro ⟨entry, mem, ⟨⟩⟩
      simpa using mem
    · exact fun mem => ⟨(id, swap a b place), mem, by simp⟩

theorem ends_exchangeIds (a b : NodeKey) : Ends (Edit.exchangeIds a b) p
      (fun _ q => ∃ one o, p.node? a = some one ∧ p.node? b = some o ∧
        q = p.exchangeNodeIds a b one.id o.id) (fun fault left => fault.IsRefusal ∧ left = p) := by
  rw [Edit.exchangeIds]
  refine ends_requireBoth (fun hv => ?_) fun _ refused _ => ⟨refused, rfl⟩
  obtain ⟨one, foundFirst⟩ := contains_iff.mp hv.1
  obtain ⟨o, foundSecond⟩ := contains_iff.mp hv.2
  simp only [ends_bind, ends_nodeAt foundFirst, ends_nodeAt foundSecond, ends_modify]
  exact ⟨one, o, foundFirst, foundSecond, rfl⟩

end LayerGraph.Program
