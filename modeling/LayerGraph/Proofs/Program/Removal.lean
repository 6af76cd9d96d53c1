import LayerGraph.Program.Removal
import LayerGraph.Proofs.Program.Consistent

/-!
# Removing nodes

What is left when a node is removed: the node is gone, it is struck from every dependency list and
from every other list, and nothing else changes (`node?_detachAndErase`,
`dependencies_detachAndErase`). Consistency and the order are kept.

When a node that reads one other is bypassed, the other takes its place in every dependency list
(`dependencies_bypass`). When several nodes are removed, all of them are struck
(`dependencies_removeAll`).
-/

namespace LayerGraph.Program

open List ProcessingOrder

variable {p q : Program} {k o : NodeKey} {n : Node}

/-! ## Removing one node -/

section

variable (slots : ∀ k, p.SlotsExact k)

include slots

/-- A detached node has no edges. -/
theorem edges_detach (k : NodeKey) :
    ∀ edge ∈ (p.detach k).edges, edge.source ≠ k ∧ edge.target ≠ k := by
  intro edge mem
  have hr := mem_dependencies.mpr ⟨edge, mem, rfl, rfl⟩
  rw [dependencies_detach slots] at hr
  split at hr
  · cases hr
  · next tgt =>
    exact ⟨by simpa using (mem_filter.mp hr).2, tgt⟩

variable (hk : p.node? k = some n)

include hk

/-- What becomes of a program when a node is removed. -/
theorem detachAndErase_eq : p.detachAndErase k = { p with
      store := p.store.erase k
      edges := (p.detach k).edges
      names := p.names.filter (·.1 != n.id)
      order := p.order.erase k
      inputs := p.inputs.filter (· != k)
      outputs := p.outputs.filter (· != k)
      optimizedOut := p.optimizedOut ++ [n.id] } := by
  have untouched : (p.detach k).edges.filter
      (fun edge => edge.source != k && edge.target != k) = (p.detach k).edges := by
    refine filter_eq_self.mpr fun edge mem => ?_
    simpa using edges_detach slots k edge mem
  have e : (p.detach k).node? k = some n := by
    rw [detach_rest]
    exact hk
  rw [detachAndErase, eraseNode]
  simp only [e, removeNode, untouched]
  rw [detach_rest]

theorem node?_detachAndErase (o : NodeKey) : (p.detachAndErase k).node? o =
      if o = k then none else p.node? o := by
  rw [detachAndErase_eq slots hk]
  exact NodeStore.get?_erase ..

theorem contains_detachAndErase (o : NodeKey) :
    (p.detachAndErase k).contains o ↔ p.contains o ∧ o ≠ k := by
  simp only [contains_iff, node?_detachAndErase slots hk]
  split
  · next e => simp [e]
  · next ne => simp [ne]

theorem dependencies_detachAndErase (o : NodeKey) : (p.detachAndErase k).dependencies o =
      if o = k then [] else (p.dependencies o).filter (· != k) := by
  rw [detachAndErase_eq slots hk]
  exact dependencies_detach slots k o

theorem mem_dependencies_detachAndErase (o dep : NodeKey) : dep ∈ (p.detachAndErase k).dependencies o ↔
    dep ∈ p.dependencies o ∧ dep ≠ k ∧ o ≠ k := by
  rw [dependencies_detachAndErase slots hk]
  split
  · next e => simp [e]
  · next ne => simp [ne]

theorem order_detachAndErase : (p.detachAndErase k).order = p.order.erase k := by
  rw [detachAndErase_eq slots hk]

end

theorem Consistent.detachAndErase (wf : p.Consistent)
    (hk : p.node? k = some n) : (p.detachAndErase k).Consistent := by
  have nodes := node?_detachAndErase wf.slots hk
  have hv := contains_detachAndErase wf.slots hk
  have lists := mem_dependencies_detachAndErase wf.slots hk
  have equal := detachAndErase_eq wf.slots hk
  generalize p.detachAndErase k = q at nodes hv lists equal
  have names : q.names = p.names.filter (·.1 != n.id) := by rw [equal]
  have order : q.order = p.order.erase k := by rw [equal]
  have inputs : q.inputs = p.inputs.filter (· != k) := by rw [equal]
  have outputs : q.outputs = p.outputs.filter (· != k) := by rw [equal]
  exact {
    store := by
      rw [equal]
      exact wf.store.erase k
    names_nodup := by
      rw [names]
      exact wf.names_nodup.sublist (filter_sublist.map _)
    mem_names := fun id o => by
      have kept : (id, o) ∈ q.names ↔ (id, o) ∈ p.names ∧ o ≠ k := by
        rw [names, mem_filter, bne_iff_ne]
        exact and_congr_right fun mem => not_congr (wf.name_iff hk mem)
      rw [kept, wf.mem_names, nodes]
      split
      · next e => simp [e]
      · next ne => simp [ne]
    reads_live := fun o dep hr => by
      obtain ⟨hr, kept, ne⟩ := (lists o dep).mp hr
      obtain ⟨src, tgt⟩ := wf.reads_live o dep hr
      exact ⟨(hv _).mpr ⟨src, kept⟩, (hv _).mpr ⟨tgt, ne⟩⟩
    slots := fun o => by
      rw [equal]
      exact slotsExact_detach wf.slots k o
    order_nodup := by
      rw [order]
      exact wf.order_nodup.sublist erase_sublist
    order_live := fun o hl => by
      rw [order, mem_erase] at hl
      exact (hv o).mpr ⟨wf.order_live o hl.1, hl.2⟩
    inputs_live := fun o hl => by
      rw [inputs, mem_filter, bne_iff_ne] at hl
      exact (hv o).mpr ⟨wf.inputs_live o hl.1, hl.2⟩
    outputs_nodup := by
      rw [outputs]
      exact wf.outputs_nodup.filter _
    mem_outputs := fun o => by
      rw [outputs, mem_filter, wf.mem_outputs, nodes]
      split
      · next e => simp [e]
      · next ne => simp [ne] }

/-- A node that is no output leaves the outputs alone when it is removed. -/
theorem Consistent.outputs_detachAndErase (wf : p.Consistent)
    (hk : p.node? k = some n) (unmarked : n.isOutput = false) :
    (p.detachAndErase k).outputs = p.outputs := by
  rw [detachAndErase_eq wf.slots hk]
  refine filter_eq_self.mpr fun o hl => ?_
  rw [bne_iff_ne]
  rintro rfl
  obtain ⟨hm, foundMarked, isOutput⟩ := (wf.mem_outputs o).mp hl
  cases foundMarked.symm.trans hk
  rw [unmarked] at isOutput
  cases isOutput

theorem HasValidOrder.detachAndErase (valid : p.HasValidOrder)
    (slots : ∀ k, p.SlotsExact k) (hk : p.node? k = some n) :
    (p.detachAndErase k).HasValidOrder := by
  have order := order_detachAndErase slots hk
  refine ⟨order ▸ valid.nodup.sublist erase_sublist, fun o dep hr => ?_⟩
  obtain ⟨hr, kept, ne⟩ := (mem_dependencies_detachAndErase slots hk o dep).mp hr
  exact order ▸ pair_sublist_erase (valid.before o dep hr) kept ne

theorem HasCompleteOrder.detachAndErase (complete : p.HasCompleteOrder) (slots : ∀ k, p.SlotsExact k) (hk
    : p.node? k = some n) : (p.detachAndErase k).HasCompleteOrder where
  toHasValidOrder := complete.toHasValidOrder.detachAndErase slots hk
  complete o := by
    rw [order_detachAndErase slots hk, mem_erase, complete.complete, contains_detachAndErase slots hk]

/-- A program after an edit is consistent, and its order is valid and complete if it was. -/
abbrev Preserves (program edited : Program) : Prop :=
  edited.Consistent ∧ (program.HasValidOrder → edited.HasValidOrder) ∧
    (program.HasCompleteOrder → edited.HasCompleteOrder)

theorem Consistent.preserves_detachAndErase (wf : p.Consistent)
    (hk : p.node? k = some n) : p.Preserves (p.detachAndErase k) :=
  ⟨wf.detachAndErase hk, fun valid => valid.detachAndErase wf.slots hk,
    fun complete => complete.detachAndErase wf.slots hk⟩

/-! ## Bypassing a node -/

theorem bypass?_eq_some : p.bypass? k = some q ↔
    ∃ n i, p.node? k = some n ∧ p.dependencies k = [i] ∧ n.isOutput = false ∧
      (p.redirectAll (p.users k) k i).detachAndErase k = q := by
  rw [bypass?]
  constructor
  · intro res
    split at res
    case h_2 => cases res
    next n i hk hr =>
    split at res
    · cases res
    · next unmarked =>
      exact ⟨n, i, hk, hr, by simpa using unmarked, Option.some.inj res⟩
  · rintro ⟨n, i, hk, hr, unmarked, rfl⟩
    simp [hk, hr, unmarked]

section Bypass

variable {i : NodeKey}

theorem node?_redirectAll (users : List NodeKey) (old new k : NodeKey) :
    (p.redirectAll users old new).node? k = p.node? k := by
  rw [redirectAll_rest]
  rfl

theorem Consistent.redirectAll (wf : p.Consistent) {old new : NodeKey}
    (newLive : p.contains new) (users : List NodeKey) :
    (p.redirectAll users old new).Consistent := by
  have spec := dependencies_redirectAll users old new wf.slots
  rw [redirectAll_rest] at spec ⊢
  refine wf.rewired (fun k dep hr => ?_) fun k => (spec k).2
  rw [(spec k).1] at hr
  split at hr
  · obtain ⟨pre, mem, rfl⟩ := List.mem_map.mp hr
    obtain ⟨src, tgt⟩ := wf.reads_live k pre mem
    refine ⟨?_, tgt⟩
    rw [redirected]
    split
    · exact newLive
    · exact src
  · exact wf.reads_live k dep hr

variable (wf : p.Consistent) (hr : p.dependencies k = [i])

include wf hr

theorem Consistent.redirectUsers : (p.redirectAll (p.users k) k i).Consistent :=
  wf.redirectAll (wf.reads_live k i (by simp [hr])).1 _

/-- **What is read by a bypassed node takes its place in every dependency list.** -/
theorem dependencies_bypass (hk : p.node? k = some n) (ne : i ≠ k) (o : NodeKey) :
    ((p.redirectAll (p.users k) k i).detachAndErase k).dependencies o =
      if o = k then [] else (p.dependencies o).map (redirected k i) := by
  have mid := wf.redirectUsers hr
  rw [dependencies_detachAndErase mid.slots ((node?_redirectAll ..).trans hk),
    dependencies_redirectAll_users k i wf.slots]
  split
  · rfl
  · refine filter_eq_self.mpr fun src mem => ?_
    obtain ⟨pre, -, rfl⟩ := List.mem_map.mp mem
    rw [redirected]
    split
    · simpa using ne
    · next kept => simpa using kept

theorem node?_bypass (hk : p.node? k = some n) (o : NodeKey) :
    ((p.redirectAll (p.users k) k i).detachAndErase k).node? o =
      if o = k then none else p.node? o := by
  have mid := wf.redirectUsers hr
  rw [node?_detachAndErase mid.slots ((node?_redirectAll ..).trans hk), node?_redirectAll]

theorem HasValidOrder.redirectUsers (valid : p.HasValidOrder) :
    (p.redirectAll (p.users k) k i).HasValidOrder := by
  have lists := dependencies_redirectAll_users k i wf.slots
  rw [redirectAll_rest] at lists ⊢
  refine ⟨valid.nodup, fun o dep mem => ?_⟩
  rw [lists] at mem
  obtain ⟨pre, inBefore, rfl⟩ := List.mem_map.mp mem
  have earlier := valid.before o pre inBefore
  rw [redirected]
  split
  · next e =>
    exact pair_sublist_trans valid.nodup (valid.before k i (by simp [hr])) (e ▸ earlier)
  · exact earlier

theorem HasCompleteOrder.redirectUsers (complete : p.HasCompleteOrder) :
    (p.redirectAll (p.users k) k i).HasCompleteOrder := by
  have valid := complete.toHasValidOrder.redirectUsers wf hr
  rw [redirectAll_rest] at valid ⊢
  exact ⟨valid, complete.complete⟩

end Bypass

/-- **Bypassing a node keeps a program consistent, and its order valid and complete.** -/
theorem Consistent.bypass? (wf : p.Consistent) (res : p.bypass? k = some q) : p.Preserves q := by
  obtain ⟨n, i, hk, hr, -, rfl⟩ := bypass?_eq_some.mp res
  obtain ⟨stays, valid, complete⟩ := (wf.redirectUsers hr).preserves_detachAndErase
    ((node?_redirectAll ..).trans hk)
  exact ⟨stays, fun h => valid (h.redirectUsers wf hr), fun h => complete (h.redirectUsers wf hr)⟩

theorem Consistent.outputs_bypass? (wf : p.Consistent)
    (res : p.bypass? k = some q) : q.outputs = p.outputs := by
  obtain ⟨n, i, hk, hr, unmarked, rfl⟩ := bypass?_eq_some.mp res
  have mid := wf.redirectUsers hr
  rw [mid.outputs_detachAndErase ((node?_redirectAll ..).trans hk) unmarked, redirectAll_rest]

/-! ## Removing nodes that are not read -/

theorem prune?_eq_some : p.prune? k = some q ↔
    ∃ n, p.node? k = some n ∧ n.isOutput = false ∧ p.users k = [] ∧ p.detachAndErase k = q := by
  rw [prune?]
  constructor
  · intro res
    split at res
    case h_2 => cases res
    next n hk =>
    split at res
    · cases res
    · next unread =>
      rw [Bool.or_eq_true, not_or] at unread
      refine ⟨n, hk, by simpa using unread.1, ?_, Option.some.inj res⟩
      simpa [userCount] using unread.2
  · rintro ⟨n, hk, unmarked, unread, rfl⟩
    simp [hk, unmarked, userCount, unread]

theorem Consistent.prune? (wf : p.Consistent) (res : p.prune? k = some q) : p.Preserves q := by
  obtain ⟨n, hk, -, -, rfl⟩ := prune?_eq_some.mp res
  exact wf.preserves_detachAndErase hk

/-- Removing a node that is not read leaves all other lists as they are. -/
theorem dependencies_prune (wf : p.Consistent) (hk : p.node? k = some n)
    (unread : p.users k = []) (o : NodeKey) :
    (p.detachAndErase k).dependencies o =
      if o = k then [] else p.dependencies o := by
  rw [dependencies_detachAndErase wf.slots hk]
  split
  · rfl
  · refine filter_eq_self.mpr fun src hr => ?_
    rw [bne_iff_ne]
    rintro rfl
    have mem := mem_users_iff.mpr hr
    simp [unread] at mem

/-! ## Inputs -/

/-- The inputs that stay are listed as before, and nothing else is. -/
structure KeepsInputs (program edited : Program) : Prop where
  fewer : edited.inputs.Sublist program.inputs
  stay : ∀ key ∈ program.inputs, edited.contains key → key ∈ edited.inputs

namespace KeepsInputs

theorem of_eq (e : q.inputs = p.inputs) : KeepsInputs p q :=
  ⟨e ▸ .refl _, fun _ hl _ => e ▸ hl⟩

/-- What is removed first does not come back. -/
theorem trans {mid : Program} (a : KeepsInputs p mid) (b : KeepsInputs mid q)
    (gone : ∀ k, q.contains k → mid.contains k) : KeepsInputs p q where
  fewer := b.fewer.trans a.fewer
  stay k hl hv := b.stay k (a.stay k hl (gone k hv)) hv

theorem detachAndErase (wf : p.Consistent) (hk : p.node? k = some n) :
    KeepsInputs p (p.detachAndErase k) := by
  have inputs : (p.detachAndErase k).inputs = p.inputs.filter (· != k) := by
    rw [detachAndErase_eq wf.slots hk]
  refine ⟨inputs ▸ filter_sublist, fun o hl hv => ?_⟩
  have ne := ((contains_detachAndErase wf.slots hk o).mp hv).2
  exact inputs ▸ mem_filter.mpr ⟨hl, bne_iff_ne.mpr ne⟩

theorem bypass? (wf : p.Consistent) (res : p.bypass? k = some q) : KeepsInputs p q := by
  obtain ⟨n, i, hk, hr, -, rfl⟩ := bypass?_eq_some.mp res
  have e : (p.redirectAll (p.users k) k i).inputs = p.inputs := by
    rw [redirectAll_rest]
  have erased := detachAndErase (wf.redirectUsers hr) ((node?_redirectAll ..).trans hk)
  exact ⟨e ▸ erased.fewer, fun o hl => erased.stay o (e.symm ▸ hl)⟩

end KeepsInputs

/-! ## Removing several nodes -/

/-- What is left when nodes are removed. -/
structure Removes (program edited : Program) (keys : List NodeKey) : Prop where
  node? : ∀ key, edited.node? key = if key ∈ keys then none else program.node? key
  dependencies : ∀ key, edited.dependencies key =
    if key ∈ keys then [] else (program.dependencies key).filter (· ∉ keys)
  outputs : edited.outputs = program.outputs.filter (· ∉ keys)

theorem Removes.trans {mid : Program} {front back : List NodeKey} (a : Removes p mid front) (b :
    Removes mid q back) : Removes p q (front ++ back) where
  node? k := by
    rw [b.node?, a.node?]
    by_cases inFront : k ∈ front
    · simp [inFront]
    · simp [inFront]
  dependencies k := by
    rw [b.dependencies, a.dependencies]
    by_cases inBack : k ∈ back
    · simp [inBack]
    · by_cases inFront : k ∈ front
      · simp [inFront]
      · simp only [inFront, inBack, mem_append, or_self, if_false, List.filter_filter]
        refine filter_congr fun src _ => ?_
        simp only [not_or, Bool.decide_and, Bool.and_comm]
  outputs := by
    rw [b.outputs, a.outputs, List.filter_filter]
    refine filter_congr fun src _ => ?_
    simp only [mem_append, not_or, Bool.decide_and, Bool.and_comm]

theorem removes_one (wf : p.Consistent) (k : NodeKey) : Removes p
      (if p.contains k then p.detachAndErase k else p) [k] := by
  split
  · next hv =>
    obtain ⟨n, hk⟩ := contains_iff.mp hv
    refine ⟨fun o => ?_, fun o => ?_, ?_⟩
    · simpa using node?_detachAndErase wf.slots hk o
    · simp only [dependencies_detachAndErase wf.slots hk o, mem_singleton]
      split
      · rfl
      · exact filter_congr fun src _ => by simp [bne, Bool.beq_eq_decide_eq]
    · rw [detachAndErase_eq wf.slots hk]
      exact filter_congr fun src _ => by simp [bne, Bool.beq_eq_decide_eq]
  · next dead =>
    have ha : p.node? k = none :=
      Option.eq_none_iff_forall_not_mem.mpr fun n hk => dead (contains_of_node? hk)
    refine ⟨fun o => ?_, fun o => ?_, ?_⟩
    · split
      · next e => rw [mem_singleton.mp e, ha]
      · rfl
    · split
      · next e => rw [mem_singleton.mp e, wf.dependencies_of_dead dead]
      · refine (filter_eq_self.mpr fun src hr => ?_).symm
        have hv := (wf.reads_live o src hr).1
        simpa using fun e : src = k => dead (e ▸ hv)
    · refine (filter_eq_self.mpr fun output hl => ?_).symm
      have hv := wf.output_live hl
      simpa using fun e : output = k => dead (e ▸ hv)

/-- **Removed nodes are struck everywhere, and nothing else changes.** -/
theorem removes_removeAll (wf : p.Consistent) (ks : List NodeKey) :
    Removes p (p.removeAll ks) ks ∧ p.Preserves (p.removeAll ks) := by
  induction ks generalizing p with
  | nil => exact ⟨⟨by simp [removeAll], by simp [removeAll], by simp [removeAll]⟩, wf,
      fun valid => valid, fun complete => complete⟩
  | cons k rest ih =>
    rw [removeAll, foldl_cons, ← removeAll]
    have one := removes_one wf k
    have kept : p.Preserves (if p.contains k then p.detachAndErase k else p) := by
      split
      · next hv =>
        obtain ⟨n, hk⟩ := contains_iff.mp hv
        exact wf.preserves_detachAndErase hk
      · exact ⟨wf, fun valid => valid, fun complete => complete⟩
    obtain ⟨removes, stays, valid, complete⟩ := ih kept.1
    exact ⟨one.trans removes, stays, fun h => valid (kept.2.1 h), fun h => complete (kept.2.2 h)⟩

theorem KeepsInputs.removeAll (wf : p.Consistent) (ks : List NodeKey) :
    KeepsInputs p (p.removeAll ks) := by
  induction ks generalizing p with
  | nil => exact .of_eq rfl
  | cons k rest ih =>
    rw [Program.removeAll, foldl_cons, ← Program.removeAll]
    split
    · next hv =>
      obtain ⟨n, hk⟩ := contains_iff.mp hv
      have kept := wf.detachAndErase hk
      refine (detachAndErase wf hk).trans (ih kept) fun o stays => ?_
      obtain ⟨m, foundOther⟩ := contains_iff.mp stays
      rw [(removes_removeAll kept rest).1.node?] at foundOther
      split at foundOther
      · cases foundOther
      · exact contains_of_node? foundOther
    · exact ih wf

end LayerGraph.Program
