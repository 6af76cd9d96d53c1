import LayerGraph.Proofs.Build.Inputs
import LayerGraph.Proofs.Build.Marks

/-!
# Trimming a program to its outputs

Trimming removes the nodes that no output rests on, one at a time, and network inputs stay in any case.
What an output rests on reads nothing that is removed, so it keeps what it reads, and the outputs rest on
the same nodes as before (`Program.Sound.servesOutput_trimmed`). This is why a second run finds nothing
to remove (`Build.trim_leaves_what_outputs_rest_on`).
-/

namespace LayerGraph

open List

namespace Program

variable {p : Program} {k : NodeKey} {n : Node} {dead : List NodeKey}

/-- Live nodes are struck from the order and noted as removed, one after the other. -/
theorem Consistent.order_removeAll (wf : p.Consistent) (nd : dead.Nodup)
    (hv : ∀ k ∈ dead, p.contains k) :
    (p.removeAll dead).order.toList = p.order.toList.filter (· ∉ dead) ∧
      (p.removeAll dead).optimizedOut = p.optimizedOut ++ dead.map p.idOf := by
  induction dead generalizing p with
  | nil => simp [removeAll]
  | cons head rest ih =>
    obtain ⟨ha, nd⟩ := nodup_cons.mp nd
    have hv := forall_mem_cons.mp hv
    obtain ⟨n, hk⟩ := contains_iff.mp hv.1
    have nodes : ∀ o ∈ rest, (p.detachAndErase head).node? o = p.node? o := by
      intro o mem
      rw [node?_detachAndErase wf.slots hk, if_neg (ne_of_mem_of_not_mem mem ha)]
    obtain ⟨order, noted⟩ := ih (wf.detachAndErase hk) nd fun o mem =>
      (contains_detachAndErase wf.slots hk o).mpr ⟨hv.2 o mem, ne_of_mem_of_not_mem mem ha⟩
    have ids : rest.map (p.detachAndErase head).idOf = rest.map p.idOf :=
      map_congr_left fun o mem => by rw [idOf, idOf, nodes o mem]
    rw [removeAll, foldl_cons, if_pos hv.1, ← removeAll, order, noted, ids,
      detachAndErase_eq wf.slots hk]
    refine ⟨?_, by simp [idOf_of_node? hk]⟩
    rw [ProcessingOrder.erase, filter_filter]
    exact filter_congr fun o _ => by simp [Bool.and_comm, bne, Bool.beq_eq_decide_eq]

section

variable (hs : p.Sound) (hd : p.deadKeys = .ok dead)

include hs hd

/-- What an output rests on keeps what it reads. -/
theorem Sound.dependencies_of_servesOutput (serves : p.ServesOutput k) :
    (p.removeAll dead).dependencies k = p.dependencies k := by
  rw [(removes_removeAll hs.consistent dead).1.dependencies,
    if_neg (hs.not_dead_of_servesOutput hd serves), filter_eq_self]
  exact fun dep hr => by simpa using hs.not_dead_of_servesOutput hd (serves.reads hr)

theorem Sound.outputs_trimmed : (p.removeAll dead).outputs = p.outputs := by
  rw [(removes_removeAll hs.consistent dead).1.outputs, filter_eq_self]
  exact fun o hl => by simpa using hs.not_dead_of_servesOutput hd ⟨o, hl, .refl⟩

/-- The outputs go on resting on what they rested on. -/
theorem Sound.servesOutput_trimmed (serves : p.ServesOutput k) : (p.removeAll dead).ServesOutput k := by
  obtain ⟨output, hl, path⟩ := serves
  refine ⟨output, hs.outputs_trimmed hd ▸ hl, ?_⟩
  induction path with
  | refl => exact .refl
  | tail pre hr ih =>
    refine ih.tail ?_
    rwa [hs.dependencies_of_servesOutput hd ⟨output, hl, pre⟩]

/-- Nothing is dead after the dead nodes have been removed. -/
theorem Sound.deadKeys_trimmed : (p.removeAll dead).deadKeys = .ok [] := by
  obtain ⟨-, kept, -, complete⟩ := removes_removeAll hs.consistent dead
  obtain ⟨again, res, -, members⟩ := Sound.deadKeys ⟨kept, complete hs.complete⟩
  rw [res, Except.ok.injEq, eq_nil_iff_forall_not_mem]
  intro k mem
  obtain ⟨unneeded, n, hn, tag⟩ := (members k).mp mem
  obtain ⟨alive, hn⟩ := hs.node?_trimmed hn
  refine alive ((hs.mem_dead_iff hd).mpr ⟨fun serves => ?_, n, hn, tag⟩)
  exact unneeded (hs.servesOutput_trimmed hd serves)

end

end Program

namespace Build

open Program

theorem trim_eq {s : Session} {dead : List NodeKey} (hd : s.program.deadKeys = .ok dead) :
    trim s = .ok () { s with program := s.program.removeAll dead } := by
  have trims : Ensures trim s (fun _ next => next = { s with program := s.program.removeAll dead })
      fun _ => False := by
    simp only [trim, ensures_bind, ensures_program, hd, Checked.lift, ensures_pure,
      ensures_modifyProgram]
  obtain ⟨_, next, ran, rfl⟩ := trims.exists_ok
  exact ran

/-- **Trimming removes exactly the nodes that no output rests on,** network inputs apart. The other nodes
keep their order, and those that an output rests on keep what they read; the ids of the removed nodes are
noted in processing order. Trimming again changes nothing. -/
theorem trim_leaves_what_outputs_rest_on (s : Session) (sound : s.program.Sound) :
    ∃ trimmed : Program, trim s = .ok () { s with program := trimmed } ∧ trimmed.Sound ∧
      (∀ key node, trimmed.node? key = some node ↔ s.program.node? key = some node ∧
        (node.tag = .inputLayout ∨ s.program.ServesOutput key)) ∧
      trimmed.order.toList = s.program.order.toList.filter (trimmed.contains ·) ∧
      (∀ key, s.program.ServesOutput key →
        trimmed.dependencies key = s.program.dependencies key) ∧
      trimmed.outputs = s.program.outputs ∧
      trimmed.optimizedOut = s.program.optimizedOut ++
        (s.program.order.toList.filter (!trimmed.contains ·)).map s.program.idOf ∧
      trim { s with program := trimmed } = .ok () { s with program := trimmed } := by
  have wf := sound.consistent
  obtain ⟨dead, found, inOrder, members⟩ := sound.deadKeys
  obtain ⟨removes, kept, -, complete⟩ := removes_removeAll wf dead
  have live : ∀ key ∈ dead, s.program.contains key := by
    intro key mem
    obtain ⟨-, node, found, -⟩ := (members key).mp mem
    exact contains_of_node? found
  obtain ⟨order, noted⟩ := wf.order_removeAll (inOrder ▸ sound.complete.nodup.filter _) live
  have contains : ∀ key ∈ s.program.order.toList,
      (s.program.removeAll dead).contains key = decide (key ∉ dead) := by
    intro key mem
    rw [Bool.eq_iff_iff, decide_eq_true_iff, contains_iff, removes.node?]
    have live := contains_iff.mp (wf.order_live key mem)
    split
    · next isDead => simp [isDead]
    · next alive => simp [alive, live]
  have again : trim { s with program := s.program.removeAll dead } =
      .ok () { s with program := (s.program.removeAll dead).removeAll [] } :=
    trim_eq (sound.deadKeys_trimmed found)
  refine ⟨_, trim_eq found, ⟨kept, complete sound.complete⟩, fun key node => ?_, ?_,
    fun key => sound.dependencies_of_servesOutput found, sound.outputs_trimmed found, ?_, again⟩
  · rw [removes.node?]
    split
    · next isDead =>
      obtain ⟨unneeded, stored, foundKey, tag⟩ := (members key).mp isDead
      refine iff_of_false (Option.some_ne_none node).symm ?_
      rintro ⟨same, stays⟩
      cases foundKey.symm.trans same
      exact stays.elim tag unneeded
    · next alive =>
      refine (and_iff_left_of_imp fun foundKey => ?_).symm
      by_contra gone
      obtain ⟨tag, unneeded⟩ := not_or.mp gone
      exact alive ((members key).mpr ⟨unneeded, node, foundKey, tag⟩)
  · rw [order]
    exact filter_congr fun key mem => (contains key mem).symm
  · rw [noted, filter_congr fun key mem => by rw [contains key mem, decide_not, Bool.not_not], inOrder]

end Build

namespace Topology

/-- The softmax is removed, and the network input that was to read it stays. -/
theorem trim_leaves_what_outputs_rest_on_productBesideUnused : ∃ s : Session, s.program.Sound ∧
    s.program.ids = ["x", "w", "s", "p", "v", "u"] ∧ s.program.dependencies 5 = [4] ∧
    ∃ trimmed : Program, Build.trim s = .ok () { s with program := trimmed } ∧
      trimmed.order.toList.map trimmed.idOf = ["x", "w", "s", "p", "u"] ∧
      trimmed.dependencies 5 = [] ∧ trimmed.optimizedOut = ["v"] ∧
      Build.trim { s with program := trimmed } = .ok () { s with program := trimmed } := by
  obtain ⟨⟨s, next⟩, found, ids, reads, order, readsNow, noted⟩ :
      ∃ pair ∈ productBesideUnused.after? Build.trim,
        pair.1.program.ids = ["x", "w", "s", "p", "v", "u"] ∧ pair.1.program.dependencies 5 = [4] ∧
        pair.2.program.order.toList.map pair.2.program.idOf = ["x", "w", "s", "p", "u"] ∧
        pair.2.program.dependencies 5 = [] ∧ pair.2.program.optimizedOut = ["v"] := by decide +kernel
  obtain ⟨sound, ran⟩ := exists_of_after? found
  obtain ⟨trimmed, trims, -, -, -, -, -, -, again⟩ := Build.trim_leaves_what_outputs_rest_on s sound
  cases ran.symm.trans trims
  exact ⟨s, sound, ids, reads, trimmed, trims, order, readsNow, noted, again⟩

end Topology

end LayerGraph
