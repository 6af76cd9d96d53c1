import LayerGraph.Proofs.Order.Edits
import LayerGraph.Proofs.Program.Rewiring

/-!
# Undoing insertions

A new node is put between a reader and what it reads, and then taken out of the path of the data again.
Nothing is left of it but the note that its id was removed: the nodes with all their marks, the edges
with their slots, the names, the order, the inputs and the outputs are those of the program before
(`Restores`). This holds for an insertion in front of one reader as well as in front of all readers,
whatever the order lists.
-/

namespace LayerGraph

open ProcessingOrder

namespace Program

variable {program q : Program} {n next slot prev : NodeKey} {how : Edit.Insertion}
  {primitive : Primitive}

theorem erase_order_insertedAt (program : Program) (n next slot prev : NodeKey)
    (how : Edit.Insertion) :
    (program.insertedAt n next slot prev how).order.erase n = program.order.erase n := by
  have order : (program.rewiredAt n next slot prev how).order = program.order := by
    rw [rewiredAt_rest]
  rw [insertedAt]
  split
  · rw [order]
  · dsimp only
    split
    · rw [order, erase_insertAfter]
    · rw [order, erase_insertBefore]

/-! ## Edges -/

/-- Exact slots leave no edge twice. -/
theorem nodup_edges (slots : ∀ k, program.SlotsExact k) : program.edges.Nodup := by
  refine List.nodup_iff_count_le_one.mpr fun edge => ?_
  have incoming : (program.incoming edge.target).Nodup := (slots edge.target).distinct.of_map
  rw [← List.count_filter (p := fun o => o.target == edge.target) (by simp)]
  exact List.nodup_iff_count_le_one.mp incoming edge

/-- The dependency lists tell the edges. -/
theorem perm_edges (slots : ∀ k, program.SlotsExact k) (slotsAfter : ∀ k, q.SlotsExact k)
    (lists : ∀ k, q.dependencies k = program.dependencies k) : q.edges.Perm program.edges := by
  refine (List.perm_ext_iff_of_nodup (nodup_edges slotsAfter) (nodup_edges slots)).mpr fun edge => ?_
  rw [← dependencies_getElem? (slotsAfter edge.target) edge.slot edge.source, lists,
    dependencies_getElem? (slots edge.target)]

/-! ## Inserting a node and bypassing it -/

/-- A program is as it was, but for a note about an id that was removed. -/
structure Restores (program restored : Program) (id : String) : Prop where
  nodes : ∀ key, restored.node? key = program.node? key
  edges : restored.edges.Perm program.edges
  names : restored.names = program.names
  order : restored.order = program.order
  inputs : restored.inputs = program.inputs
  outputs : restored.outputs = program.outputs
  settings : restored.settings = program.settings
  optimizedOut : restored.optimizedOut = program.optimizedOut ++ [id]

/-- Only the node itself gets new marks. -/
theorem MarksAt.node?_of_ne {hm : Program} (marks : MarksAt program hm n prev how)
    (hv : program.contains n) {k : NodeKey} (ne : k ≠ n) : hm.node? k = program.node? k := by
  rw [MarksAt] at marks
  split at marks
  · obtain ⟨st, hk⟩ := contains_iff.mp (((marked_markConstant program n).contains n).mpr hv)
    have ensures : Ensures (do Edit.markConstant n; Edit.markDataFlow n) program
        (fun _ q => q.node? k = program.node? k) fun _ => False := by
      simp only [Edit.markConstant, Edit.markDataFlow, ensures_bind, ensures_modify,
        ensures_nodeAt hk, ensures_get]
      rw [node?_modifyNode, if_neg ne, node?_markConstant, if_neg ne]
    exact ensures.of_ok marks
  · obtain ⟨src, -, rfl⟩ := marks
    rw [node?_modifyNode, if_neg ne]

/-- What a bypassed node leaves behind. -/
theorem bypass_eq {k i : NodeKey} {st : Node} (wf : program.Consistent)
    (hr : program.dependencies k = [i]) (hk : program.node? k = some st) :
    (program.redirectAll (program.users k) k i).detachAndErase k = { program with
      store := program.store.erase k
      edges := ((program.redirectAll (program.users k) k i).detachAndErase k).edges
      names := program.names.filter (·.1 != st.id)
      order := program.order.erase k
      inputs := program.inputs.filter (· != k)
      outputs := program.outputs.filter (· != k)
      optimizedOut := program.optimizedOut ++ [st.id] } := by
  rw [detachAndErase_eq (wf.redirectUsers hr).slots ((node?_redirectAll ..).trans hk),
    redirectAll_rest]

/-- What a new node that was put somewhere leaves as it was. -/
structure LeavesOthers (program edited : Program) (primitive : Primitive) (inserted : NodeKey) : Prop where
  nodes : ∀ key, key ≠ inserted → edited.node? key = program.node? key
  names : edited.names = program.names ++ [(primitive.id, inserted)]
  order : edited.order.erase inserted = program.order.erase inserted
  optimizedOut : edited.optimizedOut = program.optimizedOut

section New

variable {moveUsers : Bool} (wf : program.Consistent)
  (fresh : program.keyOf? primitive.id = none)
  (puts : PutsAt (program.ensure primitive).1 q (program.ensure primitive).2 next slot ⟨true, moveUsers⟩)

include wf fresh puts

theorem PutsAt.leavesOthers : LeavesOthers program q primitive (program.ensure primitive).2 := by
  obtain ⟨prev, hm, insertable, marks, marksAt, rfl⟩ := puts
  refine ⟨fun k ne => ?_, ?_, ?_, ?_⟩
  · have hv : ((program.ensure primitive).1.insertedAt (program.ensure primitive).2 next slot prev
        ⟨true, moveUsers⟩).contains (program.ensure primitive).2 := by
      rw [insertedAt_rest]
      exact insertable.nodeLive
    rw [unlisted_rest]
    refine (marksAt.node?_of_ne hv ne).trans ?_
    rw [insertedAt_rest]
    exact (node?_ensure wf fresh k).trans (if_neg ne)
  · rw [unlisted_rest, marks.rest, insertedAt_rest, ensure_rest fresh]
  · rw [unlisted_rest, marks.rest]
    refine (erase_order_insertedAt ..).trans ?_
    rw [ensure_rest fresh]
  · rw [unlisted_rest, marks.rest, insertedAt_rest, ensure_rest fresh]

/-- **Bypassing a new node takes back that it was put somewhere.** -/
theorem PutsAt.restores : ∃ restored, q.bypass? (program.ensure primitive).2 = some restored ∧
    Restores program restored primitive.id := by
  obtain ⟨prev, ins⟩ := puts.insertsAt wf fresh
  have after := puts.consistent (wf.ensure primitive)
  have others := puts.leavesOthers wf fresh
  have dead := not_contains_ensure_key wf fresh
  have vacant := node?_ensure_key wf fresh
  generalize (program.ensure primitive).2 = k at ins others dead vacant
  have unlisted : ∀ ks : List NodeKey, (∀ o ∈ ks, program.contains o) →
      ks.filter (· != k) = ks := fun ks hv =>
    List.filter_eq_self.mpr fun o hl =>
      bne_iff_ne.mpr fun e => dead (e ▸ hv o hl)
  obtain ⟨st, hk, core⟩ := Option.map_eq_some_iff.mp ins.node
  have unmarked : st.isOutput = false := congrArg (·.2.2) core
  have named : st.id = primitive.id := congrArg (·.1.id) core
  have differs : prev ≠ k := fun e => dead (e ▸ ins.prevLive)
  have bypassed := bypass?_eq_some.mpr ⟨st, prev, hk, ins.reads, unmarked, rfl⟩
  have equal := bypass_eq after ins.reads hk
  refine ⟨_, bypassed, ⟨fun o => ?_, ?_, ?_, ?_, ?_, ?_, ?_, ?_⟩⟩
  · rw [node?_bypass after ins.reads hk]
    split
    · next e => rw [e, vacant]
    · next ne => exact others.nodes o ne
  · refine perm_edges wf.slots (after.bypass? bypassed).1.slots fun o => ?_
    rw [dependencies_bypass after ins.reads hk differs]
    split
    · next e => exact (wf.dependencies_of_dead (e ▸ dead)).symm
    · next ne => exact ins.collapse o ne
  · rw [equal]
    show q.names.filter _ = _
    have ne : ∀ entry ∈ program.names, (entry.1 != primitive.id) = true := by
      rintro ⟨id, o⟩ mem
      obtain ⟨pre, hb, rfl⟩ := (wf.mem_names id o).mp mem
      exact bne_iff_ne.mpr (wf.keyOf?_eq_none.mp ins.unused o pre hb)
    rw [others.names, named, List.filter_append, List.filter_eq_self.mpr ne]
    simp
  · rw [equal]
    show q.order.erase k = _
    rw [others.order]
    exact erase_of_not_mem fun hl => dead (wf.order_live k hl)
  · rw [equal]
    show q.inputs.filter _ = _
    rw [ins.inputs, unlisted _ wf.inputs_live]
  · rw [equal]
    show q.outputs.filter _ = _
    rw [ins.outputs, unlisted _ fun o => wf.output_live]
  · rw [equal]
    exact ins.settings
  · rw [equal, ← named, ← others.optimizedOut]

end New

/-- **Bypassing an inserted node undoes its insertion.** Whether the new node is put in front of one
reader or of all, nothing is left of it but the note that its id was removed. -/
theorem bypass_undoes_insertion (consistent : program.Consistent)
    (fresh : program.keyOf? primitive.id = none) (inRange : slot < (program.dependencies next).length)
    (moveUsers : Bool) :
    ∃ key edited restored,
      Edit.insertPrimitive primitive next slot ⟨true, moveUsers⟩ program = .ok key edited ∧
        Edit.bypass key edited = .ok true restored ∧ Restores program restored primitive.id := by
  have registered := consistent.ensure primitive
  have unused : program.hasId primitive.id = false := by
    rw [hasId, fresh, Option.isSome_none]
  have insertable : (program.ensure primitive).1.Insertable (program.ensure primitive).2 next slot
      ⟨true, moveUsers⟩ (program.dependencies next)[slot] := by
    have dead := not_contains_ensure_key consistent fresh
    have nextLive := (consistent.reads_live next _ (List.getElem_mem inRange)).2
    refine ⟨(contains_ensure consistent fresh).mpr (.inl rfl),
      (contains_ensure consistent fresh).mpr (.inr nextLive), ?_, fun _ => ?_⟩
    · rw [dependencies_ensure, List.getElem?_eq_getElem inRange]
    · rw [dependencies_ensure, consistent.dependencies_of_dead dead]
  obtain ⟨_, edited, inserted, -, rfl, puts⟩ :=
    (ends_insertPrimitive registered.reads_live next slot ⟨true, moveUsers⟩).exists_ok
      fun fault left given => by
        rw [unused, if_neg Bool.false_ne_true] at given
        exact given.2.2 ⟨_, insertable⟩
  obtain ⟨restored, bypassed, restores⟩ := puts.restores consistent fresh
  have ends : Ends (Edit.bypass (program.ensure primitive).2) edited
      (fun performed final => performed = true ∧ final = restored) fun _ _ => False :=
    ends_attempt (fun _ result => ⟨rfl, Option.some.inj (result.symm.trans bypassed)⟩)
      fun none => absurd (bypassed.symm.trans none) (Option.some_ne_none restored)
  obtain ⟨_, _, result, rfl, rfl⟩ := ends.exists_ok fun _ _ => not_false
  exact ⟨_, edited, _, inserted, result, restores⟩

open Rewiring

/-- A new node in front of all readers of the source is taken out again. -/
theorem bypass_undoes_insertion_orderedReadings :
    orderedReadings.Consistent ∧ orderedReadings.keyOf? "new" = none ∧
      ∃ key edited restored,
        Edit.insertPrimitive { id := "new", kind := .eltwise .sum } 2 0 ⟨true, true⟩ orderedReadings =
          .ok key edited ∧
        Edit.bypass key edited = .ok true restored ∧ Restores orderedReadings restored "new" :=
  ⟨consistent_orderedReadings, by decide,
    bypass_undoes_insertion consistent_orderedReadings (by decide) (by decide) true⟩

end Program

end LayerGraph
