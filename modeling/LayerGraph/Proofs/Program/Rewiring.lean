import LayerGraph.Proofs.Program.Placement

/-!
# Edits of connections as edits of lists

Programs keep edges with slots, and dependency lists are reconstructed from them. To its users a
program is the family of these lists. Each edit of connections (`Rewiring`) is therefore also an edit
of plain lists (`Rewiring.onLists`) that appends, filters or substitutes and knows of no edges and no
slots.

The two agree: when the edit applies it is performed, the lists afterwards are the edited lists, and
the readers of a node are the nodes whose lists name it; when it does not apply nothing changes.
-/

namespace LayerGraph

/-- An edit of connections, with what it is given. -/
inductive Rewiring where
  | connect (prev next : NodeKey)
  | disconnect (prev next : NodeKey)
  | isolate (key : NodeKey)
  | removeAll (keys : List NodeKey)
  | bypass (key : NodeKey)
  | redirectReaders (old new : NodeKey)
  | insertAt (node next slot : NodeKey) (moveUsers : Bool)

namespace Rewiring

open Program

/-- The edit that performs a rewiring and tells whether the rewiring applied. -/
def edit : Rewiring → Edit Bool
  | .connect prev next => do Edit.connect prev next; return true
  | .disconnect prev next => do Edit.disconnect prev next; return true
  | .isolate key => do Edit.isolate key; return true
  | .removeAll keys => do modify (·.removeAll keys); return true
  | .bypass key => Edit.bypass key
  | .redirectReaders old new => do Edit.redirectReaders old new; return true
  | .insertAt node next slot moveUsers => do
    Edit.insertAt node next slot ⟨true, moveUsers⟩
    return true

/-- When a rewiring is performed. -/
def Applies (program : Program) : Rewiring → Prop
  | .connect prev next | .disconnect prev next => program.contains prev ∧ program.contains next
  | .isolate key => program.contains key
  | .removeAll _ => True
  | .bypass key => (∃ node, program.node? key = some node ∧ node.isOutput = false) ∧
    (program.dependencies key).length = 1
  | .redirectReaders old new => program.contains old ∧ program.contains new
  | .insertAt node next slot _ => program.contains node ∧ program.contains next ∧
    slot < (program.dependencies next).length ∧ program.dependencies node = []

/-- What a rewiring does to dependency lists. -/
def onLists : Rewiring → (NodeKey → List NodeKey) → NodeKey → List NodeKey
  | .connect prev next, lists, key =>
    if key = next then lists key ++ [prev] else lists key
  | .disconnect prev next, lists, key =>
    if key = next then (lists key).filter (· != prev) else lists key
  | .isolate gone, lists, key =>
    if key = gone then [] else (lists key).filter (· != gone)
  | .removeAll gone, lists, key =>
    if key ∈ gone then [] else (lists key).filter (· ∉ gone)
  | .bypass gone, lists, key =>
    if key = gone then [] else (lists key).map (redirected gone ((lists gone).headD gone))
  | .redirectReaders old new, lists, key =>
    if key = new then lists key else (lists key).map (redirected old new)
  | .insertAt node next slot moveUsers, lists, key =>
    let prev := (lists next).getD slot node
    if key = node then [prev]
    else if moveUsers then (lists key).map (redirected prev node)
    else if key = next then (lists key).set slot node
    else lists key

variable {program q : Program}

/-! ## The lists after an edit -/

theorem dependencies_redirectReaders (slots : ∀ k, program.SlotsExact k) (old new k : NodeKey) :
    (program.redirectAll ((program.users old).filter (· != new)) old new).dependencies k =
      (redirectReaders old new).onLists program.dependencies k := by
  rw [(dependencies_redirectAll _ old new slots k).1, onLists]
  simp only [List.mem_filter, mem_users_iff, bne_iff_ne]
  by_cases isNew : k = new
  · rw [if_pos isNew, if_neg fun both => both.2 isNew]
  · rw [if_neg isNew]
    split
    · rfl
    · next unread =>
      have ha : old ∉ program.dependencies k := fun hr => unread ⟨hr, isNew⟩
      exact (map_redirected_of_not_mem ha new).symm

theorem dependencies_insertedAt (wf : program.Consistent)
    {n next slot prev : NodeKey} {moveUsers : Bool}
    (insertable : program.Insertable n next slot ⟨true, moveUsers⟩ prev) (k : NodeKey) :
    (program.insertedAt n next slot prev ⟨true, moveUsers⟩).dependencies k =
      (insertAt n next slot moveUsers).onLists program.dependencies k := by
  have src : (program.dependencies next).getD slot n = prev := by
    rw [List.getD_eq_getElem?_getD, insertable.reads, Option.getD_some]
  rw [insertable.dependencies wf rfl, onLists, src]

/-! ## Performing a rewiring -/

/-- What holds when an edit has told whether it was performed. -/
def Outcome (program : Program) (rewiring : Rewiring) (performed : Bool) (edited : Program) : Prop :=
  if performed then
    rewiring.Applies program ∧ edited.Consistent ∧
      ∀ key, edited.dependencies key = rewiring.onLists program.dependencies key
  else edited = program ∧ ¬ rewiring.Applies program

/-- **A rewiring is performed as on lists, or it does not apply and nothing changes.** -/
theorem ends_edit (wf : program.Consistent)
    (noLoop : ∀ k, k ∉ program.dependencies k) (rewiring : Rewiring) :
    Ends rewiring.edit program (rewiring.Outcome program)
      (fun _ left => left = program ∧ ¬ rewiring.Applies program) := by
  cases rewiring with
  | connect prev next =>
    rw [edit, ends_bind]
    refine (ends_connect prev next).mono ?_ fun _ _ h => h.2
    rintro _ _ ⟨hv, rfl⟩
    exact ⟨hv, wf.attach hv.1 hv.2, fun k => dependencies_attach (wf.slots k) prev next⟩
  | disconnect prev next =>
    rw [edit, ends_bind]
    refine (ends_disconnect prev next).mono ?_ fun _ _ h => h.2
    rintro _ _ ⟨hv, rfl⟩
    obtain ⟨less, list⟩ := readsLess_separated wf.slots prev next
    refine ⟨hv, less.consistent wf, fun k => ?_⟩
    rw [onLists]
    split
    · next e => rw [e, list]
    · next differs => exact less.others k differs
  | isolate gone =>
    rw [edit, ends_bind]
    refine (ends_isolate gone).mono ?_ fun _ _ h => h.2
    rintro _ _ ⟨hv, rfl⟩
    exact ⟨hv, wf.detach gone, dependencies_detach wf.slots gone⟩
  | removeAll gone =>
    obtain ⟨removes, kept, -⟩ := removes_removeAll wf gone
    rw [edit, ends_bind, ends_modify, ends_pure]
    exact ⟨trivial, kept, removes.dependencies⟩
  | bypass gone =>
    refine ends_attempt (fun q res => ?_) fun none => ⟨rfl, ?_⟩
    · have kept := (wf.bypass? res).1
      obtain ⟨n, i, hk, hr, unmarked, rfl⟩ := bypass?_eq_some.mp res
      have ne : i ≠ gone := fun e => noLoop gone (by simp [hr, e])
      refine ⟨⟨⟨n, hk, unmarked⟩, by rw [hr]; rfl⟩, kept, fun k => ?_⟩
      rw [dependencies_bypass wf hr hk ne, onLists, hr]
      rfl
    · rintro ⟨⟨n, hk, unmarked⟩, single⟩
      obtain ⟨i, hr⟩ := List.length_eq_one_iff.mp single
      cases none.symm.trans (bypass?_eq_some.mpr ⟨n, i, hk, hr, unmarked, rfl⟩)
  | redirectReaders old new =>
    rw [edit, ends_bind]
    refine (ends_redirectReaders old new).mono ?_ fun _ _ h => h.2
    rintro _ _ ⟨hv, rfl⟩
    exact ⟨hv, wf.redirectAll hv.2 _, dependencies_redirectReaders wf.slots old new⟩
  | insertAt n next slot moveUsers =>
    rw [edit, ends_bind]
    refine (ends_insertAt wf.reads_live n next slot ⟨true, moveUsers⟩).mono ?_ ?_
    · rintro _ q puts
      have kept := puts.consistent wf
      obtain ⟨prev, hm, insertable, marks, -, rfl⟩ := puts
      have inRange : slot < (program.dependencies next).length :=
        (List.getElem?_eq_some_iff.mp insertable.reads).1
      refine ⟨⟨insertable.nodeLive, insertable.nextLive, inRange, insertable.alone rfl⟩, kept,
        fun k => ?_⟩
      rw [unlisted_rest]
      exact (marks.dependencies k).trans (dependencies_insertedAt wf insertable k)
    · rintro _ left ⟨-, rfl, never⟩
      refine ⟨rfl, ?_⟩
      rintro ⟨nodeLive, nextLive, inRange, alone⟩
      exact never ⟨_, nodeLive, nextLive, List.getElem?_eq_getElem inRange, fun _ => alone⟩

/-- **The lists of a program follow every edit of its connections.** An edit that applies is performed
and leaves a consistent program, whose lists are the edited lists and whose readers are those that
these lists say. An edit that does not apply leaves the program as it was. -/
theorem lists_follow_every_rewiring (consistent : program.Consistent)
    (noLoop : ∀ key, key ∉ program.dependencies key) (rewiring : Rewiring) :
    (rewiring.Applies program → ∃ edited, rewiring.edit program = .ok true edited ∧
      edited.Consistent ∧ edited.dependencies = rewiring.onLists program.dependencies ∧
      ∀ key reader, reader ∈ edited.users key ↔
        key ∈ rewiring.onLists program.dependencies reader) ∧
    (¬ rewiring.Applies program → rewiring.edit program = .ok false program ∨
      ∃ fault, rewiring.edit program = .error fault program) := by
  have ends := ends_edit consistent noLoop rewiring
  rw [Ends] at ends
  cases result : rewiring.edit program with
  | ok performed edited =>
      rw [result] at ends
      cases performed with
      | true =>
          obtain ⟨applies, kept, lists⟩ := ends
          refine ⟨fun _ => ⟨edited, rfl, kept, funext lists, fun key reader => ?_⟩,
            fun never => absurd applies never⟩
          rw [mem_users_iff, lists]
      | false =>
          obtain ⟨rfl, never⟩ := ends
          exact ⟨fun applies => absurd applies never, fun _ => .inl rfl⟩
  | error fault left =>
      rw [result] at ends
      obtain ⟨rfl, never⟩ := ends
      exact ⟨fun applies => absurd applies never, fun _ => .inr ⟨fault, rfl⟩⟩

/-- Four nodes, each without connections. -/
def unconnected : Program :=
  ["source", "middle", "reader", "spare"].foldl
    (fun program id => (program.ensure { id, kind := .eltwise .sum }).1) { id := 0 }

/-- The reader reads the source, the node in the middle and the source once more. -/
def readsTwice : Program :=
  (((unconnected.attach 0 1).attach 0 2).attach 1 2).attach 0 2

theorem consistent_readsTwice : readsTwice.Consistent := by
  have alone : unconnected.Consistent := by
    refine List.foldlRecOn _ _ (consistent_empty 0 {} false) fun program h id _ => ?_
    exact h.ensure _
  have a : (unconnected.attach 0 1).Consistent := alone.attach (by decide) (by decide)
  have b : ((unconnected.attach 0 1).attach 0 2).Consistent := a.attach (by decide) (by decide)
  have third : (((unconnected.attach 0 1).attach 0 2).attach 1 2).Consistent :=
    b.attach (by decide) (by decide)
  exact third.attach (by decide) (by decide)

/-- The same nodes in an order, with those listed that read nothing. -/
def orderedReadings : Program := { readsTwice with order := ⟨[0, 3, 1, 2]⟩, inputs := [0, 3] }

theorem consistent_orderedReadings : orderedReadings.Consistent := by
  have ordered : Program.Consistent { readsTwice with order := ⟨[0, 3, 1, 2]⟩ } :=
    consistent_readsTwice.reordered (by decide) (by decide)
  exact ordered.withInputs (by decide)

/-- The spare node gets between the source and all its readers. -/
theorem lists_follow_every_rewiring_readsTwice :
    readsTwice.Consistent ∧ (∀ key, key ∉ readsTwice.dependencies key) ∧
      ∃ edited, (insertAt 3 2 0 true).edit readsTwice = .ok true edited ∧
        edited.dependencies 2 = [3, 1, 3] ∧ edited.dependencies 1 = [3] ∧
        edited.dependencies 3 = [0] := by
  have consistent := consistent_readsTwice
  have noLoop : ∀ key, key ∉ readsTwice.dependencies key := by
    intro key reads
    obtain ⟨edge, member, source, target⟩ := mem_dependencies.mp reads
    have apart : ∀ edge ∈ readsTwice.edges, edge.source ≠ edge.target := by decide
    exact apart edge member (source.trans target.symm)
  have applies : (insertAt 3 2 0 true).Applies readsTwice := by
    refine ⟨?_, ?_, ?_, ?_⟩ <;> decide
  obtain ⟨edited, result, -, lists, -⟩ :=
    (lists_follow_every_rewiring consistent noLoop (insertAt 3 2 0 true)).1 applies
  refine ⟨consistent, noLoop, edited, result, ?_⟩
  rw [lists]
  decide

end Rewiring

end LayerGraph
