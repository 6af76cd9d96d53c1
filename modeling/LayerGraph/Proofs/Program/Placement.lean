import LayerGraph.Proofs.Program.Connection
import LayerGraph.Proofs.Program.Insertion

/-!
# Putting nodes anywhere

A node is put between a reader and what it reads, whatever the node reads or is read by already. The
edit is refused when a key names nothing, when the reader reads nothing at the slot, or when the node
is to read what was read but reads something already (`Insertable`); then nothing changes. Otherwise
the wiring and the order change as `insertedAt` says, the node is marked as `MarksAt` says, and it is no
input any more if it reads something (`PutsAt`).

Every such edit keeps programs consistent. A node that has no connections and is made to read what was
read finds a place in a valid order (`PutsAt.hasValidOrder`). A new node has none, so that its insertion
keeps complete orders complete (`PutsAt.hasCompleteOrder`), and it takes the marks of what it reads
(`PutsAt.takesMarks`).
-/

namespace LayerGraph

open List Option ProcessingOrder

/-- The node with the marks of another one. -/
def Node.markedLike (node source : Node) : Node :=
  { node with isConstant := source.isConstant, inDataFlow := source.inDataFlow }

namespace Program

variable {p q : Program} {n next slot prev : NodeKey} {how : Edit.Insertion}

/-- What has to hold for a node to be put in front of `next` at a slot, where `next` reads `prev`. -/
structure Insertable (program : Program) (node next slot : NodeKey) (how : Edit.Insertion)
    (prev : NodeKey) : Prop where
  nodeLive : program.contains node
  nextLive : program.contains next
  reads : (program.dependencies next)[slot]? = some prev
  alone : how.connect → program.dependencies node = []

/-- The wiring after a node was put in front of `next`, or of all readers of `prev`. -/
def rewiredAt (program : Program) (node next slot prev : NodeKey) (how : Edit.Insertion) : Program :=
  let attached := if how.connect then program.attach prev node else program
  if how.moveUsers then
    attached.redirectAll ((attached.users prev).filter (· != node)) prev node
  else Edit.retarget attached node next slot

/-- The wiring and the order after a node was put there. -/
def insertedAt (program : Program) (node next slot prev : NodeKey) (how : Edit.Insertion) : Program :=
  let moved := program.rewiredAt node next slot prev how
  if moved.order.isEmpty then moved
  else
    { moved with
      order := if how.moveUsers then moved.order.insertAfter prev node
        else moved.order.insertBefore next node }

theorem rewiredAt_rest (p : Program) (n next slot prev : NodeKey) (how : Edit.Insertion) :
    p.rewiredAt n next slot prev how =
      { p with edges := (p.rewiredAt n next slot prev how).edges } := by
  have ht : ∀ start : Program, start = { p with edges := start.edges } →
      (if how.moveUsers then start.redirectAll ((start.users prev).filter (· != n)) prev n
        else Edit.retarget start n next slot) = { p with
          edges := (if how.moveUsers then
            start.redirectAll ((start.users prev).filter (· != n)) prev n
            else Edit.retarget start n next slot).edges } := by
    intro start rest
    split
    · rw [redirectAll_rest, rest]
    · rw [Edit.retarget]
      split
      · rw [rest]
      · exact rest
  refine ht (if how.connect then p.attach prev n else p) ?_
  split <;> rfl

theorem insertedAt_rest (p : Program) (n next slot prev : NodeKey) (how : Edit.Insertion) :
    p.insertedAt n next slot prev how = { p with
      edges := (p.rewiredAt n next slot prev how).edges
      order := (p.insertedAt n next slot prev how).order } := by
  rw [insertedAt]
  split <;> rw [rewiredAt_rest]

theorem dependencies_insertedAt (p : Program) (n next slot prev : NodeKey)
    (how : Edit.Insertion) (k : NodeKey) : (p.insertedAt n next slot prev how).dependencies k =
      (p.rewiredAt n next slot prev how).dependencies k := by
  rw [insertedAt_rest]
  rfl

/-- A node that is put somewhere takes its place in an order, wherever it stood before. -/
theorem perm_insertedAt (occupied : p.order.isEmpty = false) :
    (p.insertedAt n next slot prev how).order.toList.Perm (n :: (p.order.erase n).toList) := by
  have order : (p.rewiredAt n next slot prev how).order = p.order := by
    rw [rewiredAt_rest]
  rw [insertedAt]
  simp only [order, occupied, Bool.false_eq_true, if_false]
  split
  · exact p.order.perm_insertAfter prev n
  · exact p.order.perm_insertBefore next n

/-- The marks of a node in front of all readers are derived from what it reads. In front of one reader
they are those of `prev`. -/
def MarksAt (program marked : Program) (node prev : NodeKey) (how : Edit.Insertion) : Prop :=
  if how.moveUsers then
    (do Edit.markConstant node; Edit.markDataFlow node : Edit Unit) program = .ok () marked
  else ∃ source, program.node? prev = some source ∧
    marked = program.modifyNode node (·.markedLike source)

/-- Takes a node that reads something off the inputs. -/
def unlisted (program : Program) (node : NodeKey) : Program :=
  if program.dependencyCount node == 0 then program
  else { program with inputs := program.inputs.filter (· != node) }

theorem unlisted_rest (p : Program) (n : NodeKey) :
    p.unlisted n = { p with inputs := (p.unlisted n).inputs } := by
  rw [unlisted]
  split <;> rfl

theorem inputs_unlisted_subset (p : Program) (n : NodeKey) : (p.unlisted n).inputs ⊆ p.inputs := by
  rw [unlisted]
  split
  · exact List.Subset.refl _
  · exact filter_sublist.subset

/-- What is left when a node was put somewhere: the new wiring and order, with new marks and maybe
without the node among the inputs. -/
def PutsAt (program edited : Program) (node next slot : NodeKey) (how : Edit.Insertion) : Prop :=
  ∃ prev marked, Insertable program node next slot how prev ∧ Marked (program.insertedAt node next slot
    prev how) marked ∧ MarksAt (program.insertedAt node next slot prev how) marked node prev how ∧ edited
    = marked.unlisted node

/-! ## Consistency -/

theorem Consistent.retarget (wf : p.Consistent) (nodeLive : p.contains n)
    (nextLive : p.contains next) (slot : Nat) : (Edit.retarget p n next slot).Consistent := by
  have lists : ∀ k, (Edit.retarget p n next slot).dependencies k = if k = next then (p.dependencies
      k).set slot n else p.dependencies k := dependencies_retarget wf.slots
  have slots := fun k => (rewires_retarget n slot (wf.slots next).distinct).slotsExact (wf.slots k)
  have rest : Edit.retarget p n next slot = { p with edges := (Edit.retarget p n next slot).edges } := by
    rw [Edit.retarget]
    split <;> rfl
  rw [rest] at lists slots ⊢
  refine wf.rewired (fun k dep hr => ?_) slots
  rw [lists] at hr
  split at hr
  · next e =>
    rcases mem_or_eq_of_mem_set hr with pre | rfl
    · exact wf.reads_live k dep pre
    · exact ⟨nodeLive, e ▸ nextLive⟩
  · exact wf.reads_live k dep hr

namespace Insertable

variable (insertable : p.Insertable n next slot how prev)

include insertable

theorem prevLive (wf : p.Consistent) : p.contains prev :=
  (wf.reads_live next prev (mem_of_getElem? insertable.reads)).1

theorem consistent_rewiredAt (wf : p.Consistent) :
    (p.rewiredAt n next slot prev how).Consistent := by
  have ht : (if how.connect then p.attach prev n else p).Consistent := by
    split
    · exact wf.attach (insertable.prevLive wf) insertable.nodeLive
    · exact wf
  have hv : ∀ k, p.contains k → (if how.connect then p.attach prev n else p).contains k := by
    intro k h
    split <;> exact h
  rw [rewiredAt]
  split
  · exact ht.redirectAll (hv n insertable.nodeLive) _
  · exact ht.retarget (hv n insertable.nodeLive) (hv next insertable.nextLive) slot

theorem consistent (wf : p.Consistent) : (p.insertedAt n next slot prev how).Consistent := by
  have wired := insertable.consistent_rewiredAt wf
  have order : (p.rewiredAt n next slot prev how).order = p.order := by
    rw [rewiredAt_rest]
  cases occupied : p.order.isEmpty with
  | true =>
    rw [insertedAt]
    simp only [order, occupied, if_true]
    exact wired
  | false =>
    have perm : (p.insertedAt n next slot prev how).order.toList.Perm _ := perm_insertedAt occupied
    rw [insertedAt_rest]
    rw [rewiredAt_rest] at wired
    refine wired.reordered (nodup_of_perm wf.order_nodup perm) fun k hl => ?_
    rcases mem_cons.mp (perm.mem_iff.mp hl) with rfl | pre
    · exact insertable.nodeLive
    · exact wf.order_live k (mem_erase.mp pre).1

theorem nextDiffers (connects : how.connect) : next ≠ n := by
  rintro rfl
  have hr := insertable.reads
  rw [insertable.alone connects] at hr
  cases hr

variable {moveUsers : Bool}

/-- The dependency lists when the node is made to read what was read. -/
theorem dependencies (wf : p.Consistent) (connects : how = ⟨true, moveUsers⟩) (k : NodeKey) :
    (p.insertedAt n next slot prev how).dependencies k = if k = n then [prev] else if moveUsers then
    (p.dependencies k).map (redirected prev n) else if k = next then (p.dependencies k).set slot n else
    p.dependencies k := by
  subst connects
  have alone := insertable.alone rfl
  rw [dependencies_insertedAt]
  cases moveUsers with
  | true => exact dependencies_forAll wf.slots alone prev k
  | false => exact dependencies_forOne wf.slots alone prev slot (insertable.nextDiffers rfl) k

theorem rewired (wf : p.Consistent) (connects : how = ⟨true, moveUsers⟩) (unread : ∀ k, n ∉
    p.dependencies k) : Rewired p (p.rewiredAt n next slot prev how) n prev := by
  subst connects
  have alone := insertable.alone rfl
  cases moveUsers with
  | true => exact rewired_forAll wf.slots alone unread
  | false =>
    exact rewired_forOne wf.slots alone unread (insertable.nextDiffers rfl) insertable.reads

end Insertable

theorem PutsAt.consistent (puts : PutsAt p q n next slot how)
    (wf : p.Consistent) : q.Consistent := by
  obtain ⟨prev, hm, insertable, marks, -, rfl⟩ := puts
  have kept := (insertable.consistent wf).annotated marks.annotated
  rw [unlisted_rest]
  exact kept.withInputs fun k hl => kept.inputs_live k (inputs_unlisted_subset hm n hl)

/-! ## The order -/

variable {moveUsers : Bool}

/-- **A node without connections finds its place in a valid order.** -/
theorem Insertable.hasValidOrder (insertable : p.Insertable n next slot ⟨true, moveUsers⟩ prev) (wf :
    p.Consistent) (valid : p.HasValidOrder) (unread : ∀ k, n ∉ p.dependencies k) : (p.insertedAt n next
    slot prev ⟨true, moveUsers⟩).HasValidOrder := by
  have mem := mem_of_getElem? insertable.reads
  have pair := valid.before next prev mem
  have prevListed : prev ∈ p.order.toList := pair.subset mem_cons_self
  have prevDiffers : prev ≠ n := fun e => unread next (e ▸ mem)
  have nextDiffers := insertable.nextDiffers rfl
  have order : (p.rewiredAt n next slot prev ⟨true, moveUsers⟩).order = p.order := by
    rw [rewiredAt_rest]
  have occupied : p.order.isEmpty = false := isEmpty_eq_false_iff.mpr (ne_nil_of_mem prevListed)
  have rewired := insertable.rewired wf rfl unread
  rw [insertedAt]
  simp only [order, occupied, Bool.false_eq_true, if_false]
  cases moveUsers with
  | true => exact rewired.insertAfter valid prevListed prevDiffers
  | false =>
    refine rewired.insertBefore valid mem nextDiffers prevDiffers fun k hr => ?_
    by_contra ne
    rw [← dependencies_insertedAt, insertable.dependencies wf rfl] at hr
    simp only [ne, Bool.false_eq_true, if_false] at hr
    split at hr
    · exact prevDiffers (mem_singleton.mp hr).symm
    · exact unread k hr

theorem PutsAt.hasValidOrder (puts : PutsAt p q n next slot ⟨true, moveUsers⟩) (wf : p.Consistent) (valid
    : p.HasValidOrder) (unread : ∀ k, n ∉ p.dependencies k) : q.HasValidOrder := by
  obtain ⟨prev, hm, insertable, marks, -, rfl⟩ := puts
  have kept := (insertable.hasValidOrder wf valid unread).altered marks
  rw [unlisted_rest]
  exact ⟨kept.nodup, kept.before⟩

/-! ## Insertions as edits -/

/-- Both ways to put a node somewhere change the wiring and the order, and mark the node. -/
theorem Insertable.ends_insert (insertable : p.Insertable n next slot how prev)
    (prevLive : p.contains prev) (left : Fault → Program → Prop) :
    Ends (if how.moveUsers then Edit.insertForAll n prev
        else Edit.insertForOne n next slot prev)
      (if how.connect then p.attach prev n else p)
      (fun _ hm => Marked (p.insertedAt n next slot prev how) hm ∧
        MarksAt (p.insertedAt n next slot prev how) hm n prev how) left := by
  have hv : ∀ k, p.contains k → (p.insertedAt n next slot prev how).contains k := by
    intro k h
    rw [insertedAt_rest]
    exact h
  cases moves : how.moveUsers with
  | true =>
    have res : p.insertedAt n next slot prev how =
        let ht := if how.connect then p.attach prev n else p
        let moved := ht.redirectAll ((ht.users prev).filter (· != n)) prev n
        if moved.order.isEmpty then moved
        else { moved with order := moved.order.insertAfter prev n } := by
      simp only [insertedAt, rewiredAt, moves, if_true]
    simp only [if_true, Edit.insertForAll, ends_bind, ends_modify]
    rw [← res]
    rw [← ends_bind]
    refine (ends_marks (hv n insertable.nodeLive)).with_ok.mono
      (fun _ hm h => ⟨h.2, ?_⟩) fun _ _ h => h
    rw [MarksAt, if_pos moves]
    exact h.1
  | false =>
    have res : p.insertedAt n next slot prev how =
        let ht := if how.connect then p.attach prev n else p
        let moved := Edit.retarget ht n next slot
        if moved.order.isEmpty then moved
        else { moved with order := moved.order.insertBefore next n } := by
      simp only [insertedAt, rewiredAt, moves, Bool.false_eq_true, if_false]
    simp only [Bool.false_eq_true, if_false, Edit.insertForOne, ends_bind, ends_modify]
    rw [← res]
    obtain ⟨src, hk⟩ := contains_iff.mp (hv prev prevLive)
    rw [ends_nodeAt hk]
    refine ⟨.modifyNode _ n fun _ => rfl, ?_⟩
    simp only [MarksAt, moves, Bool.false_eq_true, if_false]
    exact ⟨src, hk, rfl⟩

section Edits

variable (joined : ∀ k, ∀ dep ∈ p.dependencies k,
  p.contains dep ∧ p.contains k)

include joined

/-- **A node is put in its place, or the program stays as it is.** -/
theorem ends_insertAt (n next slot : NodeKey) (how : Edit.Insertion) :
    Ends (Edit.insertAt n next slot how) p (fun _ q => PutsAt p q n next slot how)
      (fun fault left => fault.IsRefusal ∧ left = p ∧
        ¬ ∃ prev, Insertable p n next slot how prev) := by
  rw [Edit.insertAt]
  refine ends_requireBoth (fun hv => ?_) fun _ refused missing =>
    ⟨refused, rfl, fun ⟨_, h⟩ => missing ⟨h.nodeLive, h.nextLive⟩⟩
  simp only [ends_bind, ends_get]
  cases hr : (p.dependencies next)[slot]? with
  | none =>
    obtain ⟨r, hk⟩ := contains_iff.mp hv.2
    simp only [ends_bind, ends_nodeAt hk, ends_refuse, true_and]
    refine ⟨⟨not_false, _, rfl⟩, ?_⟩
    rintro ⟨_, h⟩
    cases hr.symm.trans h.reads
  | some prev =>
    have prevLive := (joined next prev (mem_of_getElem? hr)).1
    have finish : Insertable p n next slot how prev →
        Ends (if how.moveUsers then do Edit.insertForAll n prev; modify (·.unlisted n)
            else do Edit.insertForOne n next slot prev; modify (·.unlisted n))
          (if how.connect then p.attach prev n else p)
          (fun _ q => PutsAt p q n next slot how)
          (fun fault left => fault.IsRefusal ∧ left = p ∧
            ¬ ∃ prev, Insertable p n next slot how prev) := by
      intro insertable
      have ins := (insertable.ends_insert prevLive fun fault left => fault.IsRefusal ∧ left = p ∧ ¬ ∃
        prev, Insertable p n next slot how prev).mono (fun _ hm marks => (⟨prev, hm, insertable,
        marks.1, marks.2, rfl⟩ : PutsAt p (hm.unlisted n) n next slot how)) fun _ _ h => h
      split at ins
      · next moves => rwa [if_pos moves, ends_bind]
      · next stays => rwa [if_neg stays, ends_bind]
    cases connect : how.connect with
    | false =>
      have ended := finish ⟨hv.1, hv.2, hr, fun h => by simp [connect] at h⟩
      simp only [connect, Bool.false_eq_true, if_false] at ended ⊢
      exact ended
    | true =>
      simp only [if_true]
      split
      · next alone =>
        have none : p.dependencies n = [] := by
          rw [← length_eq_zero_iff, length_dependencies]
          simpa using alone
        have ended := finish ⟨hv.1, hv.2, hr, fun _ => none⟩
        simp only [connect, if_true] at ended
        exact ended
      · next ht =>
        obtain ⟨ins, hk⟩ := contains_iff.mp hv.1
        simp only [ends_bind, ends_nodeAt hk, ends_refuse, true_and]
        refine ⟨⟨not_false, _, rfl⟩, ?_⟩
        rintro ⟨_, h⟩
        refine ht ?_
        rw [← length_dependencies, h.alone connect]
        rfl

/-- A key that names nothing has no dependencies, and no id to tell about it: the edit is cut short at a
missing reader. -/
theorem ends_insertBetween (n next prev : NodeKey) (how : Edit.Insertion) :
    Ends (Edit.insertBetween n next prev how) p
      (fun _ q => p.contains prev ∧ ∃ slot, PutsAt p q n next slot how)
      (fun fault left => left = p ∧
        if p.contains prev ∧ ¬ p.contains next then fault = .aborted (.deadKey next)
        else fault.IsRefusal) := by
  simp only [Edit.insertBetween, ends_bind]
  refine ends_requireLive (fun prevLive => ?_) fun dead => ⟨rfl, ?_⟩
  case refine_2 =>
    rw [if_neg fun both => dead both.1]
    exact ⟨not_false, _, rfl⟩
  rw [ends_get]
  obtain ⟨src, foundSrc⟩ := contains_iff.mp prevLive
  split
  · next slot hr =>
    have mem : prev ∈ p.dependencies next := by
      by_contra unread
      rw [idxOf?_eq_none_iff.mpr unread] at hr
      cases hr
    have nextLive := (joined next prev mem).2
    refine (ends_insertAt joined n next slot how).mono (fun _ _ puts => ⟨prevLive, slot, puts⟩) ?_
    rintro fault left ⟨refused, e, -⟩
    rw [if_neg fun both => both.2 nextLive]
    exact ⟨e, refused⟩
  · rw [ends_bind, ends_nodeAt foundSrc, ends_bind]
    refine ends_nodeAt_or (fun r hk => ⟨rfl, ?_⟩) fun dead => ⟨rfl, ?_⟩
    · rw [if_neg fun both => both.2 (contains_of_node? hk)]
      exact ⟨not_false, _, rfl⟩
    · rw [if_pos ⟨prevLive, dead⟩]

end Edits

/-- A new node is put in its place. When it cannot be put there it stays where it is, alone. -/
theorem ends_insertPrimitive {prim : Primitive}
    (joined : ∀ k, ∀ dep ∈ (p.ensure prim).1.dependencies k,
      (p.ensure prim).1.contains dep ∧ (p.ensure prim).1.contains k)
    (next slot : NodeKey) (how : Edit.Insertion) :
    Ends (Edit.insertPrimitive prim next slot how) p (fun n q => p.keyOf? prim.id = none ∧
        n = (p.ensure prim).2 ∧
        PutsAt (p.ensure prim).1 q n next slot how)
      (fun fault left => left = (p.ensure prim).1 ∧
        if p.hasId prim.id then fault = .refused (.duplicateId prim.id)
        else fault.IsRefusal ∧ ¬ ∃ prev, Insertable (p.ensure prim).1
          (p.ensure prim).2 next slot how prev) := by
  simp only [Edit.insertPrimitive, ends_bind, ends_get]
  split
  · next taken =>
    obtain ⟨k, hk⟩ := isSome_iff_exists.mp taken
    exact ⟨by rw [ensure_of_keyOf? hk], rfl⟩
  · next unused =>
    have fr : p.keyOf? prim.id = none := by
      simpa [hasId] using unused
    simp only [ends_ensure, ends_bind, ends_pure, true_and]
    exact (ends_insertAt joined _ next slot how).mono (fun _ _ puts => ⟨fr, puts⟩)
      fun _ _ h => ⟨h.2.1, h.1, h.2.2⟩

/-! ## New nodes -/

/-- An insertion with everything that it changes but marks. -/
structure InsertsAt (program edited : Program) (inserted prev : NodeKey) (primitive : Primitive)
    (next slot : NodeKey) (moveUsers : Bool) : Prop
    extends Inserts program edited inserted prev primitive where
  readAt : (program.dependencies next)[slot]? = some prev
  nodes : ∀ key, (edited.node? key).map Node.unmarked =
    if key = inserted then some (Node.ofPrimitive primitive).unmarked
    else (program.node? key).map Node.unmarked
  lists : ∀ key, edited.dependencies key = if key = inserted then [prev]
    else if moveUsers then (program.dependencies key).map (redirected prev inserted)
    else if key = next then (program.dependencies key).set slot inserted
    else program.dependencies key

/-- The new node is there and has the marks of what it reads, and all other nodes are as they were. -/
structure TakesMarks (program edited : Program) (inserted : NodeKey) (primitive : Primitive)
    (source : Node) : Prop where
  nodes : ∀ key, edited.node? key =
    if key = inserted then some ((Node.ofPrimitive primitive).markedLike source)
    else program.node? key
  inputs : edited.inputs = program.inputs
  optimizedOut : edited.optimizedOut = program.optimizedOut

theorem TakesMarks.cases {inserted o : NodeKey} {prim : Primitive} {src m : Node}
    (takes : TakesMarks p q inserted prim src) (hk : q.node? o = some m) :
    o = inserted ∧ m.primitive = prim ∨ o ≠ inserted ∧ p.node? o = some m := by
  rw [takes.nodes] at hk
  split at hk
  · next isNew =>
    cases hk
    exact .inl ⟨isNew, rfl⟩
  · next isOld => exact .inr ⟨isOld, hk⟩

/-- A node that is put somewhere and reads one other node takes the marks of that node. -/
theorem MarksAt.node? {hm : Program} {st src : Node}
    (marks : MarksAt p hm n prev how) (hr : p.dependencies n = [prev])
    (apart : prev ≠ n) (foundPrev : p.node? prev = some src)
    (hk : p.node? n = some st) (noInput : how.moveUsers → st.tag ≠ .inputLayout)
    (k : NodeKey) :
    hm.node? k = if k = n then some (st.markedLike src) else p.node? k := by
  rw [MarksAt] at marks
  split at marks
  · next moves =>
    have con := node?_markConstant p n
    have sources : p.dependencyNodes n = [src] := by
      rw [dependencyNodes, hr, filterMap_cons, foundPrev]
      rfl
    have foundAfter := con n
    rw [if_pos rfl, hk, map_some] at foundAfter
    have sourcesAfter : (p.markConstant n).dependencyNodes n = [src] := by
      rw [dependencyNodes, (marked_markConstant p n).dependencies, hr,
        filterMap_cons, con, if_neg apart, foundPrev]
      rfl
    have ensures : Ensures (do Edit.markConstant n; Edit.markDataFlow n) p (fun _ q => q.node? k = if k =
        n then some (st.markedLike src) else p.node? k) fun _ => False := by
      simp only [Edit.markConstant, Edit.markDataFlow, ensures_bind, ensures_modify,
        ensures_nodeAt foundAfter, ensures_get, isFed, sourcesAfter]
      rw [node?_modifyNode, con]
      split
      · next isKey =>
        have tag : st.primitive.tag ≠ .inputLayout := noInput moves
        simp [isKey, hk, sources, tag, Node.markedLike, Node.tag]
      · rfl
    exact ensures.of_ok marks
  · obtain ⟨e, foundSame, rfl⟩ := marks
    cases foundPrev.symm.trans foundSame
    rw [node?_modifyNode]
    split
    · next isKey => rw [isKey, hk, map_some]
    · rfl

section New

variable {prim : Primitive} {moveUsers : Bool} (wf : p.Consistent)
  (fr : p.keyOf? prim.id = none)
  (puts : PutsAt (p.ensure prim).1 q (p.ensure prim).2 next slot ⟨true, moveUsers⟩)

include wf fr

theorem not_contains_ensure_key : ¬ p.contains (p.ensure prim).2 := by
  rw [contains_iff, node?_ensure_key wf fr]
  simp

/-- Nothing reads a new node. -/
theorem not_mem_dependencies_ensure (k : NodeKey) :
    (p.ensure prim).2 ∉ (p.ensure prim).1.dependencies k := by
  intro hr
  rw [dependencies_ensure] at hr
  exact not_contains_ensure_key wf fr (wf.reads_live k _ hr).1

include puts

theorem PutsAt.hasCompleteOrder (complete : p.HasCompleteOrder) : q.HasCompleteOrder where
  toHasValidOrder := puts.hasValidOrder (wf.ensure prim)
    (complete.toHasValidOrder.ensure prim) (not_mem_dependencies_ensure wf fr)
  complete k := by
    obtain ⟨prev, hm, insertable, marks, -, rfl⟩ := puts
    have dead := not_contains_ensure_key wf fr
    have order : (p.ensure prim).1.order = p.order := by rw [ensure_rest fr]
    have hr := insertable.reads
    rw [dependencies_ensure] at hr
    have prevLive := (wf.reads_live next prev (mem_of_getElem? hr)).1
    have occupied : (p.ensure prim).1.order.isEmpty = false := by
      rw [order]
      exact isEmpty_eq_false_iff.mpr (ne_nil_of_mem ((complete.complete prev).mpr prevLive))
    have hv : (hm.unlisted (p.ensure prim).2).contains k ↔
        k = (p.ensure prim).2 ∨ p.contains k := by
      rw [unlisted_rest, ← contains_ensure wf fr]
      refine (marks.contains k).trans ?_
      rw [insertedAt_rest]
      rfl
    rw [hv, unlisted_rest, marks.rest]
    refine ((perm_insertedAt occupied).mem_iff.trans mem_cons).trans ?_
    rw [mem_erase, order, complete.complete]
    constructor
    · rintro (e | ⟨h, -⟩)
      · exact .inl e
      · exact .inr h
    · rintro (e | h)
      · exact .inl e
      · exact .inr ⟨h, fun e => dead (e ▸ h)⟩

/-- **A new node that was put somewhere is inserted there.** -/
theorem PutsAt.insertsAt : ∃ prev,
    InsertsAt p q (p.ensure prim).2 prev prim next slot moveUsers := by
  obtain ⟨prev, hm, insertable, marks, -, rfl⟩ := puts
  have registered := wf.ensure prim
  have dead := not_contains_ensure_key wf fr
  have readAt := insertable.reads
  rw [dependencies_ensure] at readAt
  have nodes : ∀ k, ((hm.unlisted (p.ensure prim).2).node? k).map Node.unmarked =
      if k = (p.ensure prim).2 then some (Node.ofPrimitive prim).unmarked
      else (p.node? k).map Node.unmarked := by
    intro k
    rw [unlisted_rest]
    refine (marks.same k).trans ?_
    rw [insertedAt_rest]
    show ((p.ensure prim).1.node? k).map Node.unmarked = _
    rw [node?_ensure wf fr]
    split <;> rfl
  have lists : ∀ k, (hm.unlisted (p.ensure prim).2).dependencies k = ((p.ensure prim).1.insertedAt
      (p.ensure prim).2 next slot prev ⟨true, moveUsers⟩).dependencies k := by
    intro k
    rw [unlisted_rest]
    exact marks.dependencies k
  have rewired := insertable.rewired registered rfl (not_mem_dependencies_ensure wf fr)
  have cores : ∀ n : Node, n.unmarked.core = n.core := fun _ => rfl
  have core := fun k => congrArg (Option.map Node.core) (nodes k)
  have inputs : (hm.unlisted (p.ensure prim).2).inputs = p.inputs := by
    have e : hm.inputs = p.inputs := by
      rw [marks.rest, insertedAt_rest, ensure_rest fr]
    rw [unlisted]
    split
    · exact e
    · show hm.inputs.filter _ = _
      rw [e]
      refine filter_eq_self.mpr fun i mem => bne_iff_ne.mpr fun isNew => dead ?_
      exact isNew ▸ wf.inputs_live i mem
  refine ⟨prev, ⟨fr, node?_ensure_key wf fr, ?_, fun k ne => ?_, (wf.reads_live next prev
    (mem_of_getElem? readAt)).1, ?_, fun k ne => ?_, inputs, ?_, ?_⟩, readAt, nodes, fun k => ?_⟩
  · simpa [Option.map_map, Function.comp_def, cores] using core (p.ensure prim).2
  · simpa [Option.map_map, Function.comp_def, cores, ne] using core k
  · rw [lists, dependencies_insertedAt, rewired.reads]
  · rw [lists, dependencies_insertedAt, rewired.collapse k ne, dependencies_ensure]
  · rw [unlisted_rest, marks.rest, insertedAt_rest, ensure_rest fr]
  · rw [unlisted_rest, marks.rest, insertedAt_rest, ensure_rest fr]
    rfl
  · rw [lists, insertable.dependencies registered rfl]
    simp only [dependencies_ensure]

/-- **A new node takes the marks of what it reads.** -/
theorem PutsAt.takesMarks {src : Node} (hr : (p.dependencies next)[slot]? = some prev)
    (foundPrev : p.node? prev = some src) (noInput : moveUsers → prim.tag ≠ .inputLayout) :
    TakesMarks p q (p.ensure prim).2 prim src := by
  obtain ⟨_, ins⟩ := puts.insertsAt wf fr
  obtain ⟨e, hm, insertable, marks, marksAt, rfl⟩ := puts
  have readAt := insertable.reads
  rw [dependencies_ensure, hr] at readAt
  cases readAt
  have nodes : ∀ k, ((p.ensure prim).1.insertedAt (p.ensure prim).2 next slot prev ⟨true,
      moveUsers⟩).node? k = if k = (p.ensure prim).2 then some (.ofPrimitive prim)
        else p.node? k := by
    intro k
    rw [insertedAt_rest]
    exact node?_ensure wf fr k
  have apart : prev ≠ (p.ensure prim).2 := fun isNew =>
    not_contains_ensure_key wf fr (isNew ▸ contains_of_node? foundPrev)
  have new := nodes (p.ensure prim).2
  have old := nodes prev
  have lists := insertable.dependencies (wf.ensure prim) rfl (p.ensure prim).2
  rw [if_pos rfl] at new lists
  rw [if_neg apart, foundPrev] at old
  refine ⟨fun k => ?_, ins.inputs, ?_⟩
  · rw [unlisted_rest]
    refine (marksAt.node? lists apart old new noInput k).trans ?_
    rw [nodes]
    split <;> rfl
  · rw [unlisted_rest, marks.rest, insertedAt_rest, ensure_rest fr]

end New

end Program

end LayerGraph
