import LayerGraph.Proofs.Program.Outcome

/-!
# Inserting nodes

A new node is put behind a node that is read, in front of one reader or of all of them. Reading the
new node as the one behind which it stands gives the old dependency lists back (`Inserts.collapse`);
this one law covers both ways of insertion, and is enough for the order to stay valid
(`Rewired.hasValidOrder`).
-/

namespace LayerGraph

open List

namespace Program

variable {p q : Program} {k o inserted prev next : NodeKey}

theorem marked_markConstant (p : Program) (k : NodeKey) : Marked p (p.markConstant k) := by
  rw [markConstant]
  split
  · exact .refl p
  · exact .modifyNode p k fun _ => rfl

/-- A node is constant when everything it reads is. -/
theorem node?_markConstant (p : Program) (k o : NodeKey) : (p.markConstant k).node? o =
      if o = k then (p.node? o).map fun n =>
        { n with
          isConstant := if (p.dependencyNodes k).isEmpty then n.isConstant
            else (p.dependencyNodes k).all (·.isConstant) }
      else p.node? o := by
  rw [markConstant]
  split
  · next empty =>
    rw [empty]
    simp
  · next nodes nonempty =>
    have filled : (p.dependencyNodes k).isEmpty = false := by
      simpa using nonempty
    simp only [node?_modifyNode, filled, Bool.false_eq_true, if_false]

/-- The marks of a live node are derived from what it reads. -/
theorem ends_marks {left : Fault → Program → Prop} (hv : p.contains k) :
    Ends (do Edit.markConstant k; Edit.markDataFlow k) p (fun _ q => Marked p q) left := by
  have con := marked_markConstant p k
  obtain ⟨n, hk⟩ := contains_iff.mp ((con.contains k).mpr hv)
  simp only [Edit.markConstant, Edit.markDataFlow, ends_bind, ends_modify, ends_nodeAt hk, ends_get]
  exact con.trans (.modifyNode _ k fun _ => rfl)

/-! ## The wiring of an insertion -/

/-- The wiring after an insertion: the new node reads `prev`, and all others read what they read,
some of them the new node in the place of `prev`. -/
structure Rewired (program edited : Program) (inserted prev : NodeKey) : Prop where
  reads : edited.dependencies inserted = [prev]
  collapse : ∀ key, key ≠ inserted →
    (edited.dependencies key).map (redirected inserted prev) = program.dependencies key

/-- A dependency after an insertion comes from one before it. -/
theorem Rewired.cases (rewired : Rewired p q inserted prev) {dependency : NodeKey}
    (ne : k ≠ inserted) (hr : dependency ∈ q.dependencies k) :
    dependency = inserted ∧ prev ∈ p.dependencies k ∨
      dependency ≠ inserted ∧ dependency ∈ p.dependencies k := by
  have mem := List.mem_map_of_mem (f := redirected inserted prev) hr
  rw [rewired.collapse k ne, redirected] at mem
  split at mem
  · next e => exact .inl ⟨e, mem⟩
  · next o => exact .inr ⟨o, mem⟩

section Wiring

variable (slots : ∀ k, p.SlotsExact k) (alone : p.dependencies inserted = [])
  (unread : ∀ k, inserted ∉ p.dependencies k)

include slots alone in
theorem dependencies_attach_inserted (prev k : NodeKey) :
    (p.attach prev inserted).dependencies k =
      if k = inserted then [prev] else p.dependencies k := by
  rw [dependencies_attach (slots k)]
  split
  · next e => rw [e, alone, nil_append]
  · rfl

include slots alone unread

omit unread in
theorem dependencies_forAll (prev k : NodeKey) : ((p.attach prev inserted).redirectAll
        (((p.attach prev inserted).users prev).filter (· != inserted)) prev
        inserted).dependencies k =
      if k = inserted then [prev] else (p.dependencies k).map (redirected prev inserted) := by
  have ht := dependencies_attach_inserted slots alone prev
  rw [(dependencies_redirectAll _ prev inserted (fun k =>
    slotsExact_attach (slots k) prev inserted) k).1, ht]
  by_cases e : k = inserted
  · rw [if_neg (by simp [e]), if_pos e, if_pos e]
  · rw [if_neg e, if_neg e]
    split
    · rfl
    · next unlisted =>
      refine (map_redirected_of_not_mem (fun hr => ?_) inserted).symm
      refine unlisted (mem_filter.mpr ⟨mem_users_iff.mpr ?_, by simpa using e⟩)
      rw [ht, if_neg e]
      exact hr

/-- All readers of a node are made to read the new one. -/
theorem rewired_forAll : Rewired p ((p.attach prev inserted).redirectAll
      (((p.attach prev inserted).users prev).filter (· != inserted)) prev inserted)
      inserted prev := by
  have lists := dependencies_forAll slots alone prev
  refine ⟨?_, fun k notInserted => ?_⟩
  · rw [lists, if_pos rfl]
  · rw [lists, if_neg notInserted, List.map_map]
    refine map_eq_self fun src hr => ?_
    have old : src ≠ inserted := fun e => unread k (e ▸ hr)
    by_cases e : src = prev
    · simp [redirected, e]
    · simp [redirected, e, old]

omit unread in
theorem dependencies_forOne (prev : NodeKey) (slot : Nat) (ne : next ≠ inserted) (k : NodeKey) :
    (Edit.retarget (p.attach prev inserted) inserted next slot).dependencies k =
      if k = inserted then [prev]
      else if k = next then (p.dependencies k).set slot inserted
      else p.dependencies k := by
  rw [dependencies_retarget fun k => slotsExact_attach (slots k) prev inserted,
    dependencies_attach_inserted slots alone]
  by_cases e : k = inserted
  · rw [if_neg fun isNext => ne (isNext.symm.trans e), if_pos e, if_pos e]
  · rw [if_neg e, if_neg e]

/-- One reader is made to read the new node at one slot. -/
theorem rewired_forOne {slot : Nat} (ne : next ≠ inserted)
    (hr : (p.dependencies next)[slot]? = some prev) :
    Rewired p (Edit.retarget (p.attach prev inserted) inserted next slot) inserted prev := by
  have lists := fun k => dependencies_forOne slots alone prev slot ne k
  refine ⟨?_, fun k notInserted => ?_⟩
  · rw [lists, if_pos rfl]
  · have others : (p.dependencies k).map (redirected inserted prev) =
        p.dependencies k := map_redirected_of_not_mem (unread k) prev
    rw [lists, if_neg notInserted]
    split
    · next e =>
      subst e
      rw [map_set, others, redirected, if_pos rfl]
      obtain ⟨bound, here⟩ := List.getElem?_eq_some_iff.mp hr
      rw [← here, set_getElem_self bound]
    · exact others

end Wiring

/-! ## The order of an insertion -/

section Order

variable {pre after : List NodeKey} (rewired : Rewired p q inserted prev)

include rewired

/-- The new node is listed where the order of the others is split, after `prev` and before its
readers. -/
theorem Rewired.hasValidOrder (valid : p.HasValidOrder)
    (split : (p.order.erase inserted).toList = pre ++ after) (prevBefore : prev ∈ pre)
    (readersAfter : ∀ k, k ≠ inserted → inserted ∈ q.dependencies k → k ∈ after) :
    { q with order := ⟨pre ++ inserted :: after⟩ }.HasValidOrder := by
  have grows : (pre ++ after).Sublist (pre ++ inserted :: after) :=
    (Sublist.refl pre).append (.cons _ (.refl after))
  have ha : inserted ∉ pre ++ after := by
    rw [← split]
    exact fun mem => (ProcessingOrder.mem_erase.mp mem).2 rfl
  have nodup : (pre ++ inserted :: after).Nodup := by
    refine nodup_middle.mpr (nodup_cons.mpr ⟨ha, ?_⟩)
    rw [← split]
    exact valid.nodup.sublist ProcessingOrder.erase_sublist
  refine ⟨nodup, fun k dependency hr => ?_⟩
  replace hr : dependency ∈ q.dependencies k := hr
  by_cases e : k = inserted
  · subst e
    rw [rewired.reads, mem_singleton] at hr
    subst hr
    exact pair_sublist_append prevBefore
  · rcases rewired.cases e hr with ⟨rfl, -⟩ | ⟨old, pre⟩
    · have later := readersAfter k e hr
      exact (nil_sublist _).append (.cons_cons dependency (singleton_sublist.mpr later))
    · have pair := ProcessingOrder.pair_sublist_erase (valid.before k dependency pre) old e
      exact (split ▸ pair).trans grows

theorem Rewired.insertAfter (valid : p.HasValidOrder) (hl : prev ∈ p.order.toList)
    (ne : prev ≠ inserted) :
    { q with order := p.order.insertAfter prev inserted }.HasValidOrder := by
  obtain ⟨pre, after, split, placed⟩ := ProcessingOrder.toList_insertAfter valid.nodup hl ne
  have order : p.order.insertAfter prev inserted = ⟨(pre ++ [prev]) ++ inserted :: after⟩ := by
    rw [← ProcessingOrder.mk.injEq] at placed
    exact placed.trans (by simp)
  rw [order]
  refine rewired.hasValidOrder valid (by simpa using split) (by simp) ?_
  intro k notInserted hr
  rcases rewired.cases notInserted hr with ⟨-, old⟩ | ⟨wrong, -⟩
  · have pair := ProcessingOrder.pair_sublist_erase (valid.before k prev old) ne notInserted
    have nodup : (p.order.erase inserted).toList.Nodup :=
      valid.nodup.sublist ProcessingOrder.erase_sublist
    rw [split] at pair nodup
    exact mem_of_pair_sublist_append_right nodup pair
  · exact absurd rfl wrong

theorem Rewired.insertBefore (valid : p.HasValidOrder) (hr : prev ∈ p.dependencies next)
    (ne : next ≠ inserted) (apart : prev ≠ inserted)
    (only : ∀ k, inserted ∈ q.dependencies k → k = next) :
    { q with order := p.order.insertBefore next inserted }.HasValidOrder := by
  have pair := valid.before next prev hr
  have hl : next ∈ p.order.toList := pair.subset (by simp)
  obtain ⟨pre, after, split, placed⟩ := ProcessingOrder.toList_insertBefore valid.nodup hl ne
  have order : p.order.insertBefore next inserted = ⟨pre ++ inserted :: next :: after⟩ := by
    rw [← ProcessingOrder.mk.injEq] at placed
    exact placed
  rw [order]
  have kept := ProcessingOrder.pair_sublist_erase pair apart ne
  have nodup : (p.order.erase inserted).toList.Nodup := valid.nodup.sublist ProcessingOrder.erase_sublist
  rw [split] at kept nodup
  refine rewired.hasValidOrder valid split (mem_of_pair_sublist_append nodup kept) ?_
  intro k _ readsInserted
  rw [only k readsInserted]
  exact mem_cons_self

end Order

/-! ## New nodes in their place -/

/-- What an insertion leaves behind. -/
structure Inserts (program edited : Program) (inserted prev : NodeKey) (primitive : Primitive) :
    Prop where
  unused : program.keyOf? primitive.id = none
  vacant : program.node? inserted = none
  node : (edited.node? inserted).map Node.core = some (Node.ofPrimitive primitive).core
  others : ∀ key, key ≠ inserted → (edited.node? key).map Node.core = (program.node? key).map Node.core
  prevLive : program.contains prev
  reads : edited.dependencies inserted = [prev]
  collapse : ∀ key, key ≠ inserted →
    (edited.dependencies key).map (redirected inserted prev) = program.dependencies key
  inputs : edited.inputs = program.inputs
  outputs : edited.outputs = program.outputs
  settings : edited.settings = program.settings

theorem Inserts.options {prim : Primitive}
    (ins : Inserts p q inserted prev prim) : q.options = p.options :=
  options_of_settings ins.settings

theorem Inserts.different {prim : Primitive} {k : NodeKey} (ins : Inserts p q inserted prev prim)
    (hv : p.contains k) : k ≠ inserted := by
  rintro rfl
  obtain ⟨n, hk⟩ := contains_iff.mp hv
  rw [ins.vacant] at hk
  cases hk

end Program

end LayerGraph
