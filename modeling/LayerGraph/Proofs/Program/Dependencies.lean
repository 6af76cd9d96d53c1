import LayerGraph.Program.Insertion
import LayerGraph.Program.Replacement
import LayerGraph.Proofs.Order.Sorting
import Mathlib.Data.List.Perm.Subperm
import Mathlib.Data.List.Range

/-!
# Dependency lists and slots

Dependencies are not stored as lists. They are reconstructed from the edges into a node by sorting
these by slot. The slots of a node are exact when they are the numbers below the number of its
incoming edges, each once (`SlotsExact`); then the dependency at a position is the source of the
edge with that slot (`dependencies_getElem?`).

The laws below say what every edit of the wiring does to dependency lists, and that slots stay
exact or become so: a new edge appends (`dependencies_attach`), redirecting a reader substitutes
(`dependencies_redirect`), dropping edges filters (`dependencies_dropEdges`), and closing the gaps
changes no list (`dependencies_closeGaps`). From these follow the laws of detaching a node
(`dependencies_detach`) and of putting one node in the place of another
(`dependencies_replaceNode`).
-/

namespace LayerGraph.Program

open List Option

variable {p q : Program} {k o : NodeKey}

theorem map_eq_self {α : Type} {xs : List α} {change : α → α}
    (e : ∀ x ∈ xs, change x = x) : xs.map change = xs :=
  (map_congr_left e).trans (List.map_id' xs)

/-- No two edges into a node have the same slot. -/
def SlotsDistinct (program : Program) (key : NodeKey) : Prop :=
  ((program.incoming key).map Edge.slot).Nodup

/-- The slots of a node are the numbers below the number of its incoming edges, each once. -/
def SlotsExact (program : Program) (key : NodeKey) : Prop :=
  ((program.incoming key).map Edge.slot).Perm (range (program.dependencyCount key))

theorem SlotsExact.distinct (slots : p.SlotsExact k) : p.SlotsDistinct k :=
  (Perm.nodup_iff slots).mpr nodup_range

variable {edge : Edge} {next : NodeKey} {condition : Edge → Bool}

theorem SlotsExact.slot_lt (slots : p.SlotsExact k) (mem : edge ∈ p.incoming k) : edge.slot <
    p.dependencyCount k :=
  mem_range.mp ((Perm.mem_iff slots).mp (List.mem_map_of_mem mem))

/-- Distinct slots that leave no room for gaps are exact. -/
theorem SlotsDistinct.exact (nd : p.SlotsDistinct k)
    (bounded : ∀ edge ∈ p.incoming k, edge.slot < p.dependencyCount k) : p.SlotsExact k := by
  have inside : (p.incoming k).map Edge.slot ⊆ range (p.dependencyCount k) := by
    intro slot mem
    obtain ⟨edge, incoming, rfl⟩ := List.mem_map.mp mem
    exact mem_range.mpr (bounded edge incoming)
  refine (nd.subperm inside).perm_of_length_le ?_
  simp [dependencyCount]

/-- The edges into a node in the order of their slots. -/
def readings (program : Program) (key : NodeKey) : List Edge :=
  sortByRank Edge.slot (program.incoming key)

theorem dependencies_eq_map_readings (p : Program) (k : NodeKey) :
    p.dependencies k = (p.readings k).map Edge.source := rfl

theorem perm_readings (p : Program) (k : NodeKey) :
    (p.readings k).Perm (p.incoming k) := perm_sortByRank _ _

theorem mem_readings : edge ∈ p.readings k ↔ edge ∈ p.edges ∧ edge.target = k := by
  rw [(perm_readings p k).mem_iff, mem_incoming]

theorem SlotsDistinct.pairwise_readings (nd : p.SlotsDistinct k) :
    (p.readings k).Pairwise fun a b => a.slot < b.slot :=
  pairwise_lt_sortByRank Edge.slot nd

/-- Any arrangement of the incoming edges that ascends in slot is the reading order. -/
theorem readings_eq_of_perm {arranged : List Edge} (perm : (p.incoming k).Perm arranged) (ascends :
    arranged.Pairwise fun a b => a.slot < b.slot) : p.readings k = arranged :=
  sortByRank_eq_of_perm Edge.slot perm ascends

theorem slots_readings (slots : p.SlotsExact k) :
    (p.readings k).map Edge.slot = range (p.dependencyCount k) := by
  have perm : ((p.readings k).map Edge.slot).Perm (range (p.dependencyCount k)) :=
    ((perm_readings p k).map _).trans slots
  refine perm.eq_of_pairwise (fun a b _ _ smaller larger => ?_)
    (pairwise_map.mpr slots.distinct.pairwise_readings) pairwise_lt_range
  omega

/-- The edge at a position of the reading order has that position as its slot. -/
theorem slot_of_readings_getElem? (slots : p.SlotsExact k) {pos : Nat} (hk : (p.readings k)[pos]? = some
    edge) : edge.slot = pos := by
  have slotHere : ((p.readings k).map Edge.slot)[pos]? = some edge.slot := by
    rw [getElem?_map, hk, map_some]
  rw [slots_readings slots] at slotHere
  have equal := (List.getElem?_eq_some_iff.mp slotHere).2
  rw [getElem_range] at equal
  exact equal.symm

/-- **The dependency at a position is the source of the edge with that slot.** -/
theorem dependencies_getElem? (slots : p.SlotsExact k) (slot : Nat) (src : NodeKey) :
    (p.dependencies k)[slot]? = some src ↔ ⟨src, k, slot⟩ ∈ p.edges := by
  rw [dependencies_eq_map_readings, getElem?_map, map_eq_some_iff]
  constructor
  · rintro ⟨edge, hk, rfl⟩
    obtain ⟨mem, target⟩ := mem_readings.mp (mem_of_getElem? hk)
    rw [← slot_of_readings_getElem? slots hk, ← target]
    exact mem
  · intro mem
    obtain ⟨pos, bound, hk⟩ := getElem_of_mem (mem_readings.mpr ⟨mem, rfl⟩ : _ ∈ p.readings k)
    have here := List.getElem?_eq_some_iff.mpr ⟨bound, hk⟩
    have e := slot_of_readings_getElem? slots here
    exact ⟨_, e ▸ here, rfl⟩

/-! ## Edits that keep slots -/

section Rewire

variable {change : Edge → Edge} {into : NodeKey}

section

variable (perm : (q.incoming into).Perm ((p.incoming k).map change))
  (slot : ∀ edge ∈ p.incoming k, (change edge).slot = edge.slot)

include perm slot

/-- When the edges into a node are those into a node of another program, up to their order and
with the same slots, the slots stay exact. -/
theorem SlotsExact.of_incoming (slots : p.SlotsExact k) : q.SlotsExact into := by
  have count : q.dependencyCount into = p.dependencyCount k := by
    simpa [dependencyCount] using perm.length_eq
  rw [SlotsExact, count]
  refine ((perm.map Edge.slot).trans (.of_eq ?_)).trans slots
  rw [List.map_map]
  exact map_congr_left slot

/-- Then the dependency list has the new sources in the old order. -/
theorem dependencies_of_incoming (nd : p.SlotsDistinct k) :
    q.dependencies into = (p.readings k).map fun edge => (change edge).source := by
  have arranged : q.readings into = (p.readings k).map change := by
    refine readings_eq_of_perm (perm.trans ((perm_readings p k).symm.map change)) ?_
    rw [pairwise_map]
    refine nd.pairwise_readings.imp_of_mem fun {a b} inFirst inSecond smaller => ?_
    rw [slot a (mem_incoming.mpr (mem_readings.mp inFirst)),
      slot b (mem_incoming.mpr (mem_readings.mp inSecond))]
    exact smaller
  rw [dependencies_eq_map_readings, arranged, List.map_map]
  rfl

theorem dependencies_of_incoming_map (nd : p.SlotsDistinct k) {substitute : NodeKey → NodeKey}
    (src : ∀ edge ∈ p.incoming k, (change edge).source = substitute edge.source) :
    q.dependencies into = (p.dependencies k).map substitute := by
  rw [dependencies_of_incoming perm slot nd, dependencies_eq_map_readings, List.map_map]
  exact map_congr_left fun edge mem =>
    src edge (mem_incoming.mpr (mem_readings.mp mem))

end

/-- An edit that puts other sources, and maybe another order, but keeps targets and slots. -/
structure Rewires (program edited : Program) (change : Edge → Edge) : Prop where
  perm : edited.edges.Perm (program.edges.map change)
  target : ∀ edge ∈ program.edges, (change edge).target = edge.target
  slot : ∀ edge ∈ program.edges, (change edge).slot = edge.slot

section

variable (rewires : Rewires p q change)

include rewires

theorem Rewires.incoming (k : NodeKey) : (q.incoming k).Perm ((p.incoming k).map change) := by
  refine (rewires.perm.filter _).trans (.of_eq ?_)
  rw [List.filter_map, Program.incoming]
  refine congrArg (List.map change) (filter_congr fun edge mem => ?_)
  simp only [Function.comp_apply, rewires.target edge mem]

theorem Rewires.slot_incoming (k : NodeKey) :
    ∀ edge ∈ p.incoming k, (change edge).slot = edge.slot := fun edge mem =>
  rewires.slot edge (mem_incoming.mp mem).1

theorem Rewires.slotsExact (slots : p.SlotsExact k) : q.SlotsExact k :=
  slots.of_incoming (rewires.incoming k) (rewires.slot_incoming k)

theorem Rewires.dependencies (nd : p.SlotsDistinct k) :
    q.dependencies k = (p.readings k).map fun edge => (change edge).source :=
  dependencies_of_incoming (rewires.incoming k) (rewires.slot_incoming k) nd

theorem Rewires.dependencies_map (nd : p.SlotsDistinct k) {substitute : NodeKey → NodeKey}
    (src : ∀ edge ∈ p.edges, edge.target = k → (change edge).source = substitute edge.source) :
    q.dependencies k = (p.dependencies k).map substitute :=
  dependencies_of_incoming_map (rewires.incoming k) (rewires.slot_incoming k) nd
    fun edge mem => src edge (mem_incoming.mp mem).1 (mem_incoming.mp mem).2

theorem Rewires.dependencies_eq (nd : p.SlotsDistinct k)
    (same : ∀ edge ∈ p.edges, edge.target = k → (change edge).source = edge.source) :
    q.dependencies k = p.dependencies k :=
  (rewires.dependencies_map nd same).trans (List.map_id' _)

end

end Rewire

/-! ## Appending -/

theorem incoming_attach (p : Program) (src target k : NodeKey) :
    (p.attach src target).incoming k =
      if k = target then ⟨src, target, p.dependencyCount target⟩ :: p.incoming k
      else p.incoming k := by
  simp only [attach, addEdge, incoming, filter_cons]
  by_cases e : k = target
  · simp [e]
  · simp [e, Ne.symm e]

theorem slotsExact_attach (slots : p.SlotsExact k) (src target : NodeKey) :
    (p.attach src target).SlotsExact k := by
  simp only [SlotsExact, dependencyCount, incoming_attach]
  by_cases e : k = target
  · subst e
    simp only [if_true, map_cons, length_cons, range_succ]
    exact (Perm.cons _ slots).trans (perm_append_singleton _ _).symm
  · simp only [if_neg e]
    exact slots

/-- A new connection comes after everything that is read already. -/
theorem dependencies_attach (slots : p.SlotsExact k) (src target : NodeKey) :
    (p.attach src target).dependencies k =
      if k = target then p.dependencies k ++ [src] else p.dependencies k := by
  by_cases e : k = target
  · subst e
    have arranged : (p.attach src k).readings k = p.readings k ++ [⟨src, k, p.dependencyCount k⟩] := by
      refine readings_eq_of_perm ?_ ?_
      · rw [incoming_attach, if_pos rfl]
        exact ((perm_readings p k).symm.cons _).trans (perm_append_singleton _ _).symm
      · rw [pairwise_append]
        refine ⟨slots.distinct.pairwise_readings, by simp, fun edge mem last inLast => ?_⟩
        rw [mem_singleton.mp inLast]
        exact slots.slot_lt ((perm_readings p k).mem_iff.mp mem)
    rw [dependencies_eq_map_readings, arranged, if_pos rfl, map_append]
    rfl
  · rw [if_neg e, dependencies_eq_map_readings, readings, incoming_attach, if_neg e]
    rfl

/-! ## Redirecting -/

/-- The key that is read instead of `key` when readers of `old` are made to read `new`. -/
def redirected (old new key : NodeKey) : NodeKey := if key = old then new else key

theorem rewires_redirect (p : Program) (user old new : NodeKey) :
    Rewires p (p.redirect user old new) fun edge =>
      if edge.source = old ∧ edge.target = user then { edge with source := new } else edge where
  perm := by
    simp only [redirect, partition_eq_filter_filter]
    refine ((reverse_perm _).append_right _).trans ?_
    induction p.edges with
    | nil => rfl
    | cons edge rest ih =>
      by_cases moved : edge.source = old ∧ edge.target = user
      · simpa [moved] using ih
      · simpa [filter_cons, moved, not_and_or.mp moved] using perm_middle.trans (ih.cons edge)
  target edge _ := by split <;> rfl
  slot edge _ := by split <;> rfl

theorem dependencies_redirect (p : Program) (user old new : NodeKey)
    (nd : p.SlotsDistinct k) :
    (p.redirect user old new).dependencies k =
      if k = user then (p.dependencies k).map (redirected old new)
      else p.dependencies k := by
  have rewires := rewires_redirect p user old new
  split
  · next e =>
    refine rewires.dependencies_map nd fun edge _ target => ?_
    simp only [redirected, target.trans e, and_true]
    split <;> rfl
  · next ne =>
    refine rewires.dependencies_eq nd fun edge _ target => ?_
    rw [if_neg fun both => ne (target.symm.trans both.2)]

theorem map_redirected_of_not_mem {old : NodeKey} {list : List NodeKey} (ha : old ∉ list)
    (new : NodeKey) : list.map (redirected old new) = list := by
  refine map_eq_self fun k mem => ?_
  rw [redirected, if_neg]
  rintro rfl
  exact ha mem

theorem redirected_redirected (old new k : NodeKey) :
    redirected old new (redirected old new k) = redirected old new k := by
  simp only [redirected]
  split <;> simp_all

theorem dependencies_redirectAll (users : List NodeKey) (old new : NodeKey)
    (slots : ∀ k, p.SlotsExact k) (k : NodeKey) :
    (p.redirectAll users old new).dependencies k =
        (if k ∈ users then (p.dependencies k).map (redirected old new)
          else p.dependencies k) ∧
      (p.redirectAll users old new).SlotsExact k := by
  induction users generalizing p with
  | nil => exact ⟨by simp [redirectAll], slots k⟩
  | cons user rest ih =>
    have rewires := rewires_redirect p user old new
    obtain ⟨list, exact⟩ := ih fun k => rewires.slotsExact (slots k)
    refine ⟨?_, exact⟩
    rw [redirectAll, foldl_cons, ← redirectAll, list,
      dependencies_redirect p user old new (slots k).distinct]
    have twice : (redirected old new) ∘ (redirected old new) = redirected old new :=
      funext (redirected_redirected old new)
    by_cases here : k = user
    · subst here
      by_cases later : k ∈ rest
      · simp only [later, if_true, List.map_map, mem_cons, true_or, twice]
      · simp only [later, if_true, if_false, mem_cons, true_or]
    · simp only [here, if_false, mem_cons, false_or]

/-- When all readers of a node are redirected, every list is. -/
theorem dependencies_redirectAll_users (old new : NodeKey)
    (slots : ∀ k, p.SlotsExact k) (k : NodeKey) :
    (p.redirectAll (p.users old) old new).dependencies k =
      (p.dependencies k).map (redirected old new) := by
  rw [(dependencies_redirectAll (p.users old) old new slots k).1]
  split
  · rfl
  · next unread =>
    exact (map_redirected_of_not_mem (fun hr => unread (mem_users_iff.mpr hr)) new).symm

theorem redirectAll_rest (p : Program) (users : List NodeKey) (old new : NodeKey) :
    p.redirectAll users old new = { p with edges := (p.redirectAll users old new).edges } := by
  induction users generalizing p with
  | nil => rfl
  | cons user rest ih =>
    rw [redirectAll, foldl_cons, ← redirectAll, ih]
    rfl

/-! ## One slot -/

theorem rewires_retarget (n slot : Nat) (nd : p.SlotsDistinct next) : Rewires p (Edit.retarget p n next
    slot) fun edge => if edge.target = next ∧ edge.slot = slot then { edge with source := n } else edge
    where
  perm := by
    simp only [Edit.retarget]
    split
    · next edge hk =>
      have here : edge.target = next ∧ edge.slot = slot := by
        simpa using find?_some hk
      have mem := mem_of_find?_eq_some hk
      have perm := perm_cons_erase mem
      refine Perm.trans (.of_eq ?_) (perm.symm.map _)
      rw [map_cons, if_pos here, ← here.1, ← here.2]
      refine congrArg (cons _) ?_
      refine (map_eq_self fun o rest => ?_).symm
      rw [if_neg]
      -- No second edge into the node has this slot.
      rintro ⟨target, sameSlot⟩
      have slots : ((p.incoming next).map Edge.slot).Perm
          (edge.slot :: ((p.edges.erase edge).filter (·.target == next)).map Edge.slot) := by
        refine ((perm.filter (·.target == next)).map Edge.slot).trans (.of_eq ?_)
        rw [filter_cons_of_pos (by simpa using here.1), map_cons]
      have fr := (nodup_cons.mp (slots.nodup_iff.mp nd)).1
      refine fr (List.mem_map.mpr ⟨o, mem_filter.mpr ⟨rest, ?_⟩, sameSlot⟩)
      simpa [here.1] using target
    · next none =>
      refine .of_eq (map_eq_self fun edge mem => ?_).symm
      have differs := find?_eq_none.mp none edge mem
      rw [if_neg]
      simpa using differs
  target edge _ := by split <;> rfl
  slot edge _ := by split <;> rfl

/-- Retargeting one slot replaces one position of the dependency list. -/
theorem dependencies_retarget {n slot : NodeKey} (slots : ∀ k, p.SlotsExact k) (k : NodeKey) :
    (Edit.retarget p n next slot).dependencies k = if k = next then (p.dependencies k).set slot n else
    p.dependencies k := by
  have rewires := rewires_retarget n slot (slots next).distinct
  split
  · next e =>
    subst e
    rw [rewires.dependencies (slots k).distinct, dependencies_eq_map_readings]
    refine ext_getElem? fun pos => ?_
    rw [getElem?_map, getElem?_set, length_map, getElem?_map]
    cases hk : (p.readings k)[pos]? with
    | none =>
      have bound := List.getElem?_eq_none_iff.mp hk
      split
      · next here => rw [if_neg (by omega), map_none]
      · rfl
    | some edge =>
      have bound := (List.getElem?_eq_some_iff.mp hk).1
      have e := slot_of_readings_getElem? (slots k) hk
      have target := (mem_readings.mp (mem_of_getElem? hk)).2
      simp only [map_some, target, e, true_and]
      by_cases here : slot = pos
      · subst here
        simp [bound]
      · simp [here, Ne.symm here]
  · next ne =>
    refine rewires.dependencies_eq (slots k).distinct fun edge _ target => ?_
    rw [if_neg fun both => ne (target.symm.trans both.1)]

/-! ## Dropping edges -/

theorem incoming_dropEdges (p : Program) (condition : Edge → Bool) (k : NodeKey) :
    (p.dropEdges condition).incoming k = (p.incoming k).filter fun edge => !condition edge := by
  simp only [dropEdges, incoming, List.filter_filter]
  exact filter_congr fun edge _ => Bool.and_comm _ _

theorem SlotsDistinct.dropEdges (nd : p.SlotsDistinct k) (condition : Edge → Bool) :
    (p.dropEdges condition).SlotsDistinct k := by
  rw [SlotsDistinct, incoming_dropEdges]
  exact nd.sublist (filter_sublist.map _)

/-- Where all edges into a node are dropped, or none is, its slots stay exact. -/
theorem SlotsExact.dropEdges (slots : p.SlotsExact k) (all : Bool) (e : ∀ edge ∈ p.edges, edge.target = k
    → condition edge = all) : (p.dropEdges condition).SlotsExact k := by
  have kept : (p.incoming k).filter (fun edge => !condition edge) =
      (p.incoming k).filter fun _ => !all := by
    refine filter_congr fun edge mem => ?_
    obtain ⟨inEdges, into⟩ := mem_incoming.mp mem
    rw [e edge inEdges into]
  rw [SlotsExact, dependencyCount, incoming_dropEdges, kept]
  cases all with
  | true => simp
  | false => simpa [SlotsExact, dependencyCount] using slots

/-- When it depends on their sources which edges into a node are dropped, its list is filtered. -/
theorem dependencies_dropEdges (nd : p.SlotsDistinct k) (dropped : NodeKey → Bool) (src : ∀ edge ∈
    p.edges, edge.target = k → condition edge = dropped edge.source) : (p.dropEdges
    condition).dependencies k = (p.dependencies k).filter fun o => !dropped o := by
  have arranged : (p.dropEdges condition).readings k =
      (p.readings k).filter fun edge => !condition edge := by
    refine readings_eq_of_perm ?_ (nd.pairwise_readings.sublist filter_sublist)
    rw [incoming_dropEdges]
    exact (perm_readings p k).symm.filter _
  rw [dependencies_eq_map_readings, arranged, dependencies_eq_map_readings, List.filter_map]
  refine congrArg (List.map Edge.source) (filter_congr fun edge mem => ?_)
  obtain ⟨inEdges, target⟩ := mem_readings.mp mem
  simp only [Function.comp_apply, src edge inEdges target]

/-! ## Closing gaps -/

/-- The number of edges into the same node with a smaller slot. -/
def slotsBelow (edges : List Edge) (edge : Edge) : Nat :=
  edges.countP fun other => other.target == edge.target && decide (other.slot < edge.slot)

/-- An edge under its new slot. -/
def renumbered (edges : List Edge) (key : NodeKey) (edge : Edge) : Edge :=
  if edge.target = key then { edge with slot := slotsBelow edges edge } else edge

theorem rankSlots_eq_map (edges : List Edge) (k : NodeKey) (newer older : List Edge)
    (nd : (((newer.reverse ++ older).filter (·.target == k)).map Edge.slot).Nodup) :
    rankSlots edges k newer older = older.map (renumbered edges k) := by
  induction older generalizing newer with
  | nil => rfl
  | cons edge older ih =>
    rw [rankSlots, map_cons, ih (edge :: newer) (by simpa using nd)]
    refine congrArg (cons · _) ?_
    by_cases into : edge.target = k
    · -- No newer edge into the node has the slot of this one.
      have none : newer.countP (fun o =>
          o.target == edge.target && o.slot == edge.slot) = 0 := by
        refine countP_eq_zero.mpr fun o mem both => ?_
        simp only [Bool.and_eq_true, beq_iff_eq] at both
        rw [filter_append, map_append, nodup_append] at nd
        refine nd.2.2 o.slot ?_ edge.slot ?_ both.2
        · refine List.mem_map_of_mem (mem_filter.mpr ⟨mem_reverse.mpr mem, ?_⟩)
          simpa [into] using both.1
        · exact List.mem_map_of_mem (mem_filter.mpr ⟨mem_cons_self, by simpa using into⟩)
      simp only [into, BEq.rfl, if_true, renumbered, slotRank, slotsBelow] at none ⊢
      rw [none, Nat.add_zero]
    · simp [into, renumbered]

theorem edges_closeGaps (nd : p.SlotsDistinct k) :
    (p.closeGaps k).edges = p.edges.map (renumbered p.edges k) :=
  rankSlots_eq_map p.edges k [] p.edges nd

theorem incoming_closeGaps (nd : p.SlotsDistinct k) (o : NodeKey) :
    (p.closeGaps k).incoming o = (p.incoming o).map (renumbered p.edges k) := by
  rw [incoming, edges_closeGaps nd, List.filter_map]
  refine congrArg (List.map _) (filter_congr fun edge _ => ?_)
  simp only [Function.comp_apply, renumbered]
  split <;> rfl

theorem incoming_closeGaps_of_ne (nd : p.SlotsDistinct k) (ne : o ≠ k) :
    (p.closeGaps k).incoming o = p.incoming o := by
  rw [incoming_closeGaps nd]
  refine map_eq_self fun edge mem => ?_
  rw [renumbered, if_neg fun into => ne ((mem_incoming.mp mem).2.symm.trans into)]

/-- Counting smaller slots keeps the order of slots. -/
theorem slotsBelow_lt {edges : List Edge} {a b : Edge} (mem : a ∈ edges)
    (target : a.target = b.target) (smaller : a.slot < b.slot) :
    slotsBelow edges a < slotsBelow edges b := by
  obtain ⟨pre, after, rfl⟩ := append_of_mem mem
  have mono : ∀ others : List Edge, slotsBelow others a ≤ slotsBelow others b := by
    refine fun others => countP_mono_left fun o _ below => ?_
    simp only [Bool.and_eq_true, beq_iff_eq, decide_eq_true_eq] at below ⊢
    exact ⟨below.1.trans target, below.2.trans smaller⟩
  have front := mono pre
  have back := mono after
  simp only [slotsBelow, countP_append, countP_cons] at front back ⊢
  simp only [target, BEq.rfl, Nat.lt_irrefl, smaller, decide_true, decide_false, Bool.and_true,
    Bool.and_false, if_true] at front back ⊢
  simp only [Bool.false_eq_true, if_false]
  omega

section

variable (nd : p.SlotsDistinct k)

include nd

theorem SlotsDistinct.pairwise_renumbered : ((p.readings k).map (renumbered p.edges k)).Pairwise
      fun a b => a.slot < b.slot := by
  rw [pairwise_map]
  refine nd.pairwise_readings.imp_of_mem fun {a b} inFirst inSecond smaller => ?_
  obtain ⟨inEdges, intoFirst⟩ := mem_readings.mp inFirst
  have intoSecond := (mem_readings.mp inSecond).2
  simp only [renumbered, intoFirst, intoSecond, if_true]
  exact slotsBelow_lt inEdges (intoFirst.trans intoSecond.symm) smaller

theorem readings_closeGaps : (p.closeGaps k).readings k =
      (p.readings k).map (renumbered p.edges k) := by
  refine readings_eq_of_perm ?_ nd.pairwise_renumbered
  rw [incoming_closeGaps nd]
  exact (perm_readings p k).symm.map _

/-- Closing the gaps of a node changes no dependency list. -/
theorem dependencies_closeGaps (o : NodeKey) :
    (p.closeGaps k).dependencies o = p.dependencies o := by
  by_cases e : o = k
  · subst e
    rw [dependencies_eq_map_readings, readings_closeGaps nd, List.map_map]
    refine map_congr_left fun edge _ => ?_
    simp only [Function.comp_apply, renumbered]
    split <;> rfl
  · rw [dependencies_eq_map_readings, readings, incoming_closeGaps_of_ne nd e]
    rfl

theorem SlotsDistinct.closeGaps_self : (p.closeGaps k).SlotsDistinct k := by
  have ascends := nd.pairwise_renumbered
  rw [← readings_closeGaps nd] at ascends
  have perm := (perm_readings (p.closeGaps k) k).map Edge.slot
  refine perm.nodup_iff.mp (pairwise_map.mpr (ascends.imp fun smaller => ?_))
  exact Nat.ne_of_lt smaller

/-- **Closing the gaps makes slots exact.** -/
theorem slotsExact_closeGaps : (p.closeGaps k).SlotsExact k := by
  refine nd.closeGaps_self.exact fun edge mem => ?_
  rw [incoming_closeGaps nd] at mem
  obtain ⟨old, inOld, rfl⟩ := List.mem_map.mp mem
  obtain ⟨inEdges, into⟩ := mem_incoming.mp inOld
  simp only [dependencyCount, incoming_closeGaps nd, length_map, renumbered, into, if_true]
  -- The edge itself is not among those below it.
  have below : slotsBelow p.edges old = (p.incoming k).countP fun o => decide (o.slot < old.slot) := by
    rw [slotsBelow, incoming, countP_filter]
    simp only [into, Bool.and_comm]
  rw [below]
  refine lt_of_le_of_ne countP_le_length fun all => ?_
  have itself := countP_eq_length.mp all old inOld
  simp at itself

end

/-! ## Taking connections away -/

theorem SlotsDistinct.closeGaps (nd : ∀ k, p.SlotsDistinct k) (user : NodeKey)
    (k : NodeKey) : (p.closeGaps user).SlotsDistinct k := by
  by_cases e : k = user
  · subst e
    exact (nd k).closeGaps_self
  · rw [SlotsDistinct, incoming_closeGaps_of_ne (nd user) e]
    exact nd k

theorem SlotsExact.closeGaps (nd : ∀ k, p.SlotsDistinct k) (user : NodeKey)
    (slots : p.SlotsExact k) : (p.closeGaps user).SlotsExact k := by
  by_cases e : k = user
  · subst e
    exact slotsExact_closeGaps (nd k)
  · rw [SlotsExact, dependencyCount, incoming_closeGaps_of_ne (nd user) e]
    exact slots

/-- Taking a connection away strikes what was read from one list. -/
theorem dependencies_disconnect (slots : ∀ k, p.SlotsExact k) (prev next k : NodeKey) :
    ((p.dropEdges fun edge =>
        edge.source == prev && edge.target == next).closeGaps next).dependencies k =
      if k = next then (p.dependencies k).filter (· != prev)
      else p.dependencies k := by
  rw [dependencies_closeGaps ((slots next).distinct.dropEdges _)]
  split
  · next e =>
    rw [dependencies_dropEdges (slots k).distinct (· == prev)]
    · rfl
    · rintro edge - into
      simp [into, e]
  · next ne =>
    rw [dependencies_dropEdges (slots k).distinct fun _ => false]
    · simp
    · rintro edge - into
      simp [into, ne]

theorem slotsExact_disconnect (slots : ∀ k, p.SlotsExact k) (prev next k : NodeKey) :
    ((p.dropEdges fun edge =>
        edge.source == prev && edge.target == next).closeGaps next).SlotsExact k := by
  by_cases e : k = next
  · subst e
    exact slotsExact_closeGaps ((slots k).distinct.dropEdges _)
  · refine SlotsExact.closeGaps (fun o => (slots o).distinct.dropEdges _) next
      ((slots k).dropEdges false fun edge _ into => ?_)
    simp [into, e]

/-- Closing the gaps of several nodes changes no list and makes their slots exact. -/
theorem foldl_closeGaps (users : List NodeKey) (nd : ∀ k, p.SlotsDistinct k) :
    (∀ k, (users.foldl closeGaps p).dependencies k = p.dependencies k) ∧
      ∀ k, k ∈ users ∨ p.SlotsExact k → (users.foldl closeGaps p).SlotsExact k := by
  induction users generalizing p with
  | nil => exact ⟨fun _ => rfl, fun k slots => by simpa using slots⟩
  | cons user rest ih =>
    obtain ⟨lists, slots⟩ := ih (SlotsDistinct.closeGaps nd user)
    refine ⟨fun k => ?_, fun k h => ?_⟩
    · rw [foldl_cons, lists, dependencies_closeGaps (nd user)]
    · rw [foldl_cons]
      refine slots k ?_
      rcases h with hl | exactly
      · rcases mem_cons.mp hl with rfl | later
        · exact .inr (slotsExact_closeGaps (nd k))
        · exact .inl later
      · exact .inr (exactly.closeGaps nd user)

theorem foldl_closeGaps_rest (users : List NodeKey) (p : Program) : users.foldl closeGaps p =
      { p with edges := (users.foldl closeGaps p).edges } := by
  induction users generalizing p with
  | nil => rfl
  | cons user rest ih =>
    rw [foldl_cons, ih]
    rfl

theorem detach_rest (p : Program) (k : NodeKey) :
    p.detach k = { p with edges := (p.detach k).edges } := by
  rw [detach, foldl_closeGaps_rest]
  rfl

/-- A detached node reads nothing, and is struck from every list. -/
theorem dependencies_detach (slots : ∀ k, p.SlotsExact k) (k o : NodeKey) :
    (p.detach k).dependencies o =
      if o = k then [] else (p.dependencies o).filter (· != k) := by
  rw [detach, (foldl_closeGaps _ fun o => (slots o).distinct.dropEdges _).1]
  split
  · next e =>
    subst e
    rw [dependencies_dropEdges (slots o).distinct fun _ => true]
    · simp
    · rintro edge - into
      simp [into]
  · next ne =>
    rw [dependencies_dropEdges (slots o).distinct (· == k)]
    · rfl
    · rintro edge - into
      simp [into, ne]

theorem slotsExact_detach (slots : ∀ k, p.SlotsExact k) (k o : NodeKey) :
    (p.detach k).SlotsExact o := by
  refine (foldl_closeGaps _ fun o => (slots o).distinct.dropEdges _).2 o ?_
  by_cases hr : o ∈ p.users k
  · exact .inl hr
  · right
    by_cases e : o = k
    · refine (slots o).dropEdges true fun edge _ into => ?_
      simp [into, e]
    · refine (slots o).dropEdges false fun edge inEdges into => ?_
      have src : edge.source ≠ k := fun start =>
        hr (mem_users.mpr ⟨edge, inEdges, start, into⟩)
      simp [src, into, e]

/-! ## Handing a node's wiring to another one -/

section Replace

variable {old new : NodeKey} (model : Node) (newId : String)

/-- The edges into a node after a replacement: copies of edges out of and into the old node, and
edges that were there, without those of the old node. -/
theorem incoming_replaceNode (p : Program) (old new k : NodeKey) :
    let kept := fun edge : Edge => edge.target == k && (edge.source != old && edge.target != old)
    (p.replaceNode old new model newId).incoming k = ((p.outgoing old).map fun edge : Edge => { edge with
      source := new }).reverse.filter kept ++ ((p.incoming old).map fun edge : Edge => { edge with target
      := new }).reverse.filter kept ++ p.edges.filter kept := by
  intro kept
  rw [← filter_append, ← filter_append, ← List.filter_filter]
  rfl

theorem incoming_replaceNode_old (p : Program) (old new : NodeKey) :
    (p.replaceNode old new model newId).incoming old = [] := by
  rw [incoming_replaceNode, ← filter_append, ← filter_append, filter_eq_nil_iff]
  rintro edge - both
  simp only [Bool.and_eq_true, beq_iff_eq, bne_iff_ne, ne_eq] at both
  exact both.2.2 both.1

theorem incoming_replaceNode_new (ne : old ≠ new) (unread : old ∉ p.dependencies old)
    (alone : p.dependencies new = []) :
    ((p.replaceNode old new model newId).incoming new).Perm
      ((p.incoming old).map fun edge : Edge => { edge with target := new }) := by
  have notInto : ∀ edge ∈ p.edges, edge.target ≠ new := fun edge mem into => by
    have hr := mem_dependencies.mpr ⟨edge, mem, rfl, into⟩
    simp [alone] at hr
  rw [incoming_replaceNode, filter_eq_nil_iff.mpr, filter_eq_self.mpr,
    filter_eq_nil_iff.mpr, nil_append, append_nil]
  · exact reverse_perm _
  · intro edge mem
    simp [notInto edge mem]
  · intro edge mem
    obtain ⟨pre, inBefore, rfl⟩ := List.mem_map.mp (mem_reverse.mp mem)
    obtain ⟨inEdges, into⟩ := mem_incoming.mp inBefore
    have src : pre.source ≠ old := fun e =>
      unread (mem_dependencies.mpr ⟨pre, inEdges, e, into⟩)
    simp [src, Ne.symm ne]
  · intro edge mem
    obtain ⟨pre, inBefore, rfl⟩ := List.mem_map.mp (mem_reverse.mp mem)
    simp [notInto pre (mem_of_mem_filter inBefore)]

theorem incoming_replaceNode_of_ne (ne : old ≠ new) (notOld : k ≠ old) (notNew : k ≠ new) :
    ((p.replaceNode old new model newId).incoming k).Perm ((p.incoming k).map fun edge =>
        if edge.source = old then { edge with source := new } else edge) := by
  have copies : (((p.incoming old).map fun edge : Edge =>
      { edge with target := new }).reverse.filter fun edge : Edge =>
        edge.target == k && (edge.source != old && edge.target != old)) = [] := by
    refine filter_eq_nil_iff.mpr fun edge mem => ?_
    obtain ⟨pre, -, rfl⟩ := List.mem_map.mp (mem_reverse.mp mem)
    simp [Ne.symm notNew]
  rw [incoming_replaceNode, copies, append_nil, filter_reverse, outgoing, incoming]
  refine ((reverse_perm _).append_right _).trans ?_
  induction p.edges with
  | nil => rfl
  | cons edge rest ih =>
    by_cases into : edge.target = k
    · by_cases src : edge.source = old
      · simpa [src, into, notOld, Ne.symm ne] using ih
      · simpa [src, into, notOld] using perm_middle.trans (ih.cons edge)
    · by_cases src : edge.source = old
      · simpa [src, into] using ih
      · simpa [src, into] using ih

/-- **A replacement reads what the node it replaces read, and is read in its place.** -/
theorem dependencies_replaceNode (slots : ∀ k, p.SlotsExact k) (ne : old ≠ new)
    (unread : old ∉ p.dependencies old) (alone : p.dependencies new = []) (k : NodeKey) :
    (p.replaceNode old new model newId).dependencies k =
      if k = old then []
      else if k = new then p.dependencies old
      else (p.dependencies k).map (redirected old new) := by
  by_cases isOld : k = old
  · rw [if_pos isOld, isOld, dependencies, incoming_replaceNode_old]
    rfl
  rw [if_neg isOld]
  by_cases isNew : k = new
  · rw [if_pos isNew, isNew, dependencies_of_incoming (incoming_replaceNode_new model newId ne unread
      alone) (fun _ _ => rfl) (slots old).distinct]
    rfl
  · rw [if_neg isNew]
    refine dependencies_of_incoming_map (incoming_replaceNode_of_ne model newId ne isOld isNew)
      ?_ (slots k).distinct ?_
    · intro edge _
      split <;> rfl
    · intro edge _
      rw [redirected]
      split <;> rfl

theorem slotsExact_replaceNode (slots : ∀ k, p.SlotsExact k) (ne : old ≠ new)
    (unread : old ∉ p.dependencies old) (alone : p.dependencies new = [])
    (k : NodeKey) : (p.replaceNode old new model newId).SlotsExact k := by
  by_cases isOld : k = old
  · simp [isOld, SlotsExact, dependencyCount, incoming_replaceNode_old]
  by_cases isNew : k = new
  · rw [isNew]
    exact (slots old).of_incoming (incoming_replaceNode_new model newId ne unread alone) fun _ _ => rfl
  · refine (slots k).of_incoming (incoming_replaceNode_of_ne model newId ne isOld isNew) fun edge _ => ?_
    split <;> rfl

end Replace

end LayerGraph.Program
