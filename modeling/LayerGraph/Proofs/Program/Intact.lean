import LayerGraph.Proofs.Program.Placement
import LayerGraph.Proofs.Program.Renaming

/-!
# Intact programs

A node that reads itself can be replaced, and then the slots of its replacement have a gap: the program
is not consistent any more. What every operation keeps, whatever is done, is less. A program is intact
when its names and outputs agree with its nodes, and its edges run between live nodes (`Intact`).
Nothing is asked of slots, of the order and of the inputs.
-/

namespace LayerGraph

open List

namespace Program

variable {p q : Program} {k o : NodeKey} {n : Node}

/-- The nodes of a program with their names and the outputs, without everything that speaks of how they
are connected. -/
def unwired (program : Program) : Program := { program with edges := [], order := {}, inputs := [] }

/-- The nodes agree with the names and the outputs, and edges run between live nodes. -/
structure Intact (program : Program) : Prop where
  unwired : program.unwired.Consistent
  joined : ∀ edge ∈ program.edges, program.contains edge.source ∧ program.contains edge.target

theorem Consistent.unwired (wf : p.Consistent) : p.unwired.Consistent :=
  { wf with
    reads_live := by simp [Program.unwired, dependencies, incoming, sortByRank]
    slots := by simp [Program.unwired, SlotsExact, incoming, dependencyCount]
    order_nodup := nodup_nil
    order_live := fun _ hl => absurd hl not_mem_nil
    inputs_live := fun _ hl => absurd hl not_mem_nil }

theorem Consistent.intact (wf : p.Consistent) : p.Intact where
  unwired := wf.unwired
  joined edge mem := wf.reads_live edge.target edge.source (mem_dependencies.mpr ⟨edge, mem, rfl, rfl⟩)

/-! ## The ends of edges -/

/-- The nodes that an edge joins. -/
def ends (edge : Edge) : NodeKey × NodeKey := (edge.source, edge.target)

theorem map_ends_rankSlots (edges : List Edge) (k : NodeKey) (newer older : List Edge) :
    (rankSlots edges k newer older).map ends = older.map ends := by
  induction older generalizing newer with
  | nil => rfl
  | cons edge older ih =>
    rw [rankSlots, map_cons, map_cons, ih]
    split <;> rfl

theorem map_ends_foldl_closeGaps (users : List NodeKey) (p : Program) :
    (users.foldl closeGaps p).edges.map ends = p.edges.map ends := by
  induction users generalizing p with
  | nil => rfl
  | cons user rest ih =>
    rw [foldl_cons, ih]
    exact map_ends_rankSlots p.edges user [] p.edges

theorem mem_edges_redirectAll {users : List NodeKey} {old new : NodeKey} {edge : Edge}
    (mem : edge ∈ (p.redirectAll users old new).edges) : ∃ pre ∈ p.edges, pre.target = edge.target ∧
      (edge.source = pre.source ∨ edge.source = new) := by
  induction users generalizing p with
  | nil => exact ⟨edge, mem, rfl, .inl rfl⟩
  | cons user rest ih =>
    obtain ⟨mid, inMiddle, tgt, src⟩ := ih mem
    simp only [redirect, partition_eq_filter_filter, mem_append, mem_reverse,
      List.mem_map, mem_filter] at inMiddle
    obtain ⟨pre, ⟨mem, -⟩, rfl⟩ | ⟨mem, -⟩ := inMiddle
    · exact ⟨pre, mem, tgt, .inr (src.elim (fun e => e) fun e => e)⟩
    · exact ⟨mid, mem, tgt, src⟩

namespace Intact

variable (intact : p.Intact)

include intact

theorem mem_keys : k ∈ p.keys ↔ p.contains k := intact.unwired.mem_keys

theorem reads_live (k dep : NodeKey) (hr : dep ∈ p.dependencies k) :
    p.contains dep ∧ p.contains k := by
  obtain ⟨edge, mem, rfl, rfl⟩ := mem_dependencies.mp hr
  exact intact.joined edge mem

/-! ## Changes of the wiring -/

variable {edges : List Edge} {old new next : NodeKey}

theorem rewired (joined : ∀ edge ∈ edges, p.contains edge.source ∧ p.contains edge.target) : { p with
    edges }.Intact := ⟨intact.unwired, joined⟩

theorem of_ends (subset : edges.map ends ⊆ p.edges.map ends) : { p with edges }.Intact := by
  refine intact.rewired fun edge mem => ?_
  obtain ⟨pre, h, e⟩ := List.mem_map.mp (subset (List.mem_map_of_mem mem))
  obtain ⟨src, tgt⟩ := Prod.mk.inj e
  rw [← src, ← tgt]
  exact intact.joined pre h

theorem attach (sourceLive : p.contains k) (targetLive : p.contains o) : (p.attach k o).Intact := by
  refine intact.rewired fun edge mem => ?_
  rcases mem_cons.mp mem with rfl | pre
  · exact ⟨sourceLive, targetLive⟩
  · exact intact.joined edge pre

theorem detach (k : NodeKey) : (p.detach k).Intact := by
  rw [detach_rest]
  refine intact.of_ends ?_
  rw [Program.detach, map_ends_foldl_closeGaps]
  exact map_subset _ filter_sublist.subset

theorem separated (prev next : NodeKey) : (p.separated prev next).Intact := by
  rw [Program.separated]
  split
  · refine intact.of_ends ?_
    rw [map_ends_rankSlots]
    exact map_subset _ filter_sublist.subset
  · exact intact

theorem redirectAll (newLive : p.contains new) (users : List NodeKey) : (p.redirectAll users old
    new).Intact := by
  rw [redirectAll_rest]
  refine intact.rewired fun edge mem => ?_
  obtain ⟨pre, h, tgt, src⟩ := mem_edges_redirectAll mem
  obtain ⟨sourceLive, targetLive⟩ := intact.joined pre h
  refine ⟨?_, tgt ▸ targetLive⟩
  rcases src with e | e
  · exact e ▸ sourceLive
  · exact e ▸ newLive

theorem retarget (nodeLive : p.contains k) (nextLive : p.contains next) (slot : Nat) : (Edit.retarget p k
    next slot).Intact := by
  rw [Edit.retarget]
  split
  · refine intact.rewired fun edge mem => ?_
    rcases mem_cons.mp mem with rfl | pre
    · exact ⟨nodeLive, nextLive⟩
    · exact intact.joined edge (mem_of_mem_erase pre)
  · exact intact

/-! ## Changes of nodes and lists -/

theorem reordered (order : ProcessingOrder) : { p with order }.Intact :=
  ⟨intact.unwired, intact.joined⟩

theorem withInputs (inputs : List NodeKey) : { p with inputs }.Intact :=
  ⟨intact.unwired, intact.joined⟩

theorem altered (alters : Alters Node.label p q) : q.Intact where
  unwired := by
    refine intact.unwired.altered ⟨?_, alters.wellFormed, alters.same⟩
    rw [alters.rest]
    rfl
  joined edge mem := by
    rw [alters.contains, alters.contains]
    rw [alters.rest] at mem
    exact intact.joined edge mem

theorem marked (marks : Marked p q) : q.Intact :=
  intact.altered (marks.weaken Node.label fun _ => rfl)

theorem ensure (prim : Primitive) : (p.ensure prim).1.Intact := by
  cases taken : p.keyOf? prim.id with
  | some k => rwa [ensure_of_keyOf? taken]
  | none =>
    have fr : p.unwired.keyOf? prim.id = none := taken
    have e : (p.ensure prim).1.unwired = (p.unwired.ensure prim).1 := by
      rw [ensure_rest taken, ensure_rest fr, ensure_key taken, ensure_key fr]
      rfl
    have hv : ∀ k, p.contains k → (p.ensure prim).1.unwired.contains k := by
      rw [e]
      exact fun k h => (contains_ensure intact.unwired fr).mpr (.inr h)
    refine ⟨e ▸ intact.unwired.ensure prim, fun edge mem => ?_⟩
    rw [ensure_rest taken] at mem
    obtain ⟨src, tgt⟩ := intact.joined edge mem
    exact ⟨hv _ src, hv _ tgt⟩

theorem detachAndErase (hk : p.node? k = some n) : (p.detachAndErase k).Intact := by
  have again : (p.detach k).node? k = some n := by
    rw [detach_rest]
    exact hk
  have erased : p.detachAndErase k = { p with
      store := p.store.erase k
      edges := (p.detach k).edges.filter fun edge => edge.source != k && edge.target != k
      names := p.names.filter (·.1 != n.id)
      order := p.order.erase k
      inputs := p.inputs.filter (· != k)
      outputs := p.outputs.filter (· != k)
      optimizedOut := p.optimizedOut ++ [n.id] } := by
    rw [Program.detachAndErase, eraseNode]
    simp only [again, removeNode]
    rw [detach_rest]
  have bare := (intact.unwired.detachAndErase hk).unwired
  rw [detachAndErase_eq intact.unwired.slots hk] at bare
  rw [erased]
  refine ⟨bare, fun edge mem => ?_⟩
  obtain ⟨stays, apart⟩ := mem_filter.mp mem
  simp only [Bool.and_eq_true, bne_iff_ne] at apart
  have joined := (intact.detach k).joined edge stays
  have hv : ∀ o, o ≠ k → (p.detach k).contains o → (p.store.erase k).contains o := by
    intro o ne h
    rw [detach_rest] at h
    obtain ⟨otherNode, ho⟩ := contains_iff.mp h
    refine NodeStore.contains_iff.mpr ⟨otherNode, ?_⟩
    rw [NodeStore.get?_erase, if_neg ne]
    exact ho
  exact ⟨hv _ apart.1 joined.1, hv _ apart.2 joined.2⟩

theorem removeAll (ks : List NodeKey) : (p.removeAll ks).Intact := by
  induction ks generalizing p with
  | nil => exact intact
  | cons k rest ih =>
    refine ih ?_
    show (if p.contains k then p.detachAndErase k else p).Intact
    split
    · next hv =>
      obtain ⟨n, hk⟩ := contains_iff.mp hv
      exact intact.detachAndErase hk
    · exact intact

theorem setOutput (k : NodeKey) (output : Bool) : (p.setOutput k output).Intact where
  unwired := by
    have e : (p.setOutput k output).unwired = (p.unwired.setOutput k output).unwired := by
      simp only [Program.setOutput, apply_ite Program.unwired]
      rfl
    rw [e]
    exact (intact.unwired.setOutput k output).unwired
  joined edge mem := by
    rw [contains_setOutput, contains_setOutput]
    rw [setOutput_rest] at mem
    exact intact.joined edge mem

theorem relabelled (bare : q.unwired.Consistent) (edges : q.edges = p.edges)
    (hv : ∀ k, p.contains k → q.contains k) : q.Intact := by
  refine ⟨bare, fun edge mem => ?_⟩
  obtain ⟨src, tgt⟩ := intact.joined edge (edges ▸ mem)
  exact ⟨hv _ src, hv _ tgt⟩

theorem renameNode {id : String} (hk : p.node? k = some n)
    (unused : p.keyOf? id = none) : (p.renameNode k n id).Intact := by
  refine intact.relabelled (intact.unwired.renameNode hk unused) rfl fun o hv => ?_
  obtain ⟨otherNode, ho⟩ := contains_iff.mp hv
  rw [contains_iff, node?_renameNode, ho]
  split
  · exact ⟨_, rfl⟩
  · exact ⟨_, rfl⟩

theorem exchangeNodeIds {one two : Node} (foundFirst : p.node? k = some one)
    (foundSecond : p.node? o = some two) : (p.exchangeNodeIds k o one.id two.id).Intact := by
  refine intact.relabelled (intact.unwired.exchangeNodeIds foundFirst foundSecond) rfl
    fun place hv => ?_
  obtain ⟨placed, foundPlaced⟩ := contains_iff.mp hv
  rw [contains_iff, node?_exchangeNodeIds, foundPlaced]
  exact ⟨_, rfl⟩

/-- A node that reads itself may be replaced too. -/
theorem replaceNode {model rep : Node} (repl : p.Replaceable old new model rep) : (p.replaceNode old new
    model rep.id).Intact := by
  have bare : p.unwired.Replaceable old new model rep :=
    { repl with alone := rfl, unread := fun _ => not_mem_nil }
  have hv := repl.contains
  refine ⟨(bare.consistent intact.unwired not_mem_nil).unwired, fun edge mem => ?_⟩
  have newLive : p.contains new := contains_of_node? repl.foundNew
  obtain ⟨apart, origin⟩ := mem_edges_replaceNode.mp mem
  rw [hv, hv]
  have ends : p.contains edge.source ∧ p.contains edge.target := by
    obtain ⟨h, hl, -, rfl⟩ | ⟨h, hl, -, rfl⟩ | pre := origin
    · exact ⟨newLive, (intact.joined h hl).2⟩
    · exact ⟨(intact.joined h hl).1, newLive⟩
    · exact intact.joined edge pre
  exact ⟨⟨ends.1, apart.1⟩, ends.2, apart.2⟩

/-! ## Insertions and turned connections -/

theorem puts {slot : NodeKey} {how : Edit.Insertion} (puts : PutsAt p q k next slot how) : q.Intact := by
  obtain ⟨prev, hm, insertable, marks, -, rfl⟩ := puts
  have prevLive := (intact.reads_live next prev (mem_of_getElem? insertable.reads)).1
  have ht : ∀ start : Program, start.Intact → start.store = p.store →
      (if how.moveUsers then start.redirectAll ((start.users prev).filter (· != k)) prev k
        else Edit.retarget start k next slot).Intact := by
    intro start intactStart store
    have hv : ∀ o, p.contains o → start.contains o := fun o h => by
      rw [Program.contains, store]
      exact h
    split
    · exact intactStart.redirectAll (hv k insertable.nodeLive) _
    · exact intactStart.retarget (hv k insertable.nodeLive) (hv next insertable.nextLive) slot
  have wired : (p.rewiredAt k next slot prev how).Intact := by
    refine ht (if how.connect then p.attach prev k else p) ?_ ?_
    · split
      · exact intact.attach prevLive insertable.nodeLive
      · exact intact
    · split <;> rfl
  rw [rewiredAt_rest] at wired
  have placed : (p.insertedAt k next slot prev how).Intact := by
    rw [insertedAt_rest]
    exact wired.reordered _
  rw [unlisted_rest]
  exact (placed.marked marks).withInputs _

theorem turned {dep user : NodeKey} (turnable : p.Turnable dep user) :
    (p.turned dep user).Intact := by
  have hv : ∀ k, p.contains k → (p.separated dep user).contains k := by
    intro k h
    rw [Program.separated]
    split <;> exact h
  exact ((intact.separated dep user).attach (hv user turnable.userLive)
    (hv dep turnable.depLive)).withInputs _

theorem wellFormed_graph : p.graph.WellFormed where
  nodup := intact.unwired.keys_nodup
  closed _ _ _ hr := intact.mem_keys.mpr (intact.reads_live _ _ hr).1
  mem_users _ _ _ := by
    refine ⟨fun uses => ?_, fun both => mem_users_iff.mpr both.2⟩
    have hr := mem_users_iff.mp uses
    exact ⟨intact.mem_keys.mpr (intact.reads_live _ _ hr).2, hr⟩

/-- A cycle is found at a live node. -/
theorem live_of_cycle (cycle : p.graph.depthFirst p.outputs = .error k) : p.contains k :=
  intact.mem_keys.mp (DependencyGraph.depthFirst_error_mem intact.wellFormed_graph.closed
    intact.unwired.outputs_subset_keys cycle)

end Intact

end Program

end LayerGraph
