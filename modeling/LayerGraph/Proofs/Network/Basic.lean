import LayerGraph.Proofs.Build.Rewriting
import LayerGraph.Proofs.Program.Construction

/-!
# Networks

Keys, edges and orders are how a program is stored. What it is can be told by ids alone: which node
has which id, what it reads under which ids, and how often an id has been removed (`Network`). Two
programs with the same network differ in nothing but their keys and their orders.

Conflicts between buffers are part of the network only when they are found without regard to an
order of processing (`Program.shown`).

Edits of programs are edits of networks. A node is changed (`network_modifyNode`), removed
(`network_detachAndErase`), bypassed (`network_bypass`), or made an output (`network_setOutput`).
-/

namespace LayerGraph

open List Option

/-- A node together with the ids that it reads. -/
structure Cell extends Node where
  reads : List String
  /-- How often the node is listed among the inputs. -/
  listed : Nat
deriving DecidableEq

namespace Cell

/-- A changed node that reads what it read. -/
def withNode (cell : Cell) (change : Node → Node) : Cell :=
  { change cell.toNode with reads := cell.reads, listed := cell.listed }

/-- The cell with other ids that are read. -/
def withReads (cell : Cell) (change : List String → List String) : Cell :=
  { cell with reads := change cell.reads }

end Cell

/-- The node with other notes about conflicts. -/
def Node.noting (node : Node) (ids : List String) : Node := { node with conflicts := ids }

/-- A change of a node that keeps its id, and neither depends on the notes about conflicts nor touches
them. -/
structure Node.Blind (change : Node → Node) : Prop where
  id : ∀ node, (change node).id = node.id
  conflicts : ∀ node ids, change (node.noting ids) = (change node).noting ids

/-- What a program is, without regard to keys and orders. -/
@[ext] structure Network where
  cell? : String → Option Cell
  /-- How often an id is listed among those that have been removed. -/
  dropped : String → Nat

/-- The id that is read instead of `id` when readers of `old` read `new`. -/
def rerouted (old new id : String) : String := if id = old then new else id

theorem rerouted_comm {old new m put : String} (ne : old ≠ m) (apart : new ≠ m)
    (apartToo : put ≠ old) (id : String) :
    rerouted m put (rerouted old new id) = rerouted old new (rerouted m put id) := by
  simp only [rerouted]
  by_cases isOld : id = old
  · subst isOld
    simp only [if_true, apart, ne, if_false]
  · by_cases isAnother : id = m
    · subst isAnother
      simp only [isOld, if_true, if_false, apartToo]
    · simp only [isOld, isAnother, if_false]

namespace Network

variable {net : Network} {id r src : String}

/-- Whether a node has the id. -/
def has (net : Network) (id : String) : Prop := ∃ cell, net.cell? id = some cell

/-- One node reads another. -/
def Reads (net : Network) (reader source : String) : Prop :=
  ∃ cell, net.cell? reader = some cell ∧ source ∈ cell.reads

/-- The nodes that a node reads, in slot order. -/
def sources (net : Network) (cell : Cell) : List Node :=
  (cell.reads.filterMap net.cell?).map Cell.toNode

/-- Puts a cell, or nothing, in the place of an id. -/
def put (net : Network) (id : String) (cell : Option Cell) : Network :=
  { net with cell? := fun other => if other = id then cell else net.cell? other }

/-- Notes an id as removed. -/
def drop (net : Network) (id : String) : Network :=
  { net with dropped := fun other => net.dropped other + if other = id then 1 else 0 }

/-- Changes what is read everywhere. -/
def rewire (net : Network) (change : List String → List String) : Network :=
  { net with cell? := fun id => (net.cell? id).map (·.withReads change) }

@[simp] theorem cell?_put (net : Network) (id o : String) (c : Option Cell) :
    (net.put id c).cell? o = if o = id then c else net.cell? o := rfl

@[simp] theorem dropped_put (net : Network) (id : String) (c : Option Cell) :
    (net.put id c).dropped = net.dropped := rfl

@[simp] theorem cell?_drop (net : Network) (id : String) : (net.drop id).cell? = net.cell? := rfl

@[simp] theorem dropped_drop (net : Network) (id o : String) :
    (net.drop id).dropped o = net.dropped o + if o = id then 1 else 0 := rfl

@[simp] theorem cell?_rewire (net : Network) (change : List String → List String) (id : String) :
    (net.rewire change).cell? id = (net.cell? id).map (·.withReads change) := rfl

@[simp] theorem dropped_rewire (net : Network) (change : List String → List String) :
    (net.rewire change).dropped = net.dropped := rfl

/-- Removes a node, and strikes it wherever it is read. -/
def strike (net : Network) (id : String) : Network :=
  ((net.rewire (·.filter (· != id))).put id none).drop id

/-- Removes a node; what it reads is read in its place. -/
def bypass (net : Network) (id input : String) : Network :=
  ((net.rewire (·.map (rerouted id input))).put id none).drop id

end Network

namespace Program

variable {p q : Program} {k o : NodeKey} {n : Node} {id : String} {c : Cell}

/-- A node as far as it does not depend on the order of processing. -/
def shown (program : Program) (node : Node) : Node :=
  node.noting (if program.options.memoryStrategy = .outOfOrderAware then node.conflicts else [])

/-- The cell of a node. -/
def cellAt (program : Program) (key : NodeKey) (node : Node) : Cell :=
  { program.shown node with
    reads := (program.dependencies key).map program.idOf
    listed := program.inputs.count key }

/-- The cell of a key. -/
def face? (program : Program) (key : NodeKey) : Option Cell :=
  (program.node? key).map (program.cellAt key)

/-- The network of a program. -/
def network (program : Program) : Network where
  cell? id := (program.keyOf? id).bind program.face?
  dropped id := program.optimizedOut.count id

theorem face?_of_node? (hk : p.node? k = some n) : p.face? k = some (p.cellAt k n) := by
  rw [face?, hk]
  rfl

theorem exists_of_face? (hk : p.face? k = some c) : ∃ n, p.node? k = some n ∧ c = p.cellAt k n := by
  obtain ⟨n, st, made⟩ := map_eq_some_iff.mp hk
  exact ⟨n, st, made.symm⟩

theorem id_cellAt (p : Program) (k : NodeKey) (n : Node) :
    (p.cellAt k n).id = n.id := rfl

/-! ## Looking cells up -/

theorem cell?_of_unused (unused : p.keyOf? id = none) : p.network.cell? id = none := by
  show (p.keyOf? id).bind p.face? = none
  rw [unused, bind_none]

namespace Consistent

section

variable (wf : p.Consistent)

include wf

theorem cell?_eq_some : p.network.cell? id = some c ↔ ∃ k, p.face? k = some c ∧ c.id = id := by
  rw [network, bind_eq_some_iff]
  constructor
  · rintro ⟨k, named, hk⟩
    obtain ⟨n, st, rfl⟩ := exists_of_face? hk
    obtain ⟨e, storedSame, sameId⟩ := wf.keyOf?_eq_some.mp named
    cases st.symm.trans storedSame
    exact ⟨k, hk, sameId⟩
  · rintro ⟨k, hk, sameId⟩
    obtain ⟨n, st, rfl⟩ := exists_of_face? hk
    exact ⟨k, wf.keyOf?_eq_some.mpr ⟨n, st, sameId⟩, hk⟩

theorem cell?_of_node? (hk : p.node? k = some n) : p.network.cell? n.id = some (p.cellAt k n) :=
  wf.cell?_eq_some.mpr ⟨k, face?_of_node? hk, rfl⟩

theorem exists_cell_iff (hk : p.node? k = some n)
    {holds : Cell → Prop} : (∃ c, p.network.cell? n.id = some c ∧ holds c) ↔
      holds (p.cellAt k n) := by
  simp only [wf.cell?_of_node? hk, some.injEq, exists_eq_left']

theorem exists_node_of_cell? (hk : p.network.cell? id = some c) : ∃ k n,
      p.node? k = some n ∧ n.id = id ∧ c = p.cellAt k n := by
  obtain ⟨k, face, sameId⟩ := wf.cell?_eq_some.mp hk
  obtain ⟨n, st, rfl⟩ := exists_of_face? face
  exact ⟨k, n, st, sameId, rfl⟩

theorem has_iff : p.network.has id ↔ ∃ k n, p.node? k = some n ∧ n.id = id := by
  constructor
  · rintro ⟨c, hk⟩
    obtain ⟨k, n, st, sameId, -⟩ := wf.exists_node_of_cell? hk
    exact ⟨k, n, st, sameId⟩
  · rintro ⟨k, n, st, rfl⟩
    exact ⟨_, wf.cell?_of_node? st⟩

theorem has_iff_contains : p.network.has id ↔ ∃ k, p.contains k ∧ p.idOf k = id := by
  rw [wf.has_iff]
  apply exists_congr
  intro k
  constructor
  · rintro ⟨n, hk, rfl⟩
    exact ⟨contains_of_node? hk, idOf_of_node? hk⟩
  · intro h
    obtain ⟨n, hk⟩ := contains_iff.mp h.1
    exact ⟨n, hk, idOf_of_node? hk ▸ h.2⟩

theorem hasId_iff_has : p.hasId id ↔ p.network.has id := by
  rw [wf.has_iff, hasId, isSome_iff_exists]
  exact exists_congr fun k => wf.keyOf?_eq_some

variable {ks : List NodeKey}

/-- Different live keys have different ids. -/
theorem nodup_map_idOf (nd : ks.Nodup) (hv : ∀ k ∈ ks, p.contains k) : (ks.map p.idOf).Nodup :=
  Nodup.map_on (fun a hl b listedToo e =>
    (wf.idOf_inj (hv a hl) (hv b listedToo)).mp e) nd

/-- Which ids a list of keys stands for can be told from the nodes. -/
theorem mem_map_idOf (holds : String → Prop) (hv : ∀ k ∈ ks, p.contains k) (there : ∀ id, holds id →
    p.network.has id) (each : ∀ k n, p.node? k = some n → (k ∈ ks ↔ holds n.id)) : id ∈ ks.map p.idOf
    ↔ holds id := by
  rw [List.mem_map]
  constructor
  · rintro ⟨k, hl, rfl⟩
    obtain ⟨n, hk⟩ := contains_iff.mp (hv k hl)
    rw [idOf_of_node? hk]
    exact (each k n hk).mp hl
  · intro h
    obtain ⟨k, n, hk, rfl⟩ := wf.has_iff.mp (there id h)
    exact ⟨k, (each k n hk).mpr h, idOf_of_node? hk⟩

/-- A network is told by the cells of the keys. -/
theorem network_eq {net : Network} (dropped : ∀ id, p.optimizedOut.count id = net.dropped id)
    (shows : ∀ k c, p.face? k = some c → net.cell? c.id = some c)
    (covers : ∀ id c, net.cell? id = some c →
      ∃ k, p.face? k = some c ∧ c.id = id) : p.network = net := by
  apply Network.ext
  · funext id
    apply Option.ext
    intro c
    rw [wf.cell?_eq_some]
    constructor
    · rintro ⟨k, hk, rfl⟩
      exact shows k c hk
    · exact covers id c
  · funext id
    exact dropped id

end

/-- An edit that treats one key on its own and all others alike treats their ids so. -/
theorem cell?_of_faces (pre : p.Consistent) (after : q.Consistent) {special : String}
    {own : Option Cell} (others : String → Cell → Cell)
    (named : ∀ o m, p.node? o = some m → (m.id = special ↔ o = k))
    (here : q.face? k = own) (ownId : ∀ c, own = some c → c.id = special)
    (elsewhere : ∀ o, o ≠ k →
      q.face? o = (p.face? o).map fun c => others c.id c)
    (ids : ∀ id c, (others id c).id = c.id) (id : String) : q.network.cell? id =
      if id = special then own else (p.network.cell? id).map (others id) := by
  apply Option.ext
  intro c
  rw [after.cell?_eq_some]
  constructor
  · rintro ⟨o, face, rfl⟩
    by_cases isKey : o = k
    · rw [isKey, here] at face
      rw [if_pos (ownId c face), face]
    · rw [elsewhere o isKey] at face
      obtain ⟨old, foundOld, rfl⟩ := map_eq_some_iff.mp face
      obtain ⟨m, st, rfl⟩ := exists_of_face? foundOld
      rw [ids, id_cellAt, if_neg fun e => isKey ((named o m st).mp e),
        pre.cell?_of_node? st, map_some]
  · intro h
    split at h
    · next isSpecial => exact ⟨k, here.trans h, (ownId c h).trans isSpecial.symm⟩
    · next isOther =>
      obtain ⟨old, hc, rfl⟩ := map_eq_some_iff.mp h
      obtain ⟨o, m, st, rfl, rfl⟩ := pre.exists_node_of_cell? hc
      have notKey : o ≠ k := fun e => isOther ((named o m st).mpr e)
      refine ⟨o, ?_, ids _ _⟩
      rw [elsewhere o notKey, face?_of_node? st, map_some, id_cellAt]

/-- Nodes are told apart by their ids. -/
theorem id_eq_iff (wf : p.Consistent) (hk : p.node? k = some n)
    (o : NodeKey) (m : Node) (foundToo : p.node? o = some m) : m.id = n.id ↔ o = k := by
  refine ⟨wf.key_eq_of_id_eq foundToo hk, fun e => ?_⟩
  rw [e, hk] at foundToo
  rw [some.inj foundToo]

/-- What a cell reads is there. -/
theorem has_of_reads (wf : p.Consistent) {r src : String}
    (hr : p.network.Reads r src) : p.network.has src := by
  obtain ⟨c, hk, mem⟩ := hr
  obtain ⟨k, n, st, -, rfl⟩ := wf.exists_node_of_cell? hk
  obtain ⟨dep, inList, rfl⟩ := List.mem_map.mp mem
  obtain ⟨read, storedRead⟩ := contains_iff.mp (wf.reads_live k dep inList).1
  rw [idOf_of_node? storedRead]
  exact ⟨_, wf.cell?_of_node? storedRead⟩

/-- The nodes that a cell reads are those that its node reads. -/
theorem sources_cellAt (wf : p.Consistent) (k : NodeKey) (n : Node) :
    p.network.sources (p.cellAt k n) = (p.dependencyNodes k).map p.shown := by
  have each : ∀ dep ∈ p.dependencies k, p.network.cell? (p.idOf dep) = p.face? dep := by
    intro dep mem
    obtain ⟨read, st⟩ := contains_iff.mp (wf.reads_live k dep mem).1
    rw [idOf_of_node? st, wf.cell?_of_node? st, face?_of_node? st]
  have hk : ((p.dependencies k).map p.idOf).filterMap p.network.cell? =
      (p.dependencies k).filterMap p.face? := by
    rw [filterMap_map]
    exact filterMap_congr each
  have faces : ∀ dep, (p.face? dep).map Cell.toNode = (p.node? dep).map p.shown := by
    intro dep
    rw [face?, Option.map_map]
    rfl
  rw [Network.sources, cellAt, hk, dependencyNodes, map_filterMap, map_filterMap]
  exact filterMap_congr fun dep _ => faces dep

end Consistent

/-! ## Changed nodes -/

/-- A change that is blind to conflicts changes what is shown of a node. -/
theorem shown_change {change : Node → Node} (blind : Node.Blind change) (p : Program)
    (n : Node) : p.shown (change n) = change (p.shown n) := by
  have noted : (change n).conflicts = n.conflicts := by
    have e : change n = (change n).noting n.conflicts := blind.conflicts n n.conflicts
    exact (congrArg Node.conflicts e).trans rfl
  rw [shown, shown, blind.conflicts, noted]

/-- What the cell of a node takes from the program besides the node. -/
structure SameSetting (program edited : Program) : Prop where
  options : edited.options = program.options
  reads : ∀ key, edited.dependencies key = program.dependencies key
  inputs : edited.inputs = program.inputs
  optimizedOut : edited.optimizedOut = program.optimizedOut

theorem SameSetting.cellAt (e : SameSetting p q)
    (ids : ∀ k, q.idOf k = p.idOf k) (k : NodeKey) (n : Node) : q.cellAt k n = p.cellAt k n := by
  have every : q.idOf = p.idOf := funext ids
  rw [Program.cellAt, Program.cellAt, Program.shown, Program.shown, e.options, e.reads, e.inputs, every]

section Change

variable {change : Node → Node} (blind : Node.Blind change) (wf : p.Consistent)
  (hk : p.node? k = some n)
include blind wf hk

/-- When one node is changed, one cell is. -/
theorem network_of_change (after : q.Consistent) (e : SameSetting p q)
    (nodes : ∀ o, q.node? o =
      if o = k then (p.node? o).map change else p.node? o) :
    q.network = p.network.put n.id (some ((p.cellAt k n).withNode change)) := by
  have ids : ∀ o, q.idOf o = p.idOf o := by
    intro o
    rw [idOf, idOf, nodes]
    by_cases isKey : o = k
    · rw [if_pos isKey, isKey, hk]
      exact blind.id n
    · rw [if_neg isKey]
  have here : q.face? k = some ((p.cellAt k n).withNode change) := by
    rw [face?, nodes, if_pos rfl, hk, map_some, map_some, e.cellAt ids, cellAt, shown_change blind]
    rfl
  have elsewhere : ∀ o, o ≠ k → q.face? o = (p.face? o).map fun c => c := by
    intro o isKey
    rw [face?, face?, nodes, if_neg isKey, Option.map_id']
    exact congrFun (congrArg Option.map (funext (e.cellAt ids o))) _
  have cells := wf.cell?_of_faces after (fun _ c => c) (wf.id_eq_iff hk)
    here (fun c made => some.inj made ▸ blind.id _) elsewhere fun _ _ => rfl
  apply Network.ext
  · funext id
    rw [cells, Option.map_id', Network.cell?_put]
  · funext id
    simp only [network, Network.put, e.optimizedOut]

/-- Changing a node changes its cell. -/
theorem network_modifyNode (marks : ∀ n, (change n).isOutput = n.isOutput) : (p.modifyNode k
    change).network = p.network.put n.id (some ((p.cellAt k n).withNode change)) :=
  network_of_change blind wf hk (wf.altered (Alters.modifyNode p k fun n =>
      Prod.ext (blind.id n) (marks n)))
    ⟨rfl, fun _ => rfl, rfl, rfl⟩ fun o => node?_modifyNode p k o change

end Change

theorem blind_withOutput (output : Bool) : Node.Blind fun n => { n with isOutput := output } where
  id _ := rfl
  conflicts _ _ := rfl

/-- Making a node an output or not marks its cell. -/
theorem network_setOutput (wf : p.Consistent) (hk : p.node? k = some n) (output : Bool) :
    (p.setOutput k output).network = p.network.put n.id
      (some ((p.cellAt k n).withNode fun n => { n with isOutput := output })) := by
  apply network_of_change (blind_withOutput output) wf hk (wf.setOutput k output)
  · rw [setOutput_rest]
    exact ⟨rfl, fun o => rfl, rfl, rfl⟩
  · intro o
    exact node?_setOutput p k o output

/-! ## Removed nodes -/

section Removal

variable (wf : p.Consistent) (hk : p.node? k = some n)
include wf hk

/-- When one node is removed and the others read something else, so it is with the cells. -/
theorem network_of_removal (after : q.Consistent) {change : List String → List String}
    (opts : q.options = p.options)
    (nodes : ∀ o, q.node? o = if o = k then none else p.node? o)
    (hr : ∀ o, o ≠ k → (q.dependencies o).map q.idOf =
      change ((p.dependencies o).map p.idOf))
    (inputs : q.inputs = p.inputs.filter (· != k))
    (optimizedOut : q.optimizedOut = p.optimizedOut ++ [n.id]) :
    q.network = ((p.network.rewire change).put n.id none).drop n.id := by
  have here : q.face? k = none := by rw [face?, nodes, if_pos rfl, map_none]
  have elsewhere : ∀ o, o ≠ k → q.face? o = (p.face? o).map (·.withReads change) := by
    intro o isKey
    have hl : q.inputs.count o = p.inputs.count o := by
      rw [inputs, count_filter (by simpa using isKey)]
    rw [face?, face?, nodes, if_neg isKey, Option.map_map]
    congr 1
    funext m
    rw [cellAt, shown, opts, hr o isKey, hl]
    rfl
  apply Network.ext
  · funext id
    rw [Network.cell?_drop, Network.cell?_put, Network.cell?_rewire]
    exact wf.cell?_of_faces after (fun _ => (·.withReads change)) (wf.id_eq_iff hk)
      here (fun _ none => absurd none (some_ne_none _).symm) elsewhere (fun _ _ => rfl) id
  · funext id
    have counted : q.network.dropped id =
        (p.optimizedOut ++ [n.id]).count id := by rw [← optimizedOut]; rfl
    rw [counted, count_append, count_singleton, Network.dropped_drop,
      Network.dropped_put, Network.dropped_rewire]
    have e : (n.id == id) = true ↔ id = n.id := beq_iff_eq.trans eq_comm
    simp only [network, e]

/-- Removing a node strikes its cell. -/
theorem network_detachAndErase : (p.detachAndErase k).network = p.network.strike n.id := by
  have nodes := node?_detachAndErase wf.slots hk
  apply network_of_removal wf hk (wf.detachAndErase hk) _ nodes
  · intro o ne
    rw [dependencies_detachAndErase wf.slots hk, if_neg ne, List.filter_map]
    have kept : (p.dependencies o).filter (· != k) =
        (p.dependencies o).filter ((· != n.id) ∘ p.idOf) := by
      apply filter_congr
      intro dep mem
      have hv := (wf.reads_live o dep mem).1
      rw [Function.comp_apply, Bool.eq_iff_iff, bne_iff_ne, bne_iff_ne]
      refine not_congr ⟨fun e => ?_, wf.key_eq_of_idOf hk hv⟩
      rw [e, idOf_of_node? hk]
    rw [← kept]
    apply map_congr_left
    intro dep mem
    have ne : dep ≠ k := by simpa using (mem_filter.mp mem).2
    rw [idOf, idOf, nodes, if_neg ne]
  · rw [detachAndErase_eq wf.slots hk]
  · rw [detachAndErase_eq wf.slots hk]
  · exact options_detachAndErase p k

/-- Bypassing a node bypasses its cell. -/
theorem network_bypass {i : NodeKey} (hr : p.dependencies k = [i]) (ne : i ≠ k) :
    ((p.redirectAll (p.users k) k i).detachAndErase k).network =
      p.network.bypass n.id (p.idOf i) := by
  have nodes := node?_bypass wf hr hk
  have redirects := wf.redirectUsers hr
  have stays := (node?_redirectAll (p.users k) k i k).trans hk
  apply network_of_removal wf hk (redirects.detachAndErase stays) _ nodes
  · intro o away
    rw [dependencies_bypass wf hr hk ne, if_neg away, List.map_map, List.map_map]
    apply map_congr_left
    intro dep mem
    rw [Function.comp_apply, Function.comp_apply, redirected, rerouted]
    by_cases isKey : dep = k
    · rw [if_pos isKey, isKey, if_pos (idOf_of_node? hk), idOf, idOf, nodes, if_neg ne]
    · have hv := (wf.reads_live o dep mem).1
      rw [if_neg isKey, if_neg fun h => isKey (wf.key_eq_of_idOf hk hv h), idOf,
        idOf, nodes, if_neg isKey]
  · rw [detachAndErase_eq redirects.slots stays, redirectAll_rest]
  · rw [detachAndErase_eq redirects.slots stays, redirectAll_rest]
  · rw [options_detachAndErase, redirectAll_rest]

end Removal

end Program

end LayerGraph
