import LayerGraph.Proofs.Order.BreadthFirst
import LayerGraph.Proofs.Order.DepthFirst
import LayerGraph.Proofs.Program.Dependencies
import LayerGraph.Proofs.Program.Store

/-!
# Consistent programs

A program keeps the same facts in several places: the names list the live nodes under their ids,
the outputs list the nodes that are marked as outputs, the edges, the order and the inputs speak of
live nodes only, and the slots of every node are exact. A program in which all this agrees is
consistent (`Program.Consistent`).

The order of a program is valid when it puts the source of every edge before its target
(`HasValidOrder`), and complete when it lists the live nodes as well (`HasCompleteOrder`).

This module has what follows from consistency, and the changes that keep it whatever they are made
for: changes of nodes that keep their ids and marks (`Alters`), of the wiring, of the order and of
the marks of outputs, and new nodes.
-/

namespace LayerGraph

open List Option DependencyGraph

/-- What a node is, without what the build derives about it. -/
def Node.core (node : Node) : Primitive × Option Activation × Bool :=
  (node.primitive, node.fused, node.isOutput)

/-- A node without the marks that the build puts on it. -/
def Node.unmarked (node : Node) : Node :=
  { node with isConstant := false, inDataFlow := false, runsInPlace := false, conflicts := [] }

/-- What the lists of a program say about a node. -/
def Node.label (node : Node) : String × Bool := (node.id, node.isOutput)

namespace Program

variable {p q : Program} {key o : NodeKey} {node : Node}

/-- What no step of a build changes: the number, the options and whether the program is internal. -/
def settings (program : Program) : Nat × Options × Bool :=
  (program.id, program.options, program.isInternal)

theorem options_of_settings (e : q.settings = p.settings) :
    q.options = p.options := congrArg (·.2.1) e

theorem contains_iff : p.contains key ↔ ∃ node, p.node? key = some node :=
  NodeStore.contains_iff

theorem contains_of_node? (hf : p.node? key = some node) : p.contains key :=
  contains_iff.mpr ⟨node, hf⟩

theorem nodeAt_of_node? (hf : p.node? key = some node) : p.nodeAt key = .ok node := by
  simp only [nodeAt, hf]

/-- The parts of a program agree with each other. -/
structure Consistent (program : Program) : Prop where
  store : program.store.WellFormed
  names_nodup : (program.names.map Prod.fst).Nodup
  /-- The names are the ids of the live nodes. -/
  mem_names : ∀ id key, (id, key) ∈ program.names ↔ ∃ node, program.node? key = some node ∧ node.id = id
  /-- Edges run between live nodes. -/
  reads_live : ∀ key, ∀ dependency ∈ program.dependencies key,
    program.contains dependency ∧ program.contains key
  slots : ∀ key, program.SlotsExact key
  order_nodup : program.order.toList.Nodup
  order_live : ∀ key ∈ program.order.toList, program.contains key
  inputs_live : ∀ key ∈ program.inputs, program.contains key
  outputs_nodup : program.outputs.Nodup
  /-- The outputs are the live nodes with the mark. -/
  mem_outputs : ∀ key, key ∈ program.outputs ↔ ∃ node, program.node? key = some node ∧ node.isOutput

/-- The order puts the source of every edge before its target. -/
structure HasValidOrder (program : Program) : Prop where
  nodup : program.order.toList.Nodup
  before : ∀ key, ∀ dependency ∈ program.dependencies key, [dependency, key].Sublist program.order.toList

/-- The order is valid and lists the live nodes. -/
structure HasCompleteOrder (program : Program) : Prop extends HasValidOrder program where
  complete : ∀ key, key ∈ program.order.toList ↔ program.contains key

theorem HasValidOrder.isTopological (valid : p.HasValidOrder) :
    IsTopological p.dependencies p.order.toList where
  nodup := valid.nodup
  before key _ := valid.before key

theorem HasValidOrder.not_self (valid : p.HasValidOrder) (key : NodeKey) :
    key ∉ p.dependencies key := fun hr =>
  pair_sublist_irrefl valid.nodup (valid.before key key hr)

theorem HasCompleteOrder.mem_of_node? (complete : p.HasCompleteOrder)
    (hf : p.node? key = some node) : key ∈ p.order.toList :=
  (complete.complete key).mpr (contains_of_node? hf)

theorem lt_of_contains (hv : p.contains key) : key < p.store.cells.length := by
  obtain ⟨node, hf⟩ := contains_iff.mp hv
  exact (List.getElem?_eq_some_iff.mp (NodeStore.get?_eq_some.mp hf)).1

/-- A complete order can be told from the edges and the cells of the store. -/
theorem hasCompleteOrder_iff : p.HasCompleteOrder ↔ p.order.toList.Nodup ∧
      (∀ edge ∈ p.edges, [edge.source, edge.target].Sublist p.order.toList) ∧
      (∀ key ∈ p.order.toList, p.contains key) ∧
      ∀ key < p.store.cells.length, p.contains key → key ∈ p.order.toList := by
  constructor
  · intro complete
    refine ⟨complete.nodup, fun edge mem => ?_, fun key => (complete.complete key).mp,
      fun key _ => (complete.complete key).mpr⟩
    exact complete.before edge.target edge.source (mem_dependencies.mpr ⟨edge, mem, rfl, rfl⟩)
  · rintro ⟨nd, edges, hv, hl⟩
    refine ⟨⟨nd, fun key dep hr => ?_⟩, fun key => ⟨hv key, fun given => ?_⟩⟩
    · obtain ⟨edge, mem, rfl, rfl⟩ := mem_dependencies.mp hr
      exact edges edge mem
    · exact hl key (lt_of_contains given) given

instance : Decidable p.HasCompleteOrder := decidable_of_iff _ hasCompleteOrder_iff.symm

/-! ## What consistency gives -/

namespace Consistent

variable (wf : p.Consistent)

include wf

theorem dependencies_of_dead (dead : ¬ p.contains key) : p.dependencies key = [] :=
  eq_nil_iff_forall_not_mem.mpr fun dep hr =>
    dead (wf.reads_live key dep hr).2

theorem users_live (hr : o ∈ p.users key) : p.contains o :=
  (wf.reads_live o key (mem_users_iff.mp hr)).2

theorem output_live (hl : key ∈ p.outputs) : p.contains key := by
  obtain ⟨node, hf, -⟩ := (wf.mem_outputs key).mp hl
  exact contains_of_node? hf

theorem mem_keys : key ∈ p.keys ↔ p.contains key := by
  simp only [keys, List.mem_map, Prod.exists, exists_eq_right, wf.mem_names, contains_iff]
  constructor
  · rintro ⟨id, node, hf, -⟩
    exact ⟨node, hf⟩
  · rintro ⟨node, hf⟩
    exact ⟨node.id, node, hf, rfl⟩

variable {id : String}

/-- Looking an id up finds the node that has it. -/
theorem keyOf?_eq_some : p.keyOf? id = some key ↔ ∃ node, p.node? key = some node ∧ node.id = id := by
  rw [← wf.mem_names, keyOf?, lookup_eq_some_iff wf.names_nodup]

theorem keyOf?_id (hf : p.node? key = some node) : p.keyOf? node.id = some key :=
  wf.keyOf?_eq_some.mpr ⟨node, hf, rfl⟩

theorem keyOf?_eq_none : p.keyOf? id = none ↔ ∀ key node, p.node? key = some node → node.id ≠ id := by
  constructor
  · rintro missing key node hf rfl
    rw [wf.keyOf?_id hf] at missing
    cases missing
  · intro unused
    refine eq_none_iff_forall_not_mem.mpr fun key hf => ?_
    obtain ⟨node, hf, e⟩ := wf.keyOf?_eq_some.mp hf
    exact unused key node hf e

/-- Different nodes have different ids. -/
theorem key_eq_of_id_eq {a b : Node}
    (foundFirst : p.node? key = some a) (foundSecond : p.node? o = some b)
    (e : a.id = b.id) : key = o := by
  have one := wf.keyOf?_id foundFirst
  rw [e, wf.keyOf?_id foundSecond] at one
  exact (some.inj one).symm

/-- An entry of the names with the id of a node has its key, and the other way round. -/
theorem name_iff {n : Node} (hk : p.node? key = some n) {entry : String × NodeKey}
    (mem : entry ∈ p.names) : entry.1 = n.id ↔ entry.2 = key := by
  obtain ⟨holder, foundHolder, named⟩ := (wf.mem_names entry.1 entry.2).mp mem
  constructor
  · exact fun e => wf.key_eq_of_id_eq foundHolder hk (named.trans e)
  · rintro rfl
    cases foundHolder.symm.trans hk
    exact named.symm

theorem keys_closed : ∀ key ∈ p.graph.keys, p.graph.dependencies key ⊆ p.graph.keys :=
  fun key _ dep hr => wf.mem_keys.mpr (wf.reads_live key dep hr).1

theorem keys_nodup : p.keys.Nodup := by
  refine wf.names_nodup.of_map.map_on ?_
  rintro ⟨id, key⟩ a ⟨otherId, o⟩ b e
  cases e
  obtain ⟨node, hf, rfl⟩ := (wf.mem_names id key).mp a
  obtain ⟨_, foundAgain, rfl⟩ := (wf.mem_names otherId key).mp b
  cases hf.symm.trans foundAgain
  rfl

theorem wellFormed_graph : p.graph.WellFormed where
  nodup := wf.keys_nodup
  closed := wf.keys_closed
  mem_users _ _ _ := ⟨fun uses => ⟨wf.mem_keys.mpr (wf.users_live uses),
    mem_users_iff.mp uses⟩, fun both => mem_users_iff.mpr both.2⟩

theorem outputs_subset_keys : p.outputs ⊆ p.graph.keys := fun _ hl =>
  wf.mem_keys.mpr (wf.output_live hl)

end Consistent

/-! ## Changed nodes -/

/-- A program in which only nodes differ, each in nothing that `view` shows of it. -/
structure Alters {α : Type} (view : Node → α) (program edited : Program) : Prop where
  rest : edited = { program with store := edited.store }
  wellFormed : program.store.WellFormed → edited.store.WellFormed
  same : ∀ key, (edited.node? key).map view = (program.node? key).map view

/-- A program in which only derived facts about nodes differ. -/
abbrev Annotated (program edited : Program) : Prop := Alters Node.core program edited

/-- A program in which only the marks on nodes differ. -/
abbrev Marked (program edited : Program) : Prop := Alters Node.unmarked program edited

namespace Alters

variable {α : Type} {view : Node → α}

theorem refl (p : Program) : Alters view p p :=
  ⟨rfl, fun given => given, fun _ => rfl⟩

theorem trans {mid : Program} (a : Alters view p mid)
    (b : Alters view mid q) : Alters view p q where
  rest := by rw [b.rest, a.rest]
  wellFormed given := b.wellFormed (a.wellFormed given)
  same key := (b.same key).trans (a.same key)

theorem modifyNode (p : Program) (key : NodeKey) {change : Node → Node} (keeps : ∀ node, view (change
    node) = view node) : Alters view p (p.modifyNode key change) where
  rest := rfl
  wellFormed given := given.modify key change
  same o := by
    simp only [node?, Program.modifyNode, NodeStore.get?_modify]
    split
    · rw [Option.map_map]
      exact congrArg (fun seen => (p.store.get? o).map seen) (funext keeps)
    · rfl

/-- What shows less of a node is kept as well. -/
theorem weaken {β : Type} {coarser : Node → β} (alters : Alters view p q) (reduce : α → β) (shows : ∀
    node, coarser node = reduce (view node)) : Alters coarser p q where
  rest := alters.rest
  wellFormed := alters.wellFormed
  same key := by
    have e := congrArg (Option.map reduce) (alters.same key)
    simpa only [Option.map_map, Function.comp_def, ← shows] using e

theorem dependencies (alters : Alters view p q) (key : NodeKey) :
    q.dependencies key = p.dependencies key := by
  rw [alters.rest]
  rfl

theorem annotated (hm : Marked p q) : Annotated p q :=
  hm.weaken Node.core fun _ => rfl

/-- The node of a key is there before and after, and looks the same. -/
theorem node? (alters : Alters view p q) (hf : q.node? key = some node) :
    ∃ pre, p.node? key = some pre ∧ view pre = view node := by
  have e := alters.same key
  rw [hf, map_some] at e
  exact map_eq_some_iff.mp e.symm

theorem node?_after (alters : Alters view p q) (hf : p.node? key = some node) :
    ∃ after, q.node? key = some after ∧ view after = view node := by
  have e := alters.same key
  rw [hf, map_some] at e
  exact map_eq_some_iff.mp e

theorem contains (alters : Alters view p q) (key : NodeKey) : q.contains key ↔ p.contains key := by
  simp only [contains_iff]
  constructor
  · rintro ⟨node, hf⟩
    obtain ⟨pre, hf, -⟩ := alters.node? hf
    exact ⟨pre, hf⟩
  · rintro ⟨node, hf⟩
    obtain ⟨after, hf, -⟩ := alters.node?_after hf
    exact ⟨after, hf⟩

end Alters

/-! ## Changes that keep programs consistent -/

/-- Nodes may be new or change, as long as the names and the outputs follow. -/
theorem Consistent.renewed (wf : p.Consistent)
    (rest : q = { p with
      store := q.store, names := q.names, outputs := q.outputs })
    (hv : ∀ key, p.contains key → q.contains key)
    (store : q.store.WellFormed) (names_nodup : (q.names.map Prod.fst).Nodup)
    (mem_names : ∀ id key, (id, key) ∈ q.names ↔ ∃ node, q.node? key = some node ∧ node.id = id)
    (outputs_nodup : q.outputs.Nodup)
    (mem_outputs : ∀ key, key ∈ q.outputs ↔
      ∃ node, q.node? key = some node ∧ node.isOutput) : q.Consistent := by
  have order : q.order = p.order := by rw [rest]
  have inputs : q.inputs = p.inputs := by rw [rest]
  have edges : q.edges = p.edges := by rw [rest]
  refine ⟨store, names_nodup, mem_names, fun key dep hr => ?_, fun key => ?_, order ▸ wf.order_nodup,
    fun key hl => hv key (wf.order_live key (order ▸ hl)), fun key hl => hv key (wf.inputs_live key
    (inputs ▸ hl)), outputs_nodup, mem_outputs⟩
  · rw [dependencies, incoming, edges] at hr
    exact (wf.reads_live key dep hr).imp (hv dep) (hv key)
  · rw [SlotsExact, dependencyCount, incoming, edges]
    exact wf.slots key

/-- Nodes may change and get other ids, as long as the names follow and the marks of outputs stay. -/
theorem Consistent.relabelled (wf : p.Consistent)
    (rest : q = { p with store := q.store, names := q.names })
    (wellFormed : q.store.WellFormed)
    (marks : ∀ key, (q.node? key).map Node.isOutput = (p.node? key).map Node.isOutput)
    (names_nodup : (q.names.map Prod.fst).Nodup)
    (mem_names : ∀ id key, (id, key) ∈ q.names ↔
      ∃ node, q.node? key = some node ∧ node.id = id) : q.Consistent := by
  have hv : ∀ key, q.contains key ↔ p.contains key := by
    intro key
    have e := congrArg Option.isSome (marks key)
    rw [isSome_map, isSome_map] at e
    exact Bool.eq_iff_iff.mp e
  have outputs : q.outputs = p.outputs := by rw [rest]
  have hm : ∀ hf : Option Node, (∃ node, hf = some node ∧ node.isOutput) ↔
      hf.map Node.isOutput = some true := fun hf => by simp
  refine wf.renewed (by rw [rest]) (fun key => (hv key).mpr) wellFormed names_nodup mem_names
    (outputs ▸ wf.outputs_nodup) fun key => ?_
  rw [outputs, wf.mem_outputs, hm, hm, marks]

/-- Nodes may change as long as they keep their ids and the marks of outputs. -/
theorem Consistent.altered (wf : p.Consistent) (alters : Alters Node.label p q) : q.Consistent := by
  have names : q.names = p.names := by rw [alters.rest]
  refine wf.relabelled (by rw [alters.rest]) (alters.wellFormed wf.store)
    (fun key => ?_) (names ▸ wf.names_nodup) fun id key => ?_
  · have e := congrArg (Option.map Prod.snd) (alters.same key)
    rwa [Option.map_map, Option.map_map] at e
  · have e := congrArg (Option.map Prod.fst) (alters.same key)
    rw [Option.map_map, Option.map_map] at e
    have named : ∀ hf : Option Node, (∃ node, hf = some node ∧ node.id = id) ↔
        hf.map (Prod.fst ∘ Node.label) = some id := fun hf => by simp [Node.label]
    rw [names, wf.mem_names, named, named, e]

theorem Consistent.annotated (wf : p.Consistent) (ann : Annotated p q) : q.Consistent :=
  wf.altered (ann.weaken (fun core => (core.1.id, core.2.2)) fun _ => rfl)

/-- A valid order stays valid when nothing new is read. -/
theorem HasValidOrder.of_subset (valid : p.HasValidOrder) (order : q.order = p.order)
    (subset : ∀ key, q.dependencies key ⊆ p.dependencies key) : q.HasValidOrder :=
  ⟨order ▸ valid.nodup, fun key dep hr =>
    order ▸ valid.before key dep (subset key hr)⟩

variable {α : Type}

theorem HasValidOrder.altered (valid : p.HasValidOrder) {view : Node → α} (alters : Alters view p q) :
    q.HasValidOrder :=
  valid.of_subset (by rw [alters.rest]) fun key _ hr =>
    alters.dependencies key ▸ hr

theorem HasCompleteOrder.altered (complete : p.HasCompleteOrder) {view : Node → α} (alters : Alters view
    p q) : q.HasCompleteOrder where
  toHasValidOrder := complete.toHasValidOrder.altered alters
  complete key := by
    have order : q.order = p.order := by rw [alters.rest]
    rw [order, complete.complete, alters.contains]

section

variable (wf : p.Consistent)

include wf

/-- Only the wiring is new. -/
theorem Consistent.rewired {edges : List Edge} (hv : ∀ key, ∀ dep ∈ { p with edges }.dependencies key,
    p.contains dep ∧ p.contains key) (slots : ∀ key, { p with edges }.SlotsExact key) : { p with edges
    }.Consistent :=
  { wf with reads_live := hv, slots := slots }

variable {order : ProcessingOrder}

/-- Only the order is new. -/
theorem Consistent.reordered (nd : order.toList.Nodup) (hv : ∀ key ∈ order.toList, p.contains key) :
    { p with order }.Consistent :=
  { wf with order_nodup := nd, order_live := hv }

/-- Only the inputs are new. -/
theorem Consistent.withInputs {inputs : List NodeKey}
    (hv : ∀ key ∈ inputs, p.contains key) : { p with inputs }.Consistent :=
  { wf with inputs_live := hv }

/-! ## New orders -/

/-- **The depth-first order of a consistent program is complete.** -/
theorem Consistent.depthFirst (hf : p.graph.depthFirst p.outputs = .ok order) : { p with order
    }.Consistent ∧ { p with order }.HasCompleteOrder := by
  obtain ⟨topological, hl⟩ := depthFirst_isTopological wf.keys_closed
    wf.outputs_subset_keys hf
  have hv : ∀ key, key ∈ order.toList ↔ p.contains key := fun key =>
    (hl key).trans wf.mem_keys
  refine ⟨wf.reordered topological.nodup fun key mem => (hv key).mp mem,
    ⟨topological.nodup, fun key dep hr => ?_⟩, hv⟩
  have mem : key ∈ p.graph.keys := wf.mem_keys.mpr (wf.reads_live key dep hr).2
  refine topological.before key ((hl key).mpr mem) dep ?_
  rw [dependenciesOf, if_pos mem]
  exact hr

/-- The breadth-first order of a consistent program lists live nodes, each once. -/
theorem Consistent.orderBreadthFirst : p.orderBreadthFirst.Consistent := by
  have nd : (if p.order.isEmpty then p.graph.keys
      else p.order.toList).Nodup := by
    split
    · exact wf.keys_nodup
    · exact wf.order_nodup
  obtain ⟨nodup, hl⟩ := breadthFirst_nodup rfl nd
  refine wf.reordered nodup fun key mem => ?_
  replace mem := (hl key).mp mem
  split at mem
  · exact wf.mem_keys.mp mem
  · exact wf.order_live key mem

end

/-- **The breadth-first order keeps a valid order valid,** and lists the same nodes unless there were
none. -/
theorem HasValidOrder.orderBreadthFirst (valid : p.HasValidOrder) (wf : p.Consistent) :
    p.orderBreadthFirst.HasValidOrder ∧
      ∀ key ∈ p.order.toList, key ∈ p.orderBreadthFirst.order.toList := by
  let keys := if p.order.isEmpty then p.graph.keys else p.order.toList
  have hl : ∀ key ∈ p.order.toList, key ∈ keys := by
    intro key mem
    have occupied : p.order.isEmpty = false := isEmpty_eq_false_iff.mpr (ne_nil_of_mem mem)
    simpa [keys, occupied] using mem
  -- When nothing is listed there is no edge, and any list of all nodes will do.
  have arranged : IsTopological p.dependencies keys := by
    by_cases empty : p.order.isEmpty
    · have all : keys = p.keys := if_pos empty
      refine ⟨all ▸ wf.keys_nodup, fun key _ dep hr => ?_⟩
      have pair := valid.before key dep hr
      rw [List.isEmpty_iff.mp empty] at pair
      cases pair
    · have e : keys = p.order.toList := if_neg empty
      exact e ▸ valid.isTopological
  have given : keys = if p.order.isEmpty then p.graph.keys else p.order.toList := rfl
  obtain ⟨topological, e⟩ := breadthFirst_isTopological given arranged.nodup
    arranged fun _ => Iff.rfl
  have kept := fun key mem => (e key).mpr (hl key mem)
  refine ⟨⟨topological.nodup, fun key dep hr => ?_⟩, kept⟩
  have mem : key ∈ p.order.toList := (valid.before key dep hr).subset (by simp)
  exact topological.before key (kept key mem) dep hr

/-- **The breadth-first order keeps a complete order complete.** -/
theorem Consistent.breadthFirst (wf : p.Consistent) (complete : p.HasCompleteOrder) :
    p.orderBreadthFirst.Consistent ∧ p.orderBreadthFirst.HasCompleteOrder := by
  have stays := wf.orderBreadthFirst
  obtain ⟨valid, hl⟩ := complete.toHasValidOrder.orderBreadthFirst wf
  exact ⟨stays, valid, fun key =>
    ⟨stays.order_live key, fun hv => hl key ((complete.complete key).mpr hv)⟩⟩

/-! ## Marking outputs -/

theorem node?_modifyNode (p : Program) (key o : NodeKey) (change : Node → Node) : (p.modifyNode key
    change).node? o = if o = key then (p.node? o).map change else p.node? o :=
  NodeStore.get?_modify ..

theorem setOutput_of_dead (dead : ¬ p.contains key) (output : Bool) :
    p.setOutput key output = p := by
  simp only [setOutput, dead, Bool.false_eq_true, if_false]

theorem setOutput_of_live (hv : p.contains key) (output : Bool) : p.setOutput key output =
      { p.modifyNode key fun node => { node with isOutput := output } with
        outputs := (p.setOutput key output).outputs } := by
  simp only [setOutput, hv, if_true]
  split
  · split <;> rfl
  · rfl

theorem node?_setOutput (p : Program) (key o : NodeKey) (output : Bool) :
    (p.setOutput key output).node? o =
      if o = key then (p.node? o).map fun node => { node with isOutput := output }
      else p.node? o := by
  by_cases hv : p.contains key
  · rw [setOutput_of_live hv]
    exact p.node?_modifyNode key o _
  · rw [setOutput_of_dead hv]
    split
    · next e =>
      have none : p.node? o = none := by
        simpa [contains, NodeStore.contains, node?, ← e] using hv
      rw [none, map_none]
    · rfl

/-- Marking outputs changes nothing but the marks and the list of outputs. -/
theorem setOutput_rest (p : Program) (key : NodeKey) (output : Bool) :
    p.setOutput key output = { p with
      store := (p.setOutput key output).store
      outputs := (p.setOutput key output).outputs } := by
  by_cases hv : p.contains key
  · rw [setOutput_of_live hv]
    rfl
  · rw [setOutput_of_dead hv]

theorem mem_outputs_setOutput (hv : p.contains key) (output : Bool) :
    o ∈ (p.setOutput key output).outputs ↔
      if o = key then output = true else o ∈ p.outputs := by
  simp only [setOutput, hv, if_true]
  cases output with
  | true =>
    simp only [if_true]
    by_cases hl : key ∈ p.outputs
    · rw [if_pos (by simpa using hl)]
      split
      · next e => simpa [e, modifyNode] using hl
      · rfl
    · rw [if_neg (by simpa using hl)]
      simp only [mem_append, mem_singleton]
      split
      · next e => simp [e]
      · next ne => simp [ne]
  | false =>
    simp only [Bool.false_eq_true, if_false, mem_filter, bne_iff_ne]
    split
    · next e => simp [e]
    · next ne => simp [ne]

/-- A new output is listed behind the others. -/
theorem outputs_setOutput (hv : p.contains key) : (p.setOutput key true).outputs =
      if key ∈ p.outputs then p.outputs else p.outputs ++ [key] := by
  simp only [setOutput, hv, if_true, contains_iff_mem]
  split
  · rfl
  · rfl

theorem contains_setOutput (p : Program) (key o : NodeKey) (output : Bool) :
    (p.setOutput key output).contains o ↔ p.contains o := by
  simp only [contains_iff, node?_setOutput]
  split <;> simp

theorem dependencies_setOutput (p : Program) (key o : NodeKey) (output : Bool) :
    (p.setOutput key output).dependencies o = p.dependencies o := by
  rw [setOutput_rest]
  rfl

theorem Consistent.setOutput (wf : p.Consistent) (key : NodeKey) (output : Bool) :
    (p.setOutput key output).Consistent := by
  by_cases hv : p.contains key
  case neg => rwa [setOutput_of_dead hv]
  obtain ⟨node, hf⟩ := contains_iff.mp hv
  have rest := p.setOutput_rest key output
  have names : (p.setOutput key output).names = p.names := by rw [rest]
  refine wf.renewed (by rw [rest]) (fun o => (p.contains_setOutput key o output).mpr)
    ?_ (names ▸ wf.names_nodup) (fun id o => ?_) ?_ fun o => ?_
  · rw [setOutput_of_live hv]
    exact wf.store.modify key _
  · rw [names, wf.mem_names, node?_setOutput]
    split
    · next e => simp [e, hf, Node.id]
    · rfl
  · simp only [Program.setOutput, hv, if_true]
    split
    · split
      · exact wf.outputs_nodup
      · next ha =>
        exact nodup_append_comm.mpr (nodup_cons.mpr ⟨by simpa using ha, wf.outputs_nodup⟩)
    · exact wf.outputs_nodup.filter _
  · rw [mem_outputs_setOutput hv, node?_setOutput]
    split
    · next e => simp [e, hf]
    · exact wf.mem_outputs o

theorem HasValidOrder.setOutput (valid : p.HasValidOrder) (key : NodeKey) (output : Bool) :
    (p.setOutput key output).HasValidOrder :=
  valid.of_subset (by rw [p.setOutput_rest key output]) fun o _ hr =>
    p.dependencies_setOutput key o output ▸ hr

theorem HasCompleteOrder.setOutput (complete : p.HasCompleteOrder) (key : NodeKey)
    (output : Bool) : (p.setOutput key output).HasCompleteOrder where
  toHasValidOrder := complete.toHasValidOrder.setOutput key output
  complete o := by
    have order : (p.setOutput key output).order = p.order := by
      rw [p.setOutput_rest key output]
    rw [order, complete.complete, contains_setOutput]

/-! ## New nodes -/

section Ensure

variable {prim : Primitive}

theorem ensure_of_keyOf? (taken : p.keyOf? prim.id = some key) : p.ensure prim = (p, key) := by
  simp only [ensure, taken]

/-- A new node changes the store and the names only. -/
theorem ensure_rest (fr : p.keyOf? prim.id = none) :
    (p.ensure prim).1 = { p with
      store := (p.store.insert (.ofPrimitive prim)).1
      names := p.names ++ [(prim.id, (p.ensure prim).2)] } := by
  simp only [ensure, fr]

theorem ensure_key (fr : p.keyOf? prim.id = none) :
    (p.ensure prim).2 = (p.store.insert (.ofPrimitive prim)).2 := by
  simp only [ensure, fr]

section

variable (wf : p.Consistent) (fr : p.keyOf? prim.id = none)

include wf fr

theorem node?_ensure (o : NodeKey) : (p.ensure prim).1.node? o =
      if o = (p.ensure prim).2 then some (.ofPrimitive prim)
      else p.node? o := by
  rw [ensure_key fr, ensure_rest fr]
  exact NodeStore.get?_insert wf.store _ o

/-- The key of a new node named nothing before. -/
theorem node?_ensure_key : p.node? (p.ensure prim).2 = none := by
  rw [ensure_key fr]
  exact NodeStore.get?_insert_key wf.store _

theorem contains_ensure : (p.ensure prim).1.contains o ↔ o = (p.ensure prim).2 ∨ p.contains o := by
  rw [contains_iff, node?_ensure wf fr]
  split
  · next e => simp [e]
  · next ne => simp [ne, contains_iff]

end

/-- Whether the node is new or not, the store and the names are all that may differ. -/
theorem ensure_frame (p : Program) (prim : Primitive) :
    (p.ensure prim).1 = { p with
      store := (p.ensure prim).1.store, names := (p.ensure prim).1.names } := by
  cases hf : p.keyOf? prim.id with
  | some key => rw [ensure_of_keyOf? hf]
  | none => rw [ensure_rest hf]

theorem dependencies_ensure (p : Program) (prim : Primitive) (o : NodeKey) :
    (p.ensure prim).1.dependencies o = p.dependencies o := by
  rw [ensure_frame]
  rfl

theorem node?_ensure_of_ne (wf : p.Consistent) (ne : o ≠ (p.ensure prim).2) :
    (p.ensure prim).1.node? o = p.node? o := by
  cases hf : p.keyOf? prim.id with
  | some key => rw [ensure_of_keyOf? hf]
  | none => rw [node?_ensure wf hf, if_neg ne]

theorem Consistent.ensure (wf : p.Consistent) (prim : Primitive) :
    (p.ensure prim).1.Consistent := by
  cases fr : p.keyOf? prim.id with
  | some key => rwa [ensure_of_keyOf? fr]
  | none =>
    have unused := wf.keyOf?_eq_none.mp fr
    have vacant := node?_ensure_key wf fr
    have nodes := node?_ensure wf fr
    have hv : ∀ o, p.contains o → (p.ensure prim).1.contains o :=
      fun o given => (contains_ensure wf fr).mpr (.inr given)
    have rest := ensure_rest fr
    generalize (p.ensure prim).1 = q at rest nodes hv
    generalize (p.ensure prim).2 = key at rest nodes vacant
    have names : q.names = p.names ++ [(prim.id, key)] := by rw [rest]
    have outputs : q.outputs = p.outputs := by rw [rest]
    refine wf.renewed (by rw [rest]) hv (by rw [rest]; exact wf.store.insert _) ?_
      (fun id o => ?_) (outputs ▸ wf.outputs_nodup) fun o => ?_
    · rw [names, map_append]
      refine nodup_append_comm.mpr (nodup_cons.mpr ⟨fun hl => ?_, wf.names_nodup⟩)
      obtain ⟨⟨_, o⟩, mem, rfl⟩ := List.mem_map.mp hl
      obtain ⟨node, hf, e⟩ := (wf.mem_names _ o).mp mem
      exact unused o node hf e
    · rw [names, mem_append, mem_singleton, wf.mem_names, nodes, Prod.mk.injEq]
      split
      · next e => simp [e, vacant, Node.id, Node.ofPrimitive, eq_comm]
      · next ne => simp [ne]
    · rw [outputs, wf.mem_outputs, nodes]
      split
      · next e => simp [e, vacant, Node.ofPrimitive]
      · rfl

theorem HasValidOrder.ensure (valid : p.HasValidOrder) (prim : Primitive) :
    (p.ensure prim).1.HasValidOrder := by
  rw [ensure_frame]
  exact ⟨valid.nodup, valid.before⟩

end Ensure

end Program

end LayerGraph
