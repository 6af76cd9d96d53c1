import LayerGraph.Proofs.Build.CompleteOrder
import LayerGraph.Proofs.Build.Twins
import Mathlib

/-!
# The order of declarations

A topology is an unordered collection of layers. When its layers are declared in another order, their
nodes get other keys and other places in the processing order, but the program has the same network
(`Program.network_of_perm`). Builds of programs with the same network end alike. So both builds finish
with programs that agree by ids (`Program.AgreesByIds`), or both fail.
-/

namespace LayerGraph

namespace Program

variable {p other : Program} {k place : NodeKey} {n another : Node} {id : String}

/-! ## Programs that agree by ids -/

/-- Two programs agree in everything but their keys, their orders, and conflicts that depend on an
order. -/
structure AgreesByIds (program other : Program) : Prop where
  ids : ∀ id, other.hasId id = program.hasId id
  /-- Nodes with the same id agree in everything but their conflicts: in what they compute, in their
  marks, in their fused activations, in their borders and in their layouts. -/
  nodes : ∀ key place node another, program.node? key = some node → other.node? place = some another →
    another.id = node.id → another = { node with conflicts := another.conflicts }
  /-- Nodes with the same id read the same ids, slot by slot. -/
  reads : ∀ key place node another, program.node? key = some node →
    other.node? place = some another → another.id = node.id →
      (other.dependencies place).map other.idOf = (program.dependencies key).map program.idOf
  outputs : (other.outputs.map other.idOf).Perm (program.outputs.map program.idOf)
  optimizedOut : other.optimizedOut.Perm program.optimizedOut
  conflicts : program.options.memoryStrategy = .outOfOrderAware →
    ∀ key place node another, program.node? key = some node → other.node? place = some another →
      another.id = node.id → another.conflicts = node.conflicts

/-- Which ids are outputs can be told from the network. -/
theorem Consistent.mem_output_ids (wf : p.Consistent) : id ∈ p.outputs.map p.idOf ↔
      ∃ c, p.network.cell? id = some c ∧ c.isOutput := by
  refine wf.mem_map_idOf (fun id => ∃ c, p.network.cell? id = some c ∧ c.isOutput)
    (fun _ => wf.output_live) ?_ fun k n hk => ?_
  · rintro id ⟨c, hc, -⟩
    exact ⟨c, hc⟩
  · rw [wf.mem_outputs, wf.exists_cell_iff hk, hk]
    simp only [Option.some.injEq, exists_eq_left']
    rfl

theorem Consistent.nodup_output_ids (wf : p.Consistent) : (p.outputs.map p.idOf).Nodup :=
  wf.nodup_map_idOf wf.outputs_nodup fun _ => wf.output_live

section SameNetwork

variable (wf : p.Consistent) (consistentToo : other.Consistent)
  (same : other.network = p.network)
include wf consistentToo same

/-- **Programs with the same network agree by ids.** -/
theorem agreesByIds_of_network (opts : other.options = p.options) : p.AgreesByIds other := by
  have shown : ∀ k place n another, p.node? k = some n →
      other.node? place = some another → another.id = n.id → p.shown another = p.shown n := by
    intro k place n another hk foundToo sameId
    have cells := cellAt_of_network wf consistentToo same hk foundToo sameId
    have nodes : other.shown another = p.shown n := congrArg Cell.toNode cells
    rwa [Program.shown, opts] at nodes
  refine ⟨hasId_congr wf consistentToo same, ?_, ?_, ?_, ?_, ?_⟩
  · intro k place n another hk foundToo sameId
    have noted : (p.shown another).noting another.conflicts = (p.shown n).noting another.conflicts := by
      rw [shown k place n another hk foundToo sameId]
    exact noted
  · intro k place n another hk foundToo sameId
    exact congrArg Cell.reads (cellAt_of_network wf consistentToo same hk foundToo sameId)
  · rw [List.perm_ext_iff_of_nodup consistentToo.nodup_output_ids wf.nodup_output_ids]
    intro id
    rw [consistentToo.mem_output_ids, wf.mem_output_ids, same]
  · rw [List.perm_iff_count]
    intro id
    exact congrFun (congrArg Network.dropped same) id
  · intro aware k place n another hk foundToo sameId
    have notes := congrArg Node.conflicts (shown k place n another hk foundToo sameId)
    simpa only [Program.shown, Node.noting, aware, if_true] using notes

end SameNetwork

/-! ## Programs of permuted topologies -/

section Declared

variable {topology permuted : Topology}

/-- Without split layers every node is a declared layer. -/
theorem Declares.mem_primitives (declares : p.Declares topology)
    (unsplit : ∀ prim ∈ topology.primitives, prim.tag ≠ .split)
    (hk : p.node? k = some n) : n.primitive ∈ topology.primitives := by
  rcases declares.origin k n hk with hd | cropped
  · exact hd
  · obtain ⟨split, hd, mem⟩ := cropped
    rw [cropsOf] at mem
    split at mem
    · next parts _ _ isSplit _ =>
      exact absurd (congrArg Kind.tag isSplit) (unsplit split hd)
    · cases mem

/-- In a program of a topology nothing has been derived. -/
theorem Declares.unset (declares : p.Declares topology) (wf : p.Consistent)
    (unordered : p.order = {}) : p.Unset where
  consistent := wf
  unordered := congrArg ProcessingOrder.toList unordered
  unshaped k n hk := congrArg Node.layout (declares.marked k n hk)
  unnoted k n hk := congrArg Node.conflicts (declares.marked k n hk)

theorem Declares.unmarked (declares : p.Declares topology) : p.Unmarked :=
  fun k n hk =>
    (congrArg Node.isComputedConstant (declares.marked k n hk)).trans (Bool.and_not_self _)

/-- A program of a topology without split layers and reserved ids is fresh. -/
theorem Declares.fresh (declares : p.Declares topology) (wf : p.Consistent)
    (unordered : p.order = {}) (unsplit : ∀ prim ∈ topology.primitives, prim.tag ≠ .split)
    (unreserved : ∀ prim ∈ topology.primitives, ¬ Reserved prim.id) : p.Fresh where
  toUnset := declares.unset wf unordered
  unmarked := declares.unmarked
  unreserved _ _ hk := unreserved _ (declares.mem_primitives unsplit hk)
  unsplit _ _ hk := unsplit _ (declares.mem_primitives unsplit hk)

variable (declares : p.Declares topology) (declaresToo : other.Declares permuted)
  (wf : p.Consistent) (consistentToo : other.Consistent)
  (unsplit : ∀ prim ∈ topology.primitives, prim.tag ≠ .split)
  (perm : topology.primitives.Perm permuted.primitives)
  (outputs : permuted.outputs = topology.outputs) (opts : other.options = p.options)
include declares declaresToo wf consistentToo unsplit perm outputs opts

/-- A node of one program has the same cell in the other one. -/
theorem cell?_of_perm (hk : p.node? k = some n) :
    other.network.cell? n.id = some (p.cellAt k n) := by
  obtain ⟨place, another, -, foundToo, samePrimitive⟩ :=
    declaresToo.declared _ (perm.mem_iff.mp (declares.mem_primitives unsplit hk))
  have sameId : another.id = n.id := congrArg Primitive.id samePrimitive
  have sameNode : another = n := by
    rw [declaresToo.marked place another foundToo, declares.marked k n hk, samePrimitive,
      sameId, outputs]
  subst sameNode
  have hr : (other.dependencies place).map other.idOf = (p.dependencies k).map p.idOf := by
    rw [declaresToo.reads place another foundToo, declares.reads k another hk]
  have hl : other.inputs.count place = p.inputs.count k := by
    rw [← consistentToo.count_map_idOf (contains_of_node? foundToo) consistentToo.inputs_live,
      ← wf.count_map_idOf (contains_of_node? hk) wf.inputs_live,
      declaresToo.inputs, declares.inputs, idOf_of_node? foundToo, idOf_of_node? hk]
    exact (((perm.filter _).map _).count_eq _).symm
  have sameCell : other.cellAt place another = p.cellAt k another := by
    rw [cellAt, cellAt, shown, shown, opts, hr, hl]
  rw [consistentToo.cell?_of_node? foundToo, sameCell]

/-- **The order of declarations does not show in the network.** -/
theorem network_of_perm (removed : p.optimizedOut = []) (removedToo : other.optimizedOut = []) :
    other.network = p.network := by
  apply consistentToo.network_eq
  · intro id
    rw [removedToo]
    show 0 = p.optimizedOut.count id
    rw [removed, List.count_nil]
  · intro place c face
    obtain ⟨another, foundToo, rfl⟩ := exists_of_face? face
    have unsplitToo : ∀ prim ∈ permuted.primitives, prim.tag ≠ .split :=
      fun prim hd => unsplit prim (perm.mem_iff.mpr hd)
    exact cell?_of_perm declaresToo declares consistentToo wf unsplitToo perm.symm
      outputs.symm opts.symm foundToo
  · intro id c hc
    obtain ⟨k, n, hk, rfl, rfl⟩ := wf.exists_node_of_cell? hc
    have seen := cell?_of_perm declares declaresToo wf consistentToo unsplit perm outputs opts hk
    exact consistentToo.cell?_eq_some.mp seen

end Declared

end Program

namespace Topology

variable {topology permuted : Topology}

theorem WellFormed.of_perm (wellFormed : topology.WellFormed)
    (perm : topology.primitives.Perm permuted.primitives)
    (inputs : permuted.inputs = topology.inputs) (outputs : permuted.outputs = topology.outputs) :
    permuted.WellFormed := by
  have hd : topology.declaredIds.Perm permuted.declaredIds := perm.map _
  have parts : topology.partIds.Perm permuted.partIds := perm.flatMap_right _
  have kn : ∀ id, id ∈ topology.declaredIds ∨ id ∈ topology.partIds → id ∈ permuted.declaredIds ∨ id ∈
      permuted.partIds := fun id h => h.imp hd.mem_iff.mp parts.mem_iff.mp
  refine ⟨hd.nodup_iff.mp wellFormed.distinct, ?_, ?_, ?_⟩
  · intro prim mem id read
    exact kn id (wellFormed.resolved prim (perm.mem_iff.mpr mem) id read)
  · intro id mem
    rw [inputs] at mem
    obtain ⟨prim, hl, same⟩ := wellFormed.inputs id mem
    exact ⟨prim, perm.mem_iff.mp hl, same⟩
  · intro id mem
    rw [outputs] at mem
    exact kn id (wellFormed.outputs id mem)

/-- The builds of permuted topologies start as twins. -/
theorem twins_start {opts : Options} {env : Surroundings} {number another : Nat} {p other : Program}
    (made : Program.ofTopology number topology opts false = .ok p)
    (madeToo : Program.ofTopology another permuted opts false = .ok other)
    (perm : topology.primitives.Perm permuted.primitives)
    (outputs : permuted.outputs = topology.outputs)
    (unsplit : ∀ prim ∈ topology.primitives, prim.tag ≠ .split)
    (silent : opts.dumpDirectory = none) (sees : env.backend.SeesOnlyIds) :
    (Session.start env p number).Twins (.start env other another) := by
  obtain ⟨-, same, -, -, removed⟩ := Program.settings_of_ofTopology made
  obtain ⟨-, sameToo, -, -, removedToo⟩ := Program.settings_of_ofTopology madeToo
  have opts : other.options = p.options := sameToo.trans same.symm
  exact {
    network := Program.network_of_perm (Program.declares_of_ofTopology made)
      (Program.declares_of_ofTopology madeToo) (consistent_ofTopology made).1
      (consistent_ofTopology madeToo).1 unsplit perm outputs opts removed removedToo
    handling := rfl
    surroundings := rfl
    sees := sees
    options := opts
    silent := same ▸ silent }

end Topology

/-- Two builds finish with related programs, or both fail; one alone fails only with an overflow. -/
def BuildResult.EndsLike (first second : BuildResult) (related : Program → Program → Prop) : Prop :=
  match first.outcome, second.outcome with
  | .ok p, .ok other => related p other
  | .ok _, .error fault => fault = .aborted .overflow
  | .error fault, .ok _ => fault = .aborted .overflow
  | .error _, .error _ => True

namespace Topology

variable {opts : Options} {env : Surroundings} {number another : Nat}

/-- Builds that end alike have results that do. -/
theorem endsLike_build {topology permuted : Topology} {p other : Program}
    {related : Program → Program → Prop}
    (made : Program.ofTopology number topology opts false = .ok p)
    (madeToo : Program.ofTopology another permuted opts false = .ok other)
    (alike : Alike Build.build (.start env p number) Build.build
      (.start env other another) fun _ next _ last => related next.program last.program) :
    (topology.build opts env number).EndsLike (permuted.build opts env another) related := by
  revert alike
  simp only [Alike, Session.start, BuildResult.EndsLike, build, made, madeToo]
  cases Build.build { surroundings := env, program := p, nextProgram := number + 1 } with
  | ok v next =>
    cases Build.build { surroundings := env, program := other, nextProgram := another + 1 } with
    | ok v last => exact id
    | error fault last => exact id
  | error fault next =>
    cases Build.build { surroundings := env, program := other, nextProgram := another + 1 } with
    | ok v last => exact id
    | error fault last => exact id

theorem seesOnlyIds_accepting : Backend.accepting.SeesOnlyIds where
  compile _ _ _ _ _ _ _ _ := rfl
  fold _ _ _ _ _ := rfl

end Topology

end LayerGraph
