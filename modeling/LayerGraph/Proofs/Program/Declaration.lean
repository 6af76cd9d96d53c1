import Mathlib.Tactic.MkIffOfInductiveProp
import LayerGraph.Proofs.Program.Construction

/-!
# Topologies that are accepted

A topology is well formed when its ids are distinct, everything that is read is declared or is a part
of a split layer that reads something, every declared input reads nothing, and every declared output
exists (`Topology.WellFormed`). Exactly the well-formed topologies are accepted.

The program of such a topology has the declared layers in their order and after them the parts of
split layers that are not declared themselves; every node reads what its primitive says, repetitions
included (`Program.Declares`).

The proof follows the construction. Registering primitives one after the other gives each of them the
next key (`Program.registering`). All later loops change neither nodes nor names, so whether one of
their rounds is refused does not depend on the rounds before it (`foldlM_isOk`).
-/

namespace LayerGraph

open List Option

/-- The ids under which the parts of a layer are read. There are some when it is a split layer that
reads something. -/
def Primitive.partIds (primitive : Primitive) : List String :=
  match primitive.kind, primitive.inputs with
  | .split parts, _ :: _ => parts.map fun part => splitPartId primitive.id part.name
  | _, _ => []

namespace Topology

/-- The ids of the declared layers. -/
def declaredIds (topology : Topology) : List String := topology.primitives.map (·.id)

/-- The ids of the parts of all split layers. -/
def partIds (topology : Topology) : List String := topology.primitives.flatMap (·.partIds)

/-- The ids of all nodes: those of the declared layers, and then those of the parts that are not
declared themselves. -/
def nodeIds (topology : Topology) : List String :=
  topology.declaredIds ++ (topology.partIds.removeAll topology.declaredIds).eraseDups

/-- A topology from which a program can be made. -/
@[mk_iff]
structure WellFormed (topology : Topology) : Prop where
  distinct : topology.declaredIds.Nodup
  resolved : ∀ prim ∈ topology.primitives, ∀ id ∈ prim.inputs,
    id ∈ topology.declaredIds ∨ id ∈ topology.partIds
  /-- A part of a split layer reads something, so it is no input. -/
  inputs : ∀ id ∈ topology.inputs, ∃ prim ∈ topology.primitives, prim.id = id ∧ prim.inputs = []
  outputs : ∀ id ∈ topology.outputs, id ∈ topology.declaredIds ∨ id ∈ topology.partIds

variable {topology : Topology}

instance (topology : Topology) : Decidable topology.WellFormed := 
  decidable_of_iff _ (wellFormed_iff topology).symm

theorem mem_nodeIds {id : String} : id ∈ topology.nodeIds ↔ id ∈ topology.declaredIds ∨ id ∈
    topology.partIds := by
  simp only [nodeIds, mem_append, mem_eraseDups, List.removeAll, mem_filter,
    Bool.not_eq_true', elem_eq_mem, decide_eq_false_iff_not]
  constructor
  · intro h
    exact h.imp_right And.left
  · intro h
    by_cases hd : id ∈ topology.declaredIds
    · exact .inl hd
    · exact .inr ⟨h.resolve_left hd, hd⟩

end Topology

namespace Program

/-- The program has the nodes that a topology declares, wired and listed as it says. -/
structure Declares (program : Program) (topology : Topology) : Prop where
  ids : program.names.map Prod.fst = topology.nodeIds
  declared : ∀ prim ∈ topology.primitives, ∃ key node, program.keyOf? prim.id = some key ∧ program.node?
    key = some node ∧ node.primitive = prim
  /-- Every other node is the crop for a part of a split layer. -/
  origin : ∀ key node, program.node? key = some node → node.primitive ∈ topology.primitives ∨ ∃ split ∈
    topology.primitives, node.primitive ∈ cropsOf (.ofPrimitive split)
  reads : ∀ key node, program.node? key = some node →
    (program.dependencies key).map program.idOf = node.primitive.inputs
  inputs : program.inputs.map program.idOf = (topology.primitives.filter (·.inputs.isEmpty)).map (·.id)
  outputs : program.outputs.map program.idOf = topology.outputs.eraseDups
  /-- Nothing is derived yet, and exactly the declared outputs are marked. -/
  marked : ∀ key node, program.node? key = some node → node = { Node.ofPrimitive node.primitive with
      isOutput := decide (node.id ∈ topology.outputs) }

/-! ## Loops that check -/

theorem forM_isOk {α : Type} {check : α → Except Error Unit} {xs : List α} :
    (xs.forM check = .ok ()) ↔ ∀ x ∈ xs, check x = .ok () := by
  induction xs with
  | nil => exact ⟨fun _ _ mem => (not_mem_nil mem).elim, fun _ => rfl⟩
  | cons x rest ih =>
    rw [List.forM_eq_forM, forM_cons, bind_eq_ok, forall_mem_cons, ← ih]
    constructor
    · rintro ⟨_, a, later⟩
      exact ⟨a, later⟩
    · rintro ⟨a, later⟩
      exact ⟨(), a, later⟩

/-! ## Registered primitives -/

section Registering

variable {number : Nat} {opts : Options} {isInternal : Bool} {prim : Primitive}

/-- A program with a node for each primitive of a list, and nothing else. -/
def registering (number : Nat) (options : Options) (isInternal : Bool)
    (primitives : List Primitive) : Program :=
  { id := number, options, isInternal
    store := { cells := primitives.map fun prim => some (.ofPrimitive prim) }
    names := primitives.zipIdx.map fun entry => (entry.1.id, entry.2) }

theorem ids_registering (prims : List Primitive) :
    (registering number opts isInternal prims).names.map Prod.fst = prims.map (·.id) := by
  conv => rhs; rw [← zipIdx_map_fst 0 prims]
  simp only [registering, List.map_map]
  rfl

theorem keys_registering (prims : List Primitive) :
    (registering number opts isInternal prims).keys = range prims.length := by
  simp only [keys, registering, List.map_map]
  rw [range_eq_range', ← zipIdx_map_snd 0 prims]
  rfl

theorem node?_registering (prims : List Primitive) (k : NodeKey) :
    (registering number opts isInternal prims).node? k = prims[k]?.map .ofPrimitive := by
  simp only [node?, NodeStore.get?, registering, getElem?_map]
  cases prims[k]? with
  | none => rfl
  | some prim => rfl

variable {p : Program} {id : String} {prims : List Primitive} {crop : Primitive}

/-- A new primitive comes after those that are registered already. -/
theorem ensure_registering (fr : prim.id ∉ prims.map (·.id)) : ((registering number opts
    isInternal prims).ensure prim).1 = registering number opts isInternal (prims ++ [prim]) :=
    by
  have unnamed : (registering number opts isInternal prims).keyOf? prim.id = none := by
    rwa [keyOf?_eq_none_iff, ids_registering]
  rw [ensure, unnamed]
  simp [registering, NodeStore.insert, zipIdx_append]

theorem ensure_registering_of_mem (taken : prim.id ∈ prims.map (·.id)) : ((registering number opts
    isInternal prims).ensure prim).1 = registering number opts isInternal prims := by
  have named : ∃ k, (registering number opts isInternal prims).keyOf? prim.id = some k := by
    rwa [exists_keyOf?_iff, ids_registering]
  obtain ⟨k, hk⟩ := named
  rw [ensure_of_keyOf? hk]

/-- **Declaring primitives registers them, and is refused only for an id that is taken.** -/
theorem foldlM_declare (prims : List Primitive) (p : Program) :
    prims.foldlM declare (registering number opts isInternal []) = .ok p ↔
      (prims.map (·.id)).Nodup ∧ p = registering number opts isInternal prims := by
  induction prims using reverseRecOn generalizing p with
  | nil => simp [pure, Except.pure, eq_comm]
  | append_singleton prims prim ih =>
    have hasId : (registering number opts isInternal prims).hasId prim.id ↔ prim.id ∈ prims.map (·.id) := by
      rw [hasId_iff, ids_registering]
    simp only [foldlM_append, foldlM_cons, foldlM_nil, bind_pure, bind_eq_ok, ih, and_assoc, exists_and_left,
      exists_eq_left, map_append, map_singleton, declare]
    rw [← concat_eq_append, nodup_concat, and_comm (a := _ ∉ _), and_assoc, and_congr_right_iff]
    intro _
    by_cases taken : prim.id ∈ prims.map (·.id)
    · simp [hasId, taken]
    · rw [if_neg (mt hasId.mp taken), ensure_registering taken, Except.ok.injEq, eq_comm]
      exact (and_iff_right taken).symm

/-! ## Parts of split layers -/

theorem ids_splitCrops (split i : String) (parts : List SplitPart) :
    (splitCrops split i parts).map (·.id) = parts.map fun part => splitPartId split part.name := by
  induction parts with
  | nil => rfl
  | cons part rest ih => rw [splitCrops, map_cons, map_cons, ih]

theorem inputs_of_mem_splitCrops {split i : String} {parts : List SplitPart} (mem : crop ∈ splitCrops
    split i parts) : crop.inputs = [i] := by
  induction parts with
  | nil => exact (not_mem_nil mem).elim
  | cons part rest ih =>
    rcases mem_cons.mp mem with e | later
    · rw [e]
    · exact ih later

theorem ids_cropsOf (prim : Primitive) :
    (cropsOf (.ofPrimitive prim)).map (·.id) = prim.partIds := by
  obtain ⟨id, kind, inputs⟩ := prim
  cases inputs with
  | nil => cases kind <;> rfl
  | cons i rest =>
    cases kind with
    | split parts => exact ids_splitCrops id i parts
    | _ => rfl

/-- A part reads what its split layer reads first. -/
theorem inputs_of_mem_cropsOf (mem : crop ∈ cropsOf (.ofPrimitive prim)) : ∃ i ∈ prim.inputs, crop.inputs
    = [i] := by
  simp only [cropsOf, Node.kind, Node.ofPrimitive] at mem
  split at mem
  · next i rest _ hr =>
    exact ⟨i, by rw [hr]; exact mem_cons_self, inputs_of_mem_splitCrops mem⟩
  · exact (not_mem_nil mem).elim

/-- Registering primitives leaves out those whose ids are taken. -/
theorem foldl_ensure_registering (registered prims : List Primitive) :
    ∃ added, added ⊆ prims ∧ prims.foldl (fun p prim => (p.ensure prim).1)
        (registering number opts isInternal registered) =
          registering number opts isInternal (registered ++ added) ∧
      added.map (·.id) = ((prims.map (·.id)).removeAll (registered.map (·.id))).eraseDups := by
  induction prims generalizing registered with
  | nil => exact ⟨[], List.Subset.refl _, by simp, by simp [List.removeAll]⟩
  | cons prim rest ih =>
    rw [foldl_cons, map_cons]
    by_cases taken : prim.id ∈ registered.map (·.id)
    · obtain ⟨added, subset, made, ids⟩ := ih registered
      refine ⟨added, subset_cons_of_subset _ subset, ?_, ?_⟩
      · rw [ensure_registering_of_mem taken, made]
      · rw [ids]
        simp only [List.removeAll, filter_cons, elem_eq_mem, taken, decide_true,
          Bool.not_true, Bool.false_eq_true, if_false]
    · obtain ⟨added, subset, made, ids⟩ := ih (registered ++ [prim])
      refine ⟨prim :: added, cons_subset_cons _ subset, ?_, ?_⟩
      · rw [ensure_registering taken, made, append_assoc, singleton_append]
      · rw [map_cons, ids]
        simp only [List.removeAll, filter_cons, elem_eq_mem, taken, decide_false,
          Bool.not_false, if_true, eraseDups_cons, List.filter_filter, map_append,
          map_cons, map_nil, mem_append, mem_singleton]
        congr 2
        apply filter_congr
        intro id _
        by_cases e : id = prim.id
        · simp [e]
        · simp [e]

theorem nodes_registering (prims : List Primitive) :
    (registering number opts isInternal prims).store.nodes = prims.map .ofPrimitive := by
  simp only [NodeStore.nodes, registering, filterMap_map]
  rw [← filterMap_eq_map]
  rfl

/-- The nodes of a topology: its primitives, and the crops for the parts that are new. -/
theorem exists_addSplitCrops_registering (prims : List Primitive) : ∃ crops : List Primitive,
      (registering number opts isInternal prims).addSplitCrops =
        registering number opts isInternal (prims ++ crops) ∧ crops.map (·.id) =
        ((prims.flatMap (·.partIds)).removeAll (prims.map (·.id))).eraseDups ∧
      ∀ crop ∈ crops, ∃ split ∈ prims, crop ∈ cropsOf (.ofPrimitive split) := by
  obtain ⟨crops, subset, made, ids⟩ := @foldl_ensure_registering number opts isInternal
    prims ((prims.map Node.ofPrimitive).flatMap cropsOf)
  refine ⟨crops, ?_, ?_, fun crop mem => ?_⟩
  · rw [addSplitCrops, nodes_registering, made]
  · rw [ids, map_flatMap, flatMap_map]
    simp only [ids_cropsOf]
  · obtain ⟨n, called, mem⟩ := mem_flatMap.mp (subset mem)
    obtain ⟨split, hd, rfl⟩ := List.mem_map.mp called
    exact ⟨split, hd, mem⟩

theorem consistent_registering (nd : (prims.map (·.id)).Nodup) : (registering number opts isInternal
    prims).Consistent := by
  induction prims using reverseRecOn with
  | nil => exact consistent_empty number opts isInternal
  | append_singleton prims prim ih =>
    rw [map_append, map_singleton, nodup_append] at nd
    obtain ⟨pre, -, apart⟩ := nd
    have fr : prim.id ∉ prims.map (·.id) := fun mem =>
      apart _ mem _ (mem_singleton_self _) rfl
    rw [← ensure_registering fr]
    exact (ih pre).ensure prim

end Registering

/-! ## Wiring -/

section Wiring

variable {base p q : Program} {k user : NodeKey} {id userId : String}

theorem resolve_same (e : p = { base with edges := p.edges })
    (result : resolve user userId p id = .ok q) :
    q = { base with edges := q.edges } := by
  rw [resolve] at result
  split at result
  · cases result
    rw [e]
    rfl
  · cases result

/-- Wiring a node is refused only for an id that no node has. -/
theorem exists_foldlM_resolve {ids : List String} (e : p = { base with edges := p.edges }) :
    (∃ q, ids.foldlM (resolve user userId) p = .ok q) ↔ ∀ id ∈ ids, id ∈ base.names.map Prod.fst := by
  apply foldlM_isOk (fun st => st = { base with edges := st.edges })
  · intro st id kept
    have names : st.keyOf? id = base.keyOf? id := by rw [kept]; rfl
    rw [resolve, names, ← exists_keyOf?_iff]
    cases base.keyOf? id with
    | none => simp
    | some k => simp
  · intro st id next kept taken
    exact resolve_same kept taken
  · exact e

/-- The nodes outside of a list read what their primitives declare, and the others nothing yet. -/
structure WiredExcept (base : Program) (rest : List NodeKey) (program : Program) : Prop where
  nodup : rest.Nodup
  consistent : program.Consistent
  same : program = { base with edges := program.edges }
  reads : ∀ key node, base.node? key = some node →
    (program.dependencies key).map base.idOf = if key ∈ rest then [] else node.primitive.inputs

theorem WiredExcept.resolveInputs {rest : List NodeKey} (wired : WiredExcept base (k :: rest) p)
    (result : p.resolveInputs k = .ok q) : WiredExcept base rest q := by
  obtain ⟨fr, nd⟩ := nodup_cons.mp wired.nodup
  have nodes : p.node? = base.node? := by rw [wired.same]; rfl
  rw [Program.resolveInputs, nodes] at result
  split at result
  · next n hk =>
    have hv : p.contains k := contains_of_node? (nodes ▸ hk)
    have resolves := resolves_foldlM wired.consistent hv result
    have ids : p.idOf = base.idOf := by rw [wired.same]; rfl
    refine ⟨nd, resolves.consistent, by rw [resolves.rest, wired.same], ?_⟩
    intro o otherNode ho
    have pre := wired.reads o otherNode ho
    by_cases e : o = k
    · subst e
      obtain rfl := some.inj (hk.symm.trans ho)
      rw [if_pos mem_cons_self, ← ids] at pre
      rw [if_neg fr, ← ids, resolves.reads, pre, nil_append]
    · rw [resolves.others o e, pre]
      simp only [mem_cons, e, false_or]
  · next missing =>
    cases result
    refine ⟨nd, wired.consistent, wired.same, ?_⟩
    intro o n hk
    have ne : o ≠ k := by
      intro e
      rw [← e, hk] at missing
      cases missing
    rw [wired.reads o n hk]
    simp only [mem_cons, ne, false_or]

/-- Wiring all nodes is refused only for an id that no node has. -/
theorem exists_foldlM_resolveInputs {keys : List NodeKey} :
    (∃ q, keys.foldlM resolveInputs base = .ok q) ↔ ∀ k ∈ keys, ∀ n, base.node? k = some n →
        ∀ id ∈ n.primitive.inputs, id ∈ base.names.map Prod.fst := by
  apply foldlM_isOk (fun st => st = { base with edges := st.edges })
  · intro st k kept
    have nodes : st.node? k = base.node? k := by rw [kept]; rfl
    rw [resolveInputs, nodes]
    cases base.node? k with
    | none => simp
    | some n =>
      rw [exists_foldlM_resolve kept]
      simp
  · intro st k next kept taken
    rw [resolveInputs] at taken
    split at taken
    · exact foldlM_keeps (fun _ st => st = { base with edges := st.edges })
        (fun _ _ _ _ kept taken => resolve_same kept taken) kept taken
    · cases taken
      exact kept
  · rfl

end Wiring

/-! ## Inputs and outputs -/

section Listing

variable {base p q : Program} {id : String}

theorem checkInput_eq_ok (wf : p.Consistent) :
    p.checkInput id = .ok () ↔ ∃ k n, p.node? k = some n ∧ n.id = id ∧ p.dependencyCount k = 0 := by
  rw [checkInput, bind_eq_ok]
  constructor
  · rintro ⟨k, required, unread⟩
    rw [requireKey] at required
    split at required
    · next hk named =>
      cases required
      obtain ⟨n, hk, e⟩ := wf.keyOf?_eq_some.mp named
      split at unread
      · next none => exact ⟨k, n, hk, e, none⟩
      · cases unread
    · cases required
  · rintro ⟨k, n, hk, e, unread⟩
    refine ⟨k, ?_, if_pos unread⟩
    rw [requireKey, wf.keyOf?_eq_some.mpr ⟨n, hk, e⟩]

/-- Exactly the nodes with the given ids are marked and listed as outputs. -/
structure MarksOutputs (base : Program) (ids : List String) (program : Program) : Prop where
  consistent : program.Consistent
  same : program = { base with store := program.store, outputs := program.outputs }
  nodes : ∀ key, program.node? key =
    (base.node? key).map fun node => { node with isOutput := decide (node.id ∈ ids) }
  listed : program.outputs.map base.idOf = ids.eraseDups

variable {ids : List String}

theorem MarksOutputs.declareOutput (marks : MarksOutputs base ids p) (result : p.declareOutput id = .ok
    q) : MarksOutputs base (ids ++ [id]) q := by
  simp only [Program.declareOutput, bind_eq_ok] at result
  obtain ⟨k, required, made⟩ := result
  cases made
  rw [requireKey] at required
  split at required
  case h_2 => cases required
  next hk named =>
  cases required
  obtain ⟨n, hk, e⟩ := marks.consistent.keyOf?_eq_some.mp named
  have hm := marks.nodes k
  rw [hk] at hm
  obtain ⟨orig, foundOrig, rfl⟩ := map_eq_some_iff.mp hm.symm
  have sameId : orig.id = id := e
  refine ⟨marks.consistent.setOutput k true, ?_, ?_, ?_⟩
  · rw [setOutput_rest, marks.same]
  · intro o
    rw [node?_setOutput, marks.nodes]
    split
    · next here =>
      rw [here, foundOrig]
      simp [sameId]
    · next elsewhere =>
      -- Another node has another id, so the new mark is not about it.
      cases ho : base.node? o with
      | none => rfl
      | some n =>
        have ne : n.id ≠ id := by
          intro clash
          have foundMarked := marks.nodes o
          rw [ho] at foundMarked
          have again := marks.consistent.keyOf?_eq_some.mpr ⟨_, foundMarked, clash⟩
          rw [named] at again
          exact elsewhere (some.inj again).symm
        simp [ne]
  · have listedIff : p.outputs.contains k ↔ id ∈ ids := by
      rw [contains_iff_mem, marks.consistent.mem_outputs]
      simp [hk, sameId]
    rw [eraseDups_append, setOutput, if_pos (contains_of_node? hk), if_pos rfl]
    by_cases kn : id ∈ ids
    · rw [if_pos (listedIff.mpr kn)]
      simpa [modifyNode, List.removeAll, kn] using marks.listed
    · rw [if_neg fun hl => kn (listedIff.mp hl)]
      simp [List.removeAll, kn, marks.listed, idOf_of_node? foundOrig, sameId, eraseDups_cons]

theorem MarksOutputs.foldlM (wf : base.Consistent) (unmarked : ∀ k n, base.node? k = some n → n.isOutput
    = false) (none : base.outputs = []) (result : ids.foldlM Program.declareOutput base = .ok q) :
    MarksOutputs base ids q := by
  have start : MarksOutputs base [] base := by
    refine ⟨wf, rfl, ?_, by rw [none]; rfl⟩
    intro k
    cases hk : base.node? k with
    | none => rfl
    | some n => simp [← unmarked k n hk]
  exact foldlM_builds (MarksOutputs base) (fun _ _ _ _ _ _ pre taken => pre.declareOutput taken)
    start result

/-- Marking outputs is refused only for an id that no node has. -/
theorem exists_foldlM_declareOutput : (∃ q, ids.foldlM declareOutput base = .ok q) ↔ ∀ id ∈ ids, id ∈
    base.names.map Prod.fst := by
  apply foldlM_isOk (fun st => st.names = base.names)
  · intro st id kept
    have names : st.keyOf? id = base.keyOf? id := by rw [keyOf?, kept]; rfl
    rw [declareOutput, requireKey, names, ← exists_keyOf?_iff]
    cases base.keyOf? id with
    | none => simp [bind, Except.bind]
    | some k => simp [bind, Except.bind, pure, Except.pure]
  · intro st id next kept taken
    simp only [declareOutput, bind_eq_ok] at taken
    obtain ⟨k, -, made⟩ := taken
    cases made
    rw [setOutput_rest]
    exact kept
  · rfl

end Listing

/-! ## The program of a topology -/

section Declaring

variable {topology : Topology} {all : List Primitive} {number : Nat} {opts : Options}
  {isInternal : Bool} {wired p : Program} {id : String}

/-- A list has the primitives of all nodes: those that a topology declares, and then crops. -/
structure Enumerates (topology : Topology) (all : List Primitive) : Prop where
  ids : all.map (·.id) = topology.nodeIds
  declared : topology.primitives ⊆ all
  origin : ∀ prim ∈ all, prim ∈ topology.primitives ∨
    ∃ split ∈ topology.primitives, prim ∈ cropsOf (.ofPrimitive split)
  inputs : all.filter (·.inputs.isEmpty) = topology.primitives.filter (·.inputs.isEmpty)

theorem exists_enumerates (number : Nat) (opts : Options) (isInternal : Bool)
    (topology : Topology) : ∃ all, Enumerates topology all ∧
      (registering number opts isInternal topology.primitives).addSplitCrops =
        registering number opts isInternal all := by
  obtain ⟨crops, made, ids, origin⟩ := @exists_addSplitCrops_registering number opts isInternal
    topology.primitives
  refine ⟨topology.primitives ++ crops, ⟨?_, subset_append_left _ _, ?_, ?_⟩, made⟩
  · rw [map_append, ids]
    rfl
  · intro prim mem
    exact (mem_append.mp mem).imp_right (origin prim)
  · have reading : crops.filter (·.inputs.isEmpty) = [] := by
      rw [filter_eq_nil_iff]
      intro crop mem
      obtain ⟨split, -, called⟩ := origin crop mem
      obtain ⟨i, -, hr⟩ := inputs_of_mem_cropsOf called
      simp [hr]
    rw [filter_append, reading, append_nil]

/-- Crops read only what split layers read. -/
theorem Enumerates.resolved_iff (enumerates : Enumerates topology all) :
    (∀ prim ∈ all, ∀ id ∈ prim.inputs, id ∈ topology.nodeIds) ↔
      ∀ prim ∈ topology.primitives, ∀ id ∈ prim.inputs, id ∈ topology.nodeIds := by
  constructor
  · intro resolved prim mem
    exact resolved prim (enumerates.declared mem)
  · intro resolved prim mem id read
    rcases enumerates.origin prim mem with hd | ⟨split, hd, crop⟩
    · exact resolved prim hd id read
    · obtain ⟨i, h, hr⟩ := inputs_of_mem_cropsOf crop
      rw [hr, mem_singleton] at read
      exact resolved split hd id (read ▸ h)

theorem Enumerates.mem_inputs_iff (enumerates : Enumerates topology all) {prim : Primitive} :
    (prim ∈ all ∧ prim.inputs = []) ↔ (prim ∈ topology.primitives ∧ prim.inputs = []) := by
  have e : prim ∈ all.filter (·.inputs.isEmpty) ↔
      prim ∈ topology.primitives.filter (·.inputs.isEmpty) := by
    rw [enumerates.inputs]
  simpa only [mem_filter, List.isEmpty_iff] using e

/-- The stages of the construction, with the first two evaluated. -/
theorem ofTopology_eq_ok
    (complete : (registering number opts isInternal topology.primitives).addSplitCrops =
      registering number opts isInternal all) :
    ofTopology number topology opts isInternal = .ok p ↔ topology.declaredIds.Nodup ∧ ∃ wired,
        (registering number opts isInternal all).keys.foldlM resolveInputs
          (registering number opts isInternal all) = .ok wired ∧
        topology.inputs.forM wired.collectInputs.checkInput = .ok () ∧
        topology.outputs.foldlM declareOutput wired.collectInputs = .ok p := by
  have empty : ({ id := number, options := opts, isInternal } : Program) =
      registering number opts isInternal [] := rfl
  simp only [ofTopology, bind_eq_ok]
  rw [empty]
  constructor
  · rintro ⟨hd, declaring, wired, wiring, _, checking, marking⟩
    obtain ⟨nd, rfl⟩ := (foldlM_declare topology.primitives hd).mp declaring
    rw [complete] at wiring
    exact ⟨nd, wired, wiring, checking, marking⟩
  · rintro ⟨nd, wired, wiring, checking, marking⟩
    refine ⟨registering number opts isInternal topology.primitives, ?_, wired, ?_, (), checking, marking⟩
    · exact (foldlM_declare topology.primitives _).mpr ⟨nd, rfl⟩
    · rw [complete]
      exact wiring

theorem Consistent.foldl_ensure (wf : p.Consistent) (prims : List Primitive) :
    (prims.foldl (fun p prim => (p.ensure prim).1) p).Consistent := by
  induction prims generalizing p with
  | nil => exact wf
  | cons prim rest ih => exact ih (wf.ensure prim)

theorem consistent_complete (nd : topology.declaredIds.Nodup)
    (complete : (registering number opts isInternal topology.primitives).addSplitCrops =
      registering number opts isInternal all) :
    (registering number opts isInternal all).Consistent := by
  rw [← complete]
  exact (consistent_registering nd).foldl_ensure _

theorem exists_mem_of_node?_registering {k : NodeKey} {n : Node}
    (hk : (registering number opts isInternal all).node? k = some n) :
    ∃ prim ∈ all, all[k]? = some prim ∧ n = .ofPrimitive prim := by
  rw [node?_registering, map_eq_some_iff] at hk
  obtain ⟨prim, st, made⟩ := hk
  exact ⟨prim, mem_of_getElem? st, st, made.symm⟩

/-- Once all nodes are wired, each reads what its primitive declares. -/
theorem wiredExcept_nil (wf : (registering number opts isInternal all).Consistent)
    (wiring : (registering number opts isInternal all).keys.foldlM resolveInputs
      (registering number opts isInternal all) = .ok wired) :
    WiredExcept (registering number opts isInternal all) [] wired := by
  refine foldlM_keeps (WiredExcept (registering number opts isInternal all))
    (fun _ _ _ _ pre taken => pre.resolveInputs taken) ⟨?_, wf, rfl, ?_⟩ wiring
  · rw [keys_registering]
    exact nodup_range
  · intro k n hk
    have mem : k ∈ (registering number opts isInternal all).keys :=
      wf.mem_keys.mpr (contains_of_node? hk)
    rw [if_pos mem]
    rfl

theorem WiredExcept.consistent_collectInputs {base : Program} {rest : List NodeKey}
    (wires : WiredExcept base rest wired) : wired.collectInputs.Consistent :=
  wires.consistent.withInputs fun _ mem =>
    wires.consistent.mem_keys.mp (mem_of_mem_filter mem)

theorem WiredExcept.node?_collectInputs {base : Program} {rest : List NodeKey}
    (wires : WiredExcept base rest wired) : wired.collectInputs.node? = base.node? := by
  rw [wires.same]
  rfl

section

variable (wires : WiredExcept (registering number opts isInternal all) [] wired)

include wires

theorem WiredExcept.dependencyCount_eq {k : NodeKey} {prim : Primitive} (st : all[k]? = some prim) :
    wired.dependencyCount k = prim.inputs.length := by
  have hr := wires.reads k (.ofPrimitive prim) (by rw [node?_registering, st]; rfl)
  rw [if_neg not_mem_nil] at hr
  rw [← length_dependencies, ← length_map, hr]
  rfl

/-- The declared inputs pass when they are nodes that read nothing. -/
theorem WiredExcept.checkInput_iff : wired.collectInputs.checkInput id = .ok () ↔
      ∃ prim ∈ all, prim.id = id ∧ prim.inputs = [] := by
  have counts : wired.collectInputs.dependencyCount = wired.dependencyCount := rfl
  rw [checkInput_eq_ok wires.consistent_collectInputs, wires.node?_collectInputs, counts]
  constructor
  · rintro ⟨k, n, hk, e, unread⟩
    obtain ⟨prim, mem, st, rfl⟩ := exists_mem_of_node?_registering hk
    rw [wires.dependencyCount_eq st, length_eq_zero_iff] at unread
    exact ⟨prim, mem, e, unread⟩
  · rintro ⟨prim, mem, e, unread⟩
    obtain ⟨k, st⟩ := getElem?_of_mem mem
    refine ⟨k, .ofPrimitive prim, ?_, e, ?_⟩
    · rw [node?_registering, st]
      rfl
    · rw [wires.dependencyCount_eq st, unread]
      rfl

/-- The inputs are the nodes that read nothing, in the order of registration. -/
theorem WiredExcept.map_idOf_inputs :
    wired.collectInputs.inputs.map (registering number opts isInternal all).idOf =
      (all.filter (·.inputs.isEmpty)).map (·.id) := by
  have keys : wired.keys = all.zipIdx.map Prod.snd := by
    have names : wired.keys = (registering number opts isInternal all).keys := by
      rw [wires.same]
      rfl
    rw [names, keys_registering, zipIdx_map_snd, range_eq_range']
  have hl : all = all.zipIdx.map Prod.fst := (zipIdx_map_fst 0 all).symm
  have places : ∀ entry ∈ all.zipIdx, all[entry.2]? = some entry.1 := fun entry mem =>
    mk_mem_zipIdx_iff_getElem?.mp mem
  conv => rhs; rw [hl]
  simp only [collectInputs, keys, List.filter_map, List.map_map]
  have kept : all.zipIdx.filter ((fun k => wired.dependencyCount k == 0) ∘ Prod.snd) =
      all.zipIdx.filter ((fun prim => prim.inputs.isEmpty) ∘ Prod.fst) := by
    apply filter_congr
    intro entry mem
    simp only [Function.comp_apply, wires.dependencyCount_eq (places entry mem)]
    cases entry.1.inputs <;> rfl
  rw [kept]
  apply map_congr_left
  intro entry mem
  have hk : (registering number opts isInternal all).node? entry.2 = some (.ofPrimitive entry.1) := by
    rw [node?_registering, places entry (mem_of_mem_filter mem)]
    rfl
  exact idOf_of_node? hk

end

/-- All nodes can be wired when everything that a primitive reads has a node. -/
theorem Enumerates.exists_wired_iff (enumerates : Enumerates topology all) :
    (∃ wired, (registering number opts isInternal all).keys.foldlM resolveInputs
      (registering number opts isInternal all) = .ok wired) ↔
      ∀ prim ∈ topology.primitives, ∀ id ∈ prim.inputs, id ∈ topology.nodeIds := by
  rw [exists_foldlM_resolveInputs, ids_registering, enumerates.ids, ← enumerates.resolved_iff]
  constructor
  · intro resolved prim mem
    obtain ⟨k, st⟩ := getElem?_of_mem mem
    obtain ⟨small, -⟩ := List.getElem?_eq_some_iff.mp st
    refine resolved k ?_ (.ofPrimitive prim) ?_
    · rw [keys_registering, mem_range]
      exact small
    · rw [node?_registering, st]
      rfl
  · intro resolved k _ n hk
    obtain ⟨prim, mem, -, rfl⟩ := exists_mem_of_node?_registering hk
    exact resolved prim mem

theorem exists_ofTopology_iff : (∃ p, ofTopology number topology opts isInternal = .ok p) ↔
      topology.WellFormed := by
  obtain ⟨all, enumerates, complete⟩ := exists_enumerates number opts isInternal topology
  simp only [ofTopology_eq_ok complete]
  have marking : ∀ wired, WiredExcept (registering number opts isInternal all) [] wired →
      ((∃ p, topology.outputs.foldlM declareOutput wired.collectInputs = .ok p) ↔
        ∀ id ∈ topology.outputs, id ∈ topology.nodeIds) := by
    intro wired wires
    have names : wired.collectInputs.names =
        (registering number opts isInternal all).names := by rw [wires.same]; rfl
    rw [exists_foldlM_declareOutput, names, ids_registering, enumerates.ids]
  constructor
  · rintro ⟨p, nd, wired, wiring, checking, hm⟩
    have wires := wiredExcept_nil (consistent_complete nd complete) wiring
    refine ⟨nd, ?_, ?_, ?_⟩
    · intro prim mem id read
      exact Topology.mem_nodeIds.mp (enumerates.exists_wired_iff.mp ⟨wired, wiring⟩ prim mem id read)
    · intro id mem
      obtain ⟨prim, hl, e, unread⟩ := wires.checkInput_iff.mp (forM_isOk.mp checking id mem)
      exact ⟨prim, (enumerates.mem_inputs_iff.mp ⟨hl, unread⟩).1, e, unread⟩
    · intro id mem
      exact Topology.mem_nodeIds.mp ((marking wired wires).mp ⟨p, hm⟩ id mem)
  · intro wellFormed
    have nd := wellFormed.distinct
    obtain ⟨wired, wiring⟩ := (@Enumerates.exists_wired_iff topology all number opts isInternal
      enumerates).mpr fun prim mem id read =>
        Topology.mem_nodeIds.mpr (wellFormed.resolved prim mem id read)
    have wires := wiredExcept_nil (consistent_complete nd complete) wiring
    obtain ⟨p, hm⟩ := (marking wired wires).mpr fun id mem =>
      Topology.mem_nodeIds.mpr (wellFormed.outputs id mem)
    refine ⟨p, nd, wired, wiring, forM_isOk.mpr fun id mem => ?_, hm⟩
    obtain ⟨prim, hl, e, unread⟩ := wellFormed.inputs id mem
    exact wires.checkInput_iff.mpr ⟨prim, enumerates.declared hl, e, unread⟩

section

variable (result : ofTopology number topology opts isInternal = .ok p)

include result

/-- The primitives of an accepted topology are registered, wired and marked. -/
theorem exists_marks_of_ofTopology : ∃ all wired,
      Enumerates topology all ∧ WiredExcept (registering number opts isInternal all) [] wired ∧
        MarksOutputs wired.collectInputs topology.outputs p ∧ topology.declaredIds.Nodup ∧
        (registering number opts isInternal topology.primitives).addSplitCrops =
          registering number opts isInternal all := by
  obtain ⟨all, enumerates, complete⟩ := exists_enumerates number opts isInternal topology
  obtain ⟨nd, wired, wiring, -, marking⟩ := (ofTopology_eq_ok complete).mp result
  have wires := wiredExcept_nil (consistent_complete nd complete) wiring
  refine ⟨all, wired, enumerates, wires, .foldlM wires.consistent_collectInputs ?_ ?_ marking,
    nd, complete⟩
  · intro k n hk
    rw [wires.node?_collectInputs] at hk
    obtain ⟨prim, -, -, rfl⟩ := exists_mem_of_node?_registering hk
    rfl
  · rw [wires.same]
    rfl

theorem consistent_of_ofTopology : p.Consistent := by
  obtain ⟨_, _, -, -, marks, -⟩ := exists_marks_of_ofTopology result
  exact marks.consistent

/-- The program of a topology has no order, and nothing has been removed. -/
theorem settings_of_ofTopology : p.id = number ∧ p.options = opts ∧ p.isInternal = isInternal ∧
      p.order = {} ∧ p.optimizedOut = [] := by
  obtain ⟨all, wired, -, wires, marks, -⟩ := exists_marks_of_ofTopology result
  rw [marks.same, wires.same]
  exact ⟨rfl, rfl, rfl, rfl, rfl⟩

theorem declares_of_ofTopology : p.Declares topology := by
  obtain ⟨all, wired, enumerates, wires, marks, -⟩ := exists_marks_of_ofTopology result
  have nodes := wires.node?_collectInputs
  -- Marking outputs changes neither the ids nor what is read.
  have origin : ∀ k n, p.node? k = some n → ∃ prim ∈ all, (registering number opts isInternal all).node?
      k = some (.ofPrimitive prim) ∧ n = { Node.ofPrimitive prim with
        isOutput := decide (prim.id ∈ topology.outputs) } := by
    intro k n hk
    rw [marks.nodes, nodes, map_eq_some_iff] at hk
    obtain ⟨orig, st, made⟩ := hk
    obtain ⟨prim, mem, -, rfl⟩ := exists_mem_of_node?_registering st
    exact ⟨prim, mem, st, made.symm⟩
  have ids : p.idOf = (registering number opts isInternal all).idOf := by
    funext k
    rw [idOf, idOf, marks.nodes, nodes]
    cases (registering number opts isInternal all).node? k with
    | none => rfl
    | some n => rfl
  have wiredIds : wired.collectInputs.idOf = p.idOf := by
    rw [ids]
    funext k
    rw [idOf, idOf, nodes]
  refine ⟨?_, ?_, ?_, ?_, ?_, ?_, ?_⟩
  · rw [← enumerates.ids, ← @ids_registering number opts isInternal all, marks.same, wires.same]
    rfl
  · intro prim mem
    obtain ⟨k, st⟩ := getElem?_of_mem (enumerates.declared mem)
    have hk := marks.nodes k
    rw [nodes, node?_registering, st] at hk
    exact ⟨k, _, marks.consistent.keyOf?_id hk, hk, rfl⟩
  · intro k n hk
    obtain ⟨prim, mem, -, rfl⟩ := origin k n hk
    exact enumerates.origin prim mem
  · intro k n hk
    obtain ⟨prim, mem, st, rfl⟩ := origin k n hk
    have edges : p.dependencies k = wired.dependencies k := by rw [marks.same]; rfl
    rw [ids, edges, wires.reads k _ st, if_neg not_mem_nil]
  · have hl : p.inputs = wired.collectInputs.inputs := by rw [marks.same]
    rw [ids, hl, wires.map_idOf_inputs, enumerates.inputs]
  · rw [← wiredIds, marks.listed]
  · intro k n hk
    obtain ⟨prim, -, -, rfl⟩ := origin k n hk
    rfl

end

/-- No activation is fused yet. -/
theorem Declares.unfused (declares : p.Declares topology) {k : NodeKey} {n : Node}
    (hk : p.node? k = some n) : n.fused = none := by
  rw [declares.marked k n hk]
  rfl

/-- What holds of all layers that are declared, and of parts of layers of which it holds, holds of all
nodes. -/
theorem Declares.primitives (declares : p.Declares topology) (allowed : Primitive → Prop)
    (hd : ∀ prim ∈ topology.primitives, allowed prim)
    (parts : ∀ (split crop : Primitive) part offset features, allowed split →
      crop.id = splitPartId split.id part → crop.kind = .crop offset features → allowed crop)
    {k : NodeKey} {n : Node} (hk : p.node? k = some n) : allowed n.primitive := by
  rcases declares.origin k n hk with mem | ⟨split, mem, crop⟩
  · exact hd _ mem
  · obtain ⟨part, offset, features, e, kind⟩ := cases_of_mem_cropsOf crop
    exact parts split _ part offset features (hd split mem) e kind

/-- **A topology is accepted exactly when it is well formed, and its program has the nodes, the edges,
the inputs and the outputs that it declares.** -/
theorem ofTopology_accepts_wellFormed (number : Nat) (topology : Topology) (options : Options)
    (isInternal : Bool) :
    ((∃ program, ofTopology number topology options isInternal = .ok program) ↔
      topology.WellFormed) ∧
    ∀ program, ofTopology number topology options isInternal = .ok program →
      program.Declares topology :=
  ⟨exists_ofTopology_iff, fun _ result => declares_of_ofTopology result⟩

/-- A split layer one part of which is declared as a layer of its own, and a sum that comes before what
it reads and reads the other part twice. -/
def sharedParts : Topology where
  primitives := [
    { id := "sum", kind := .eltwise .sum, inputs := ["s:a", "s:b", "s:a"] },
    .inputLayout "x" ⟨.bfyx, ⟨1, 4, 1, 1⟩, {}⟩,
    { id := "s", kind := .split [⟨"a", 0⟩, ⟨"b", 2⟩], inputs := ["x"] },
    { id := "s:b", kind := .activation .abs, inputs := ["x"] }]
  inputs := ["x"]
  outputs := ["sum", "s:a", "sum"]

theorem ofTopology_accepts_wellFormed_sharedParts : ∃ program,
    ofTopology 0 sharedParts {} false = .ok program ∧ program.Declares sharedParts := by
  have accepts := ofTopology_accepts_wellFormed 0 sharedParts {} false
  obtain ⟨program, made⟩ := accepts.1.mpr (by decide)
  exact ⟨program, made, accepts.2 program made⟩

end Declaring

end Program

end LayerGraph
