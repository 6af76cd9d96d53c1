import LayerGraph.Proofs.Program.Declaration

/-!
# What the parts of split layers stand for

Every part of a split layer calls for a crop, and the declared layers and the crops are registered one
after the other. An id that is taken already is left as it is, so of several primitives with the same id
the first one gets it (`primitiveOf?_ofTopology`).

Ids of parts are put together from the id of the layer and the name of the part. They can coincide with
each other and with ids of declared layers. Readers of a part read its own crop when its id occurs only
once (`part_resolves_to_first`).
-/

namespace LayerGraph

open List Option

/-- The primitives from which the nodes are made: the declared ones, and then the crops for all parts. -/
def Topology.candidates (topology : Topology) : List Primitive :=
  topology.primitives ++ topology.primitives.flatMap fun prim =>
    Program.cropsOf (.ofPrimitive prim)

namespace Program

variable {program q : Program} {id : String} {prim : Primitive}

/-- The primitive of the node with an id. -/
def primitiveOf? (program : Program) (id : String) : Option Primitive :=
  (program.keyOf? id).bind fun key => (program.node? key).map (·.primitive)

theorem Consistent.primitiveOf?_eq_some (wf : program.Consistent) :
    program.primitiveOf? id = some prim ↔
      prim.id = id ∧ ∃ k n, program.node? k = some n ∧ n.primitive = prim := by
  simp only [primitiveOf?, bind_eq_some_iff, map_eq_some_iff, wf.keyOf?_eq_some]
  constructor
  · rintro ⟨k, ⟨n, hk, rfl⟩, _, again, rfl⟩
    cases hk.symm.trans again
    exact ⟨rfl, k, n, hk, rfl⟩
  · rintro ⟨rfl, k, n, hk, rfl⟩
    exact ⟨k, ⟨n, hk, rfl⟩, n, hk, rfl⟩

/-! ## The first primitive gets an id -/

/-- A new primitive gets its id when no node has it. -/
theorem primitiveOf?_ensure (wf : program.Consistent) (prim : Primitive) (id : String) :
    (program.ensure prim).1.primitiveOf? id =
      (program.primitiveOf? id).or (if prim.id = id then some prim else none) := by
  cases taken : program.keyOf? prim.id with
  | some k =>
    rw [ensure_of_keyOf? taken]
    split
    · next e =>
      obtain ⟨n, hk, -⟩ := wf.keyOf?_eq_some.mp taken
      have held : program.primitiveOf? id = some n.primitive := by
        rw [primitiveOf?, ← e, taken, bind_some, hk, map_some]
      rw [held, some_or]
    · rw [or_none]
  | none =>
    have after := wf.ensure prim
    have nodes := node?_ensure wf taken
    cases held : program.primitiveOf? id with
    | some o =>
      obtain ⟨e, k, n, hk, isOther⟩ := wf.primitiveOf?_eq_some.mp held
      have ne : k ≠ (program.ensure prim).2 := by
        rintro rfl
        cases (node?_ensure_key wf taken).symm.trans hk
      exact after.primitiveOf?_eq_some.mpr ⟨e, k, n, by rw [nodes, if_neg ne, hk], isOther⟩
    | none =>
      rw [none_or]
      split
      · next e => exact after.primitiveOf?_eq_some.mpr ⟨e, _, _, (nodes _).trans (if_pos rfl), rfl⟩
      · next differs =>
        refine eq_none_iff_forall_ne_some.mpr fun o holds => ?_
        obtain ⟨e, k, n, hk, isOther⟩ := after.primitiveOf?_eq_some.mp holds
        rw [nodes] at hk
        split at hk
        · cases hk
          cases isOther
          exact differs e
        · cases held.symm.trans (wf.primitiveOf?_eq_some.mpr ⟨e, k, n, hk, isOther⟩)

theorem primitiveOf?_foldl_ensure (wf : program.Consistent) (prims : List Primitive) (id : String) :
    (prims.foldl (fun program prim => (program.ensure prim).1) program).primitiveOf? id =
      (program.primitiveOf? id).or (prims.find? (·.id == id)) := by
  induction prims generalizing program with
  | nil => rw [foldl_nil, find?_nil, or_none]
  | cons prim rest ih =>
    rw [foldl_cons, ih (wf.ensure prim), primitiveOf?_ensure wf, Option.or_assoc, find?_cons]
    by_cases e : prim.id = id
    · simp [e]
    · simp [e, beq_false_of_ne e]

section Topologies

variable {topology : Topology} {number : Nat} {opts : Options} {isInternal : Bool}

theorem primitiveOf?_registering {prims : List Primitive}
    (nd : (prims.map (·.id)).Nodup) (id : String) :
    (registering number opts isInternal prims).primitiveOf? id = prims.find? (·.id == id) := by
  induction prims using reverseRecOn with
  | nil => rfl
  | append_singleton prims prim ih =>
    rw [map_append, map_singleton, nodup_append] at nd
    obtain ⟨pre, -, apart⟩ := nd
    have fr : prim.id ∉ prims.map (·.id) := fun mem =>
      apart _ mem _ (mem_singleton_self _) rfl
    rw [← ensure_registering fr, primitiveOf?_ensure (consistent_registering pre), ih pre,
      find?_append, find?_singleton]
    simp only [beq_iff_eq]

/-- **Of the primitives with an id, the first one gets it.** -/
theorem primitiveOf?_ofTopology (res : ofTopology number topology opts isInternal = .ok program)
    (id : String) : program.primitiveOf? id = topology.candidates.find? (·.id == id) := by
  obtain ⟨all, wired, -, wires, marks, nd, complete⟩ := exists_marks_of_ofTopology res
  have e : program.primitiveOf? id = (registering number opts isInternal all).primitiveOf? id := by
    have names : program.keyOf? id = (registering number opts isInternal all).keyOf? id := by
      rw [marks.same, collectInputs, wires.same]
      rfl
    have nodes : wired.collectInputs.node? = (registering number opts isInternal all).node? := by
      rw [wires.same]
      rfl
    rw [primitiveOf?, primitiveOf?, names]
    refine congrArg _ (funext fun k => ?_)
    rw [marks.nodes, nodes, Option.map_map]
    rfl
  rw [e, ← complete, addSplitCrops, nodes_registering, flatMap_map, primitiveOf?_foldl_ensure
    (consistent_registering nd), primitiveOf?_registering nd, Topology.candidates, find?_append]

end Topologies

/-! ## The crops of a split layer -/

/-- The crop for a part: it goes on to where the next part begins. -/
theorem getElem?_splitCrops (split i : String) (parts : List SplitPart) (index : Nat) :
    (splitCrops split i parts)[index]? = parts[index]?.map fun part =>
      { id := splitPartId split part.name
        kind := .crop part.featureOffset (parts[index + 1]?.map fun next =>
          UInt32.ofNat (next.featureOffset.toNat - part.featureOffset.toNat))
        inputs := [i] } := by
  induction parts generalizing index with
  | nil => rfl
  | cons part rest ih =>
    cases index with
    | zero => 
      cases rest <;> rfl
    | succ index => exact ih index

variable {topology : Topology}

theorem mem_candidates {split : Primitive} (hd : split ∈ topology.primitives) (called : prim ∈
    cropsOf (.ofPrimitive split)) : prim ∈ topology.candidates :=
  mem_append_right _ (mem_flatMap.mpr ⟨split, hd, called⟩)

theorem ids_candidates (topology : Topology) :
    topology.candidates.map (·.id) = topology.declaredIds ++ topology.partIds := by
  rw [Topology.candidates, map_append, map_flatMap]
  simp only [ids_cropsOf]
  rfl

/-- An id that occurs once has one candidate. -/
theorem find?_candidates (mem : prim ∈ topology.candidates) (once : (topology.declaredIds ++
    topology.partIds).count prim.id = 1) : topology.candidates.find? (·.id == prim.id) = some prim := by
  have kept : prim ∈ topology.candidates.filter (·.id == prim.id) :=
    mem_filter.mpr ⟨mem, beq_self_eq_true _⟩
  rw [← ids_candidates, count_eq_length_filter, List.filter_map, length_map, length_eq_one_iff] at once
  obtain ⟨only, single⟩ := once
  have filtered : topology.candidates.filter (·.id == prim.id) = [only] := single
  rw [filtered, mem_singleton] at kept
  rw [← head?_filter, filtered, head?_singleton, kept]

/-- **The id of a part stands for the first declared layer or crop that has it,** and for its own crop when
no other layer or part has it. -/
theorem part_resolves_to_first {topology : Topology} {number : Nat} {options : Options}
    {isInternal : Bool} (result : ofTopology number topology options isInternal = .ok program)
    {split : Primitive} (declared : split ∈ topology.primitives) {parts : List SplitPart}
    (kind : split.kind = .split parts) {input : String} {others : List String}
    (inputs : split.inputs = input :: others) {index : Nat} {part : SplitPart}
    (listed : parts[index]? = some part) :
    ∃ key node, program.keyOf? (splitPartId split.id part.name) = some key ∧
      program.node? key = some node ∧
      topology.candidates.find? (·.id == splitPartId split.id part.name) = some node.primitive ∧
      ((topology.declaredIds ++ topology.partIds).count (splitPartId split.id part.name) = 1 →
        node.kind = .crop part.featureOffset (parts[index + 1]?.map fun next =>
          UInt32.ofNat (next.featureOffset.toNat - part.featureOffset.toNat)) ∧
        (program.dependencies key).map program.idOf = [input]) := by
  have consistent := consistent_of_ofTopology result
  have crops : cropsOf (.ofPrimitive split) = splitCrops split.id input parts := by
    simp only [cropsOf, Node.kind, Node.ofPrimitive, kind, inputs]
    rfl
  have called := getElem?_splitCrops split.id input parts index
  rw [listed, Option.map_some] at called
  have member := mem_candidates declared (crops ▸ List.mem_of_getElem? called)
  have held := primitiveOf?_ofTopology result (splitPartId split.id part.name)
  cases first : topology.candidates.find? (·.id == splitPartId split.id part.name) with
  | none => exact absurd (beq_self_eq_true _) (List.find?_eq_none.mp first _ member)
  | some primitive =>
      obtain ⟨same, key, node, found, rfl⟩ := consistent.primitiveOf?_eq_some.mp (held.trans first)
      refine ⟨key, node, same ▸ consistent.keyOf?_id found, found, rfl, fun once => ?_⟩
      have own := find?_candidates member once
      rw [(declares_of_ofTopology result).reads key node found, Node.kind,
        Option.some.inj (first.symm.trans own)]
      exact ⟨rfl, rfl⟩

/-- The part that is declared as a layer of its own does not concern the other one. -/
theorem part_resolves_to_first_sharedParts : ∃ program key node,
    ofTopology 0 sharedParts {} false = .ok program ∧ program.keyOf? "s:a" = some key ∧
      program.node? key = some node ∧ node.kind = .crop 0 (some 2) ∧
      (program.dependencies key).map program.idOf = ["x"] := by
  obtain ⟨program, made⟩ := exists_ofTopology_iff.mpr (by decide : sharedParts.WellFormed)
  obtain ⟨key, node, named, found, -, own⟩ := part_resolves_to_first made
    (by decide : { id := "s", kind := .split [⟨"a", 0⟩, ⟨"b", 2⟩], inputs := ["x"] } ∈
      sharedParts.primitives) rfl rfl
    (by decide : ([⟨"a", 0⟩, ⟨"b", 2⟩] : List SplitPart)[0]? = some ⟨"a", 0⟩)
  obtain ⟨kind, reads⟩ := own (by decide)
  exact ⟨program, key, node, made, named, found, kind, reads⟩

/-- A split layer both parts of which have the same name. -/
def sameParts : Topology where
  primitives := [
    .inputLayout "x" ⟨.bfyx, ⟨1, 4, 1, 1⟩, {}⟩,
    { id := "s", kind := .split [⟨"a", 0⟩, ⟨"a", 2⟩], inputs := ["x"] }]
  inputs := ["x"]
  outputs := ["s:a"]

/-- The second part begins at the third feature and goes on to the end, but its id stands for the crop of
the first one. -/
theorem second_part_resolves_to_first_crop : ∃ program key node,
    ofTopology 0 sameParts {} false = .ok program ∧ program.keyOf? "s:a" = some key ∧
      program.node? key = some node ∧ node.kind = .crop 0 (some 2) ∧ node.kind ≠ .crop 2 none := by
  obtain ⟨program, made⟩ := exists_ofTopology_iff.mpr (by decide : sameParts.WellFormed)
  have consistent := consistent_of_ofTopology made
  have held := primitiveOf?_ofTopology made "s:a"
  have first : sameParts.candidates.find? (·.id == "s:a") =
      some { id := "s:a", kind := .crop 0 (some 2), inputs := ["x"] } := by decide
  obtain ⟨same, key, node, found, primitive⟩ := consistent.primitiveOf?_eq_some.mp (held.trans first)
  have kind : node.kind = .crop 0 (some 2) := by rw [Node.kind, primitive]
  have named := consistent.keyOf?_id found
  rw [Node.id, primitive] at named
  exact ⟨program, key, node, made, named, found, kind, by rw [kind]; decide⟩

end Program

end LayerGraph
