import LayerGraph.Proofs.Layout.Inference
import LayerGraph.Proofs.Network.Derivation

/-!
# Insertions in networks

A reorder is put behind a node that is read, in front of one reader that needs a border
(`Network.prepareWindow`) or of all readers (`Network.reorderInput`). It takes the marks of what it
reads (`Program.TakesMarks`), and its id tells for whom it was made. An id that is taken already is an
obstacle, whichever of two reorders comes first.

A border that need not be put on a reorder is merged into what is read. Borders can be merged in any
order.
-/

namespace LayerGraph

open List Option

/-- The cell of a primitive that is inserted behind a node. -/
def insertedCell (primitive : Primitive) (source : Node) : Cell :=
  { (Node.ofPrimitive primitive).markedLike source with reads := [source.id], listed := 0 }

/-! ## New cells -/

namespace Network

variable {net next : Network} {id a b : String} {fr : Cell}
  {change : String → List String → List String}

/-- Adds a cell, and changes what the others read. -/
def insert (net : Network) (fresh : Cell) (change : String → List String → List String) : Network where
  cell? id := if id = fresh.id then some fresh else (net.cell? id).map (·.withReads (change id))
  dropped := net.dropped

@[simp] theorem cell?_insert (net : Network) (fr : Cell)
    (change : String → List String → List String) (id : String) :
    (net.insert fr change).cell? id =
      if id = fr.id then some fr else (net.cell? id).map (·.withReads (change id)) := rfl

/-- A cell that has been added can be changed. -/
theorem put_insert {change : Node → Node} (keeps : ∀ n, (change n).id = n.id)
    (rewiring : String → List String → List String) :
    (net.insert fr rewiring).put fr.id (some (fr.withNode change)) =
      net.insert (fr.withNode change) rewiring := by
  have sameId : (fr.withNode change).id = fr.id := keeps fr.toNode
  apply Network.ext
  · funext id
    simp only [cell?_put, cell?_insert, sameId]
    split <;> rfl
  · rfl

/-- Adds a cell, unless its id is taken. -/
def tryInsert (fresh : Cell) (change : String → List String → List String) (net : Network) :
    Option Network :=
  if (net.cell? fresh.id).isSome then none else some (net.insert fresh change)

theorem tryInsert_eq_some : net.tryInsert fr change = some next ↔
      net.cell? fr.id = none ∧ net.insert fr change = next := by
  rw [tryInsert]
  split
  · next taken =>
    simp [isSome_iff_ne_none.mp taken]
  · next free =>
    simp [not_isSome_iff_eq_none.mp free]

theorem ne_of_free {o : String} (there : net.has id) (free : net.cell? o = none) : id ≠ o := by
  intro e
  obtain ⟨c, hk⟩ := there
  rw [e, free] at hk
  cases hk

theorem tryInsert_of_taken
    (taken : (net.cell? fr.id).isSome) : net.tryInsert fr change = none := if_pos taken

theorem tryInsert_of_free (free : net.cell? fr.id = none) :
    net.tryInsert fr change = some (net.insert fr change) :=
  if_neg (by simp [free])

variable {one m : Cell} {changeToo : String → List String → List String}

/-- An id that is taken is taken whatever is added before. -/
theorem tryInsert_bind_of_taken (taken : (net.cell? m.id).isSome ∨ one.id = m.id) : (net.tryInsert one
    change).bind (tryInsert m changeToo) = none := by
  rw [bind_eq_none_iff]
  intro next added
  obtain ⟨free, rfl⟩ := tryInsert_eq_some.mp added
  apply tryInsert_of_taken
  rw [cell?_insert]
  split
  · rfl
  · next ne =>
    rw [isSome_map]
    exact taken.resolve_right fun e => ne e.symm

/-- Two cells can be added in any order, when neither addition changes what the other one reads and
the changes for all others commute. -/
theorem tryInsert_comm (kept : net.cell? one.id = none → changeToo one.id one.reads = one.reads) (keptToo
    : net.cell? m.id = none → change m.id m.reads = m.reads) (commute : net.cell? one.id = none →
    net.cell? m.id = none → ∀ id, (net.cell? id).isSome → ∀ hr, change id (changeToo id hr) =
    changeToo id (change id hr)) : (net.tryInsert one change).bind (tryInsert m changeToo) =
    (net.tryInsert m changeToo).bind (tryInsert one change) := by
  by_cases e : one.id = m.id
  · rw [tryInsert_bind_of_taken (.inr e), tryInsert_bind_of_taken (.inr e.symm)]
  cases hk : net.cell? one.id with
  | some taken =>
    rw [tryInsert_of_taken (by rw [hk]; rfl), bind_none,
      tryInsert_bind_of_taken (.inl (by rw [hk]; rfl))]
  | none =>
    cases foundToo : net.cell? m.id with
    | some taken =>
      rw [tryInsert_of_taken (by rw [foundToo]; rfl : (net.cell? m.id).isSome),
        bind_none, tryInsert_bind_of_taken (.inl (by rw [foundToo]; rfl))]
    | none =>
      have free : (net.insert one change).cell? m.id = none := by
        rw [cell?_insert, if_neg (Ne.symm e), foundToo, map_none]
      have freeToo : (net.insert m changeToo).cell? one.id = none := by
        rw [cell?_insert, if_neg e, hk, map_none]
      rw [tryInsert_of_free hk, tryInsert_of_free foundToo, bind_some,
        bind_some, tryInsert_of_free free, tryInsert_of_free freeToo]
      congr 1
      apply Network.ext
      · funext id
        simp only [cell?_insert]
        by_cases isOne : id = one.id
        · have apart : id ≠ m.id := fun h => e (isOne.symm.trans h)
          rw [if_pos isOne, if_neg apart, if_pos isOne, map_some, isOne, Cell.withReads, kept hk]
        by_cases isAnother : id = m.id
        · rw [if_pos isAnother, if_neg isOne, if_pos isAnother, map_some, isAnother,
            Cell.withReads, keptToo foundToo]
        · rw [if_neg isOne, if_neg isAnother, if_neg isOne, if_neg isAnother]
          cases hc : net.cell? id with
          | none => rfl
          | some c =>
            have exchanged := commute hk foundToo id (by rw [hc]; rfl) c.reads
            simp only [map_some, Cell.withReads, exchanged]
      · rfl

end Network

namespace Program

variable {p q : Program} {ins prev r : NodeKey} {n src : Node}
  {prim : Primitive} {pos : Nat} {moveUsers : Bool}

/-- When a node is new and the others read something else, so it is with the cells. -/
theorem network_of_insertion (wf : p.Consistent) (after : q.Consistent)
    {change : String → List String → List String} (opts : q.options = p.options)
    (nodes : ∀ k, q.node? k = if k = ins then some n else p.node? k)
    (hr : ∀ k st, p.node? k = some st → (q.dependencies k).map q.idOf =
        change st.id ((p.dependencies k).map p.idOf))
    (vacant : p.node? ins = none) (inputs : q.inputs = p.inputs)
    (optimizedOut : q.optimizedOut = p.optimizedOut) :
    q.network = p.network.insert (q.cellAt ins n) change := by
  have foundNew : q.node? ins = some n := by rw [nodes, if_pos rfl]
  have named : ∀ k st, p.node? k = some st → (st.id = n.id ↔ k = ins) := by
    intro k st hk
    have ne : k ≠ ins := fun e => by
      rw [e, vacant] at hk
      cases hk
    have foundAfter : q.node? k = some st := by rw [nodes, if_neg ne, hk]
    exact ⟨after.key_eq_of_id_eq foundAfter foundNew, fun e => absurd e ne⟩
  have elsewhere : ∀ k, k ≠ ins → q.face? k = (p.face? k).map fun c => c.withReads (change c.id) := by
    intro k ne
    rw [face?, face?, nodes, if_neg ne, Option.map_map]
    refine Option.map_congr fun st hk => ?_
    rw [cellAt, shown, opts, inputs, hr k st hk]
    rfl
  apply Network.ext
  · funext id
    exact wf.cell?_of_faces after (fun id => (·.withReads (change id))) named (face?_of_node? foundNew)
      (fun _ made => some.inj made ▸ rfl) elsewhere (fun _ _ => rfl) id
  · funext id
    simp only [network, Network.insert, optimizedOut]

/-- How the ids that are read change when a node is put in front of one reader or of all. -/
def readsAfter (moveUsers : Bool) (source fresh reader : String) (position : Nat) (id : String)
    (reads : List String) : List String :=
  if moveUsers then reads.map (rerouted source fresh)
  else if id = reader then reads.set position fresh
  else reads

section Inserted

variable (inserts : InsertsAt p q ins prev prim r pos moveUsers)
  (takes : TakesMarks p q ins prim src) (wf : p.Consistent)
  (foundPrev : p.node? prev = some src)
include inserts

variable {k : NodeKey}

include takes

theorem InsertsAt.idOf (hv : p.contains k) : q.idOf k = p.idOf k := by
  rw [Program.idOf, Program.idOf, takes.nodes, if_neg (inserts.different hv)]

include wf foundPrev

/-- The cell of a node that has been inserted. -/
theorem InsertsAt.cellAt : q.cellAt ins ((Node.ofPrimitive prim).markedLike src) =
    insertedCell prim src := by
  have idPrev : q.idOf prev = src.id := by
    rw [inserts.idOf takes (contains_of_node? foundPrev), idOf_of_node? foundPrev]
  have hl : q.inputs.count ins = 0 := by
    rw [takes.inputs, count_eq_zero]
    exact fun mem => inserts.different (wf.inputs_live ins mem) rfl
  rw [Program.cellAt, inserts.lists, if_pos rfl, map_singleton, idPrev, hl, shown, Node.noting]
  split <;> rfl

/-- **An insertion adds a cell.** -/
theorem InsertsAt.network {readerNode : Node} (after : q.Consistent)
    (foundReader : p.node? r = some readerNode) :
    q.network = p.network.insert (insertedCell prim src)
      (readsAfter moveUsers src.id prim.id readerNode.id pos) := by
  have idNew : q.idOf ins = prim.id := by
    rw [Program.idOf, takes.nodes, if_pos rfl]
    rfl
  rw [← inserts.cellAt takes wf foundPrev]
  apply network_of_insertion wf after inserts.options takes.nodes _ inserts.vacant
    takes.inputs takes.optimizedOut
  intro k st hk
  have ne := inserts.different (contains_of_node? hk)
  have idsRead : (p.dependencies k).map q.idOf = (p.dependencies k).map p.idOf :=
    map_congr_left fun dep mem =>
      inserts.idOf takes (wf.reads_live k dep mem).1
  rw [inserts.lists, if_neg ne, readsAfter]
  cases moveUsers with
  | true =>
    rw [if_pos rfl, if_pos rfl, List.map_map, List.map_map]
    apply map_congr_left
    intro dep mem
    have hv := (wf.reads_live k dep mem).1
    rw [Function.comp_apply, Function.comp_apply, redirected, rerouted]
    by_cases isPrev : dep = prev
    · rw [if_pos isPrev, isPrev, if_pos (idOf_of_node? foundPrev), idNew]
    · rw [if_neg isPrev, if_neg fun e => isPrev (wf.key_eq_of_idOf foundPrev hv e),
        inserts.idOf takes hv]
  | false =>
    rw [if_neg Bool.false_ne_true, if_neg Bool.false_ne_true]
    by_cases isReader : k = r
    · subst isReader
      cases hk.symm.trans foundReader
      rw [if_pos rfl, if_pos rfl, map_set, idsRead, idNew]
    · have apart : st.id ≠ readerNode.id := fun h =>
        isReader (wf.key_eq_of_id_eq hk foundReader h)
      rw [if_neg isReader, if_neg apart, idsRead]

end Inserted

end Program

end LayerGraph
