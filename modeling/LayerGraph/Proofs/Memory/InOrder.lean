import LayerGraph.Proofs.Memory.Conflicts

/-!
# Sharing storage with a queue that works in order

The nodes of a program are executed in processing order. An owner of a buffer reads what lies in
the storage behind its inputs and then writes its own storage; other nodes write nothing. What a
place of the storage holds is the node that wrote it last (`Program.execute`), and the value of a
node is stored as long as the place behind it holds the owner of its buffer (`Program.Stored`).

When owners whose live ranges meet have different places, every owner finds the values of its
inputs stored, also while it writes, and in the end the value of every output is stored.
-/

namespace LayerGraph.Program

open List Option

variable {p : Program} {Place : Type} [DecidableEq Place] {storage : NodeKey → Place}

/-- What the storage holds when one more node was executed. -/
def execute (program : Program) (storage : NodeKey → Place) (contents : Place → Option NodeKey)
    (key : NodeKey) : Place → Option NodeKey :=
  if program.ownsBuffer key then fun place => if place = storage key then some key else contents place
  else contents

/-- What the storage holds when the given nodes were executed one after the other. -/
def contentsAfter (program : Program) (storage : NodeKey → Place) (done : List NodeKey) :
    Place → Option NodeKey :=
  done.foldl (program.execute storage) fun _ => none

/-- The place behind a node holds its value: it is a constant buffer, or was written last by the
owner of the buffer that stands behind the node. -/
def Stored (program : Program) (storage : NodeKey → Place) (contents : Place → Option NodeKey)
    (key : NodeKey) : Prop :=
  ∃ root, program.BackedBy key root ∧ (program.isConstantBuffer root ∨ program.ownsBuffer root ∧ contents
    (storage root) = some root)

/-! ## What executing nodes leaves alone -/

variable {k : NodeKey} {place : Place}

theorem execute_of_ne {contents : Place → Option NodeKey} (elsewhere : p.ownsBuffer k → storage k ≠
    place) : p.execute storage contents k place = contents place := by
  rw [execute]
  split
  · next owns => exact if_neg fun e => elsewhere owns e.symm
  · rfl

theorem foldl_execute_of_ne {ks : List NodeKey} (elsewhere : ∀ k ∈ ks, p.ownsBuffer k → storage k ≠
    place) (contents : Place → Option NodeKey) : ks.foldl (p.execute storage) contents place = contents
    place := by
  induction ks generalizing contents with
  | nil => rfl
  | cons k rest ih =>
    rw [foldl_cons, ih fun o mem => elsewhere o (mem_cons_of_mem _ mem)]
    exact execute_of_ne (elsewhere k mem_cons_self)

/-- An owner's place holds the owner as long as nobody else writes there. -/
theorem contentsAfter_owner {pre later : List NodeKey} {root : NodeKey} (owns : p.ownsBuffer root)
    (elsewhere : ∀ k ∈ later, p.ownsBuffer k → storage k ≠ storage root) :
    p.contentsAfter storage (pre ++ root :: later) (storage root) = some root := by
  rw [contentsAfter, foldl_append, foldl_cons, foldl_execute_of_ne elsewhere, execute,
    if_pos owns, if_pos rfl]

/-! ## What separated storage leaves alone -/

/-- A node that does not run in place is a constant buffer or owns its buffer. -/
theorem isConstantBuffer_or_ownsBuffer (hv : p.contains k) (own : p.runsInPlace k = false) :
    p.isConstantBuffer k ∨ p.ownsBuffer k := by
  obtain ⟨n, hk⟩ := contains_iff.mp hv
  simp only [runsInPlace, hk, any_some] at own
  simp only [isConstantBuffer, ownsBuffer, hk, any_some, own, Bool.or_false]
  cases n.tag == .data
  · exact .inr rfl
  · exact .inl rfl

section Separated

variable {pre later rest : List NodeKey} {root : NodeKey} {n : Node}

/-- While a buffer is needed nobody else writes to its place. -/
theorem contentsAfter_needed (overlaps : p.NotesConflicts .skippedBranchAware)
    (separates : p.Separates storage) (split : p.order.toList = pre ++ root :: (later ++ rest))
    (owns : p.ownsBuffer root) (hk : p.node? root = some n)
    (needed : pre.length + later.length ≤ (p.bufferOf true pre.length root n).stop) :
    p.contentsAfter storage (pre ++ root :: later) (storage root) = some root := by
  refine contentsAfter_owner owns fun k mem ownsKey => Ne.symm ?_
  obtain ⟨mid, after, rfl⟩ := append_of_mem mem
  obtain ⟨rootNode, foundRoot, ofRoot⟩ := bufferAt?_of_ownsBuffer owns pre.length
  obtain ⟨keyNode, foundKey, ofKey⟩ :=
    bufferAt?_of_ownsBuffer ownsKey (pre.length + 1 + mid.length)
  cases hk.symm.trans foundRoot
  refine separates root k owns ownsKey (overlaps pre mid (after ++ rest) root k
    (by simpa using split) _ _ ofRoot ofKey ?_)
  -- The key starts at its position, which is within the range of the root.
  have start : (p.bufferOf true (pre.length + 1 + mid.length) k keyNode).start =
      pre.length + 1 + mid.length := rfl
  simp only [bufferConflict, Buffer.overlaps, decide_eq_true_eq, start]
  simp only [length_append, length_cons] at needed
  omega

variable {k : NodeKey}

/-- What an owner reads is stored before and after the owner writes. -/
theorem stored_input (complete : p.HasCompleteOrder) (registered : p.Registered) (single :
    p.InPlaceReadsOne) (overlaps : p.NotesConflicts .skippedBranchAware) (separates : p.Separates
    storage) {done after : List NodeKey} {i : NodeKey} (split : p.order.toList = done ++ k :: after)
    (owns : p.ownsBuffer k) (hr : i ∈ p.dependencies k) : p.Stored storage (p.contentsAfter storage
    done) i ∧ p.Stored storage (p.contentsAfter storage (done ++ [k])) i := by
  have nodup := complete.nodup
  have inputBefore := complete.before k i hr
  obtain ⟨root, rootListed, backed⟩ := exists_backedBy complete single i (inputBefore.subset (by simp))
  obtain ⟨n, hk⟩ := contains_iff.mp ((complete.complete root).mp rootListed)
  rcases isConstantBuffer_or_ownsBuffer (contains_of_node? hk) backed.root_own with con | own
  · exact ⟨⟨root, backed, .inl con⟩, ⟨root, backed, .inl con⟩⟩
  -- The root comes before the reader, for it comes before what is read or is the same.
  have rootDone : root ∈ done := by
    rw [split] at inputBefore nodup
    have inputDone := mem_of_pair_sublist_append nodup inputBefore
    rcases backed.before complete.toHasValidOrder with rfl | earlier
    · exact inputDone
    · obtain ⟨front, mid, rfl⟩ := append_of_mem inputDone
      rw [split, append_assoc, cons_append] at earlier
      rw [append_assoc, cons_append] at nodup
      exact mem_append_left _ (mem_of_pair_sublist_append nodup earlier)
  obtain ⟨pre, mid, rfl⟩ := append_of_mem rootDone
  have pos : p.order.position? k = some (pre ++ root :: mid).length := by
    refine ProcessingOrder.position?_append (fun mem => ?_) split
    rw [split, nodup_append] at nodup
    exact nodup.2.2 k mem k (by simp) rfl
  have readerOwn : p.runsInPlace k = false := by
    obtain ⟨r, foundReader, own⟩ := exists_node_of_any owns
    simp only [Bool.not_eq_true', Bool.or_eq_false_iff] at own
    simp only [runsInPlace, foundReader, any_some, own.2]
  have needed := position_le_stop (mem_readers registered backed hr readerOwn pre.length n) pos
  simp only [length_append, length_cons] at needed
  constructor
  · exact ⟨root, backed, .inr ⟨own, contentsAfter_needed overlaps separates
      (by simpa using split) own hk (by omega)⟩⟩
  · refine ⟨root, backed, .inr ⟨own, ?_⟩⟩
    have split' : p.order.toList = pre ++ root :: ((mid ++ [k]) ++ after) := by
      simpa using split
    have kept := contentsAfter_needed overlaps separates split' own hk (by simpa using needed)
    simpa using kept

/-- In the end every output is stored. -/
theorem stored_output (complete : p.HasCompleteOrder) (registered : p.Registered) (single :
    p.InPlaceReadsOne) (overlaps : p.NotesConflicts .skippedBranchAware) (separates : p.Separates
    storage) (hm : p.isOutput k) : p.Stored storage (p.contentsAfter storage p.order.toList) k := by
  obtain ⟨root, rootListed, backed⟩ := exists_backedBy complete single k
    ((complete.complete k).mpr (contains_of_any hm))
  obtain ⟨n, hk⟩ := contains_iff.mp ((complete.complete root).mp rootListed)
  rcases isConstantBuffer_or_ownsBuffer (contains_of_node? hk) backed.root_own with con | own
  · exact ⟨root, backed, .inl con⟩
  obtain ⟨pre, later, split⟩ := append_of_mem rootListed
  have kept := isKept_of_output registered backed hm hk pre.length
  have split' : p.order.toList = pre ++ root :: (later ++ []) := by simpa using split
  refine ⟨root, backed, .inr ⟨own, ?_⟩⟩
  rw [split]
  refine contentsAfter_needed overlaps separates split' own hk ?_
  have stop : (p.bufferOf true pre.length root n).stop = p.order.size := by
    simp only [bufferOf] at kept ⊢
    rw [if_pos kept]
  rw [stop, ProcessingOrder.size, split]
  simp

end Separated

/-- **Storage is shared safely in order.** The memory dependencies of a program can be computed.
Whenever owners that are noted with each other have different storage, every owner finds what it
reads stored, before and after it writes, and in the end every output is stored. -/
theorem inputs_and_outputs_stored (program : Program) (complete : program.HasCompleteOrder)
    (registered : program.Registered) (single : program.InPlaceReadsOne) :
    ∃ computed, Edit.computeConflicts .skippedBranchAware program = .ok () computed ∧
      Noted program computed ∧
      ∀ (Place : Type) [DecidableEq Place] (storage : NodeKey → Place),
        computed.Separates storage →
        (∀ done key after, computed.order.toList = done ++ key :: after →
          computed.ownsBuffer key → ∀ input ∈ computed.dependencies key,
          computed.Stored storage (computed.contentsAfter storage done) input ∧
            computed.Stored storage (computed.contentsAfter storage (done ++ [key])) input) ∧
        ∀ key, computed.isOutput key →
          computed.Stored storage (computed.contentsAfter storage computed.order.toList) key := by
  obtain ⟨computed, result, noted, overlaps⟩ :=
    exists_computed complete (nofun : MemoryStrategy.skippedBranchAware ≠ .basic)
  have completeComputed := complete.altered noted.annotated
  have registeredComputed := noted.registered registered
  have singleComputed := noted.inPlaceReadsOne single
  refine ⟨computed, result, noted, fun Place _ storage separates => ⟨?_, ?_⟩⟩
  · intro done key after split owns input reads
    exact stored_input completeComputed registeredComputed singleComputed overlaps separates split
      owns reads
  · intro key marked
    exact stored_output completeComputed registeredComputed singleComputed overlaps separates marked

theorem inputs_and_outputs_stored_inPlaceChain :
    inPlaceChain.HasCompleteOrder ∧ inPlaceChain.Registered ∧ inPlaceChain.InPlaceReadsOne ∧
      ∃ computed, Edit.computeConflicts .skippedBranchAware inPlaceChain = .ok () computed ∧
        ∀ storage : NodeKey → Nat, computed.Separates storage →
          computed.Stored storage (computed.contentsAfter storage [0, 1]) 1 ∧
            computed.Stored storage (computed.contentsAfter storage [0, 1, 2, 3]) 3 := by
  have complete : inPlaceChain.HasCompleteOrder := by decide
  have registered : inPlaceChain.Registered := by decide
  have single : inPlaceChain.InPlaceReadsOne := by decide
  obtain ⟨computed, result, noted, safe⟩ :=
    inputs_and_outputs_stored inPlaceChain complete registered single
  refine ⟨complete, registered, single, computed, result, fun storage separates => ?_⟩
  obtain ⟨inputs, outputs⟩ := safe Nat storage separates
  have order : computed.order.toList = [0, 1, 2, 3] := by rw [noted.order]; rfl
  have owns : computed.ownsBuffer 2 := by rw [noted.ownsBuffer]; rfl
  have reads : 1 ∈ computed.dependencies 2 := by rw [noted.annotated.dependencies]; decide
  have marked : computed.isOutput 3 := by rw [noted.isOutput]; rfl
  refine ⟨(inputs [0, 1] 2 [3] order owns 1 reads).1, ?_⟩
  have stored := outputs 3 marked
  rwa [order] at stored

end LayerGraph.Program
