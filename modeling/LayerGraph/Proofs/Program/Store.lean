import LayerGraph.Program.Store
import Mathlib.Data.List.Nodup

/-!
# The laws of the store

What the node of a key is after each operation of the store. A store is well formed when its free
keys are vacant cells, each listed once; then a new node gets a key that names nothing, and no
other node changes.
-/

namespace LayerGraph.NodeStore

open List Option

variable {store : NodeStore} {k o : NodeKey} {n : Node}

/-- The free keys of a store are vacant cells, each listed once. -/
structure WellFormed (store : NodeStore) : Prop where
  nodup : store.free.Nodup
  vacant : ∀ key ∈ store.free, store.cells[key]? = some none

theorem wellFormed_empty : WellFormed {} := ⟨.nil, by simp⟩

theorem get?_eq_some : store.get? k = some n ↔ store.cells[k]? = some (some n) := by
  simp only [get?, join_eq_some_iff]

theorem contains_iff : store.contains k ↔ ∃ n, store.get? k = some n := by
  simp only [contains, isSome_iff_exists]

/-! ## Adding a node -/

theorem get?_insert_key (wellFormed : store.WellFormed) (n : Node) :
    store.get? (store.insert n).2 = none := by
  simp only [insert]
  split
  · next k rest free =>
    have vacant := wellFormed.vacant k (by simp [free])
    simp [get?, vacant]
  · simp [get?]

theorem get?_insert (wellFormed : store.WellFormed) (n : Node) (o : NodeKey) :
    (store.insert n).1.get? o =
      if o = (store.insert n).2 then some n else store.get? o := by
  cases free : store.free with
  | cons k rest =>
    have vacant := wellFormed.vacant k (by simp [free])
    have bound : k < store.cells.length := (List.getElem?_eq_some_iff.mp vacant).1
    simp only [insert, free, get?, getElem?_set]
    by_cases e : o = k
    · simp [e, bound]
    · simp [e, Ne.symm e]
  | nil =>
    simp only [insert, free, get?]
    by_cases e : o = store.cells.length
    · simp [e]
    · rcases Nat.lt_or_gt_of_ne e with smaller | larger
      · simp [getElem?_append_left smaller, e]
      · rw [if_neg e, getElem?_eq_none (by simpa using Nat.succ_le_of_lt larger),
          getElem?_eq_none (by omega)]

theorem WellFormed.insert (wellFormed : store.WellFormed) (n : Node) :
    (store.insert n).1.WellFormed := by
  rw [NodeStore.insert]
  split
  · next k rest free =>
    have nd := wellFormed.nodup
    rw [free, nodup_cons] at nd
    refine ⟨nd.2, fun o mem => ?_⟩
    have differs : k ≠ o := fun e => nd.1 (e ▸ mem)
    simpa [getElem?_set, differs] using wellFormed.vacant o (by simp [free, mem])
  · next free => exact ⟨wellFormed.nodup, by simp [free]⟩

/-! ## Changing nodes -/

theorem get?_modify (store : NodeStore) (k o : NodeKey) (change : Node → Node) :
    (store.modify k change).get? o =
      if o = k then (store.get? o).map change else store.get? o := by
  simp only [get?, modify, getElem?_modify]
  by_cases e : o = k
  · subst e
    cases hk : store.cells[o]? with
    | none => simp
    | some c => cases c <;> simp
  · simp [e, Ne.symm e]

theorem WellFormed.modify (wellFormed : store.WellFormed) (k : NodeKey)
    (change : Node → Node) : (store.modify k change).WellFormed := by
  refine ⟨wellFormed.nodup, fun o mem => ?_⟩
  simp only [NodeStore.modify, getElem?_modify, wellFormed.vacant o mem]
  split <;> rfl

theorem get?_map (store : NodeStore) (change : Node → Node) (o : NodeKey) :
    (store.map change).get? o = (store.get? o).map change := by
  simp only [get?, map, getElem?_map]
  cases hk : store.cells[o]? with
  | none => rfl
  | some c => cases c <;> rfl

theorem WellFormed.map (wellFormed : store.WellFormed) (change : Node → Node) :
    (store.map change).WellFormed := by
  refine ⟨wellFormed.nodup, fun o mem => ?_⟩
  simp [NodeStore.map, wellFormed.vacant o mem]

/-! ## Removing a node -/

theorem get?_erase (store : NodeStore) (k o : NodeKey) :
    (store.erase k).get? o = if o = k then none else store.get? o := by
  rw [erase]
  split
  · next hv =>
    obtain ⟨n, hk⟩ := contains_iff.mp hv
    have bound : k < store.cells.length := (List.getElem?_eq_some_iff.mp (get?_eq_some.mp hk)).1
    simp only [get?, getElem?_set]
    by_cases e : o = k
    · simp [e, bound]
    · simp [e, Ne.symm e]
  · next dead =>
    by_cases e : o = k
    · subst e
      simpa [contains] using dead
    · rw [if_neg e]

theorem WellFormed.erase (wellFormed : store.WellFormed) (k : NodeKey) :
    (store.erase k).WellFormed := by
  rw [NodeStore.erase]
  split
  · next hv =>
    obtain ⟨n, hk⟩ := contains_iff.mp hv
    have c := get?_eq_some.mp hk
    have bound : k < store.cells.length := (List.getElem?_eq_some_iff.mp c).1
    have used : k ∉ store.free := fun mem => by
      simp [wellFormed.vacant k mem] at c
    refine ⟨nodup_cons.mpr ⟨used, wellFormed.nodup⟩, fun o mem => ?_⟩
    rcases mem_cons.mp mem with rfl | mem
    · simp [bound]
    · have differs : k ≠ o := fun e => used (e ▸ mem)
      simpa [getElem?_set, differs] using wellFormed.vacant o mem
  · exact wellFormed

end LayerGraph.NodeStore
