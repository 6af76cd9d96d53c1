import LayerGraph.Proofs.Order.Topological

/-!
# Edits of an order

Every edit of a processing order leaves the keys in their order that it does not put somewhere or take
away (`Edit.moves`), and it puts keys exactly where it says (`Edit.Placed`), wherever they were
before. In the order that a run of edits leaves no key is listed twice, so positions and keys
determine each other.
-/

namespace LayerGraph

open List

namespace ProcessingOrder

variable {order : ProcessingOrder} {k : NodeKey}

theorem filter_insertIdx (ks : List NodeKey) (pos : Nat) (k : NodeKey) :
    (ks.insertIdx pos k).filter (· != k) = ks.filter (· != k) := by
  induction ks generalizing pos with
  | nil =>
    cases pos with
    | zero => simp
    | succ pos => rfl
  | cons head tail ih =>
    cases pos with
    | zero => simp
    | succ pos => rw [insertIdx_succ_cons, filter_cons, filter_cons, ih]

/-- Wherever a key is put, the others stay in their places. -/
theorem erase_insertAt (order : ProcessingOrder) (pos : Nat) (k : NodeKey) :
    (order.insertAt pos k).erase k = order.erase k := by
  have others := filter_insertIdx (order.erase k).toList (min pos (order.erase k).toList.length) k
  exact (congrArg ProcessingOrder.mk others).trans (erase_erase order k)

theorem erase_push (order : ProcessingOrder) (k : NodeKey) :
    (order.push k).erase k = order.erase k := by
  rw [push]
  split
  · rfl
  · simp [erase]

theorem erase_insertBefore (order : ProcessingOrder) (anchor k : NodeKey) :
    (order.insertBefore anchor k).erase k = order.erase k := by
  simp only [insertBefore]
  split
  · rw [erase_insertAt, erase_erase]
  · rw [erase_push, erase_erase]

theorem erase_insertAfter (order : ProcessingOrder) (anchor k : NodeKey) :
    (order.insertAfter anchor k).erase k = order.erase k := by
  simp only [insertAfter]
  split
  · rw [erase_insertAt, erase_erase]
  · rw [erase_push, erase_erase]

/-- Orders that agree apart from a key agree on any keys without it. -/
theorem filter_of_erase {next : ProcessingOrder} {ks : List NodeKey} (mem : k ∈ ks)
    (e : next.erase k = order.erase k) :
    next.toList.filter (· ∉ ks) = order.toList.filter (· ∉ ks) := by
  have through : ∀ some : ProcessingOrder,
      (some.erase k).toList.filter (· ∉ ks) = some.toList.filter (· ∉ ks) := fun some => by
    rw [erase, filter_filter]
    refine filter_congr fun o _ => ?_
    by_cases same : o = k
    · simp [same, mem]
    · simp [same]
  rw [← through next, e, through]

/-- Positions and keys determine each other. -/
theorem get?_eq_some_iff (nodup : order.toList.Nodup) (pos : Nat) (k : NodeKey) :
    order.get? pos = some k ↔ order.position? k = some pos := by
  rw [get?, position?, idxOf?_eq_some_iff, getElem?_eq_some_iff]
  refine exists_congr fun inside => ?_
  rw [iff_self_and]
  rintro rfl earlier lt e
  exact Nat.ne_of_lt lt (nodup.getElem_inj_iff.mp e)

/-- The edits of a processing order. -/
inductive Edit
  | push (key : NodeKey)
  | insertAt (position : Nat) (key : NodeKey)
  | insertBefore (anchor key : NodeKey)
  | insertAfter (anchor key : NodeKey)
  | replace (old new : NodeKey)
  | erase (key : NodeKey)
  | clear

def perform (order : ProcessingOrder) : Edit → ProcessingOrder
  | .push key => order.push key
  | .insertAt position key => order.insertAt position key
  | .insertBefore anchor key => order.insertBefore anchor key
  | .insertAfter anchor key => order.insertAfter anchor key
  | .replace old new => order.replace old new
  | .erase key => order.erase key
  | .clear => .empty

/-- The keys that an edit puts somewhere or takes away. -/
def Edit.moves (order : ProcessingOrder) : Edit → List NodeKey
  | push key | insertAt _ key | insertBefore _ key | insertAfter _ key | erase key => [key]
  | replace old new => [old, new]
  | clear => order.toList

/-- Where an edit of an order has put the keys it is given. -/
def Edit.Placed (order next : ProcessingOrder) : Edit → Prop
  | push key => key ∈ next.toList
  | insertAt position key => next.get? (min position (order.erase key).size) = some key
  | insertBefore anchor key => anchor ∈ order.toList → anchor ≠ key → ∃ before after,
      (order.erase key).toList = before ++ anchor :: after ∧
        next.toList = before ++ key :: anchor :: after
  | insertAfter anchor key => anchor ∈ order.toList → anchor ≠ key → ∃ before after,
      (order.erase key).toList = before ++ anchor :: after ∧
        next.toList = before ++ anchor :: key :: after
  | replace old new => old ∈ order.toList → old ≠ new → old ∉ next.toList ∧ ∃ before after,
      (order.erase new).toList = before ++ old :: after ∧ next.toList = before ++ new :: after
  | erase key => key ∉ next.toList
  | clear => next.toList = []

theorem nodup_perform (nodup : order.toList.Nodup) (edit : Edit) :
    (order.perform edit).toList.Nodup := by
  cases edit with
  | push key => exact nodup_push nodup key
  | insertAt position key => exact nodup_of_perm nodup (order.perm_insertAt position key)
  | insertBefore anchor key => exact nodup_of_perm nodup (order.perm_insertBefore anchor key)
  | insertAfter anchor key => exact nodup_of_perm nodup (order.perm_insertAfter anchor key)
  | replace old new =>
    rw [perform, replace]
    split
    · exact (nodup_of_perm nodup (order.perm_insertBefore old new)).sublist erase_sublist
    · exact nodup
  | erase key => exact nodup.sublist erase_sublist
  | clear => exact nodup_nil

/-- Keys that an edit does not move stay in their order. -/
theorem filter_perform (order : ProcessingOrder) (edit : Edit) :
    (order.perform edit).toList.filter (· ∉ edit.moves order) =
      order.toList.filter (· ∉ edit.moves order) := by
  cases edit with
  | push key => exact filter_of_erase mem_cons_self (order.erase_push key)
  | insertAt position key => exact filter_of_erase mem_cons_self (order.erase_insertAt position key)
  | insertBefore anchor key =>
    exact filter_of_erase mem_cons_self (order.erase_insertBefore anchor key)
  | insertAfter anchor key => exact filter_of_erase mem_cons_self (order.erase_insertAfter anchor key)
  | replace old new =>
    rw [perform, replace]
    split
    · calc ((order.insertBefore old new).erase old).toList.filter (· ∉ [old, new])
        _ = (order.insertBefore old new).toList.filter (· ∉ [old, new]) :=
          filter_of_erase mem_cons_self (erase_erase _ old)
        _ = order.toList.filter (· ∉ [old, new]) :=
          filter_of_erase (mem_cons_of_mem _ mem_cons_self) (order.erase_insertBefore old new)
    · rfl
  | erase key => exact filter_of_erase mem_cons_self (order.erase_erase key)
  | clear => exact (filter_eq_nil_iff.mpr fun key mem => by simp [Edit.moves, mem]).symm

theorem placed_perform (nodup : order.toList.Nodup) (edit : Edit) :
    edit.Placed order (order.perform edit) := by
  cases edit with
  | push key => exact mem_push.mpr (.inl rfl)
  | insertAt position key =>
    exact (getElem?_insertIdx_self ..).trans (if_pos (Nat.min_le_right ..))
  | insertBefore anchor key => exact toList_insertBefore nodup
  | insertAfter anchor key => exact toList_insertAfter nodup
  | replace old new =>
    refine fun listed ne => ⟨?_, toList_replace nodup listed ne⟩
    simp [perform, replace, contains, listed, mem_erase]
  | erase key => exact fun mem => (mem_erase.mp mem).2 rfl
  | clear => rfl

/-- **Edits of an order are exact.** -/
theorem order_edits_exact (edits : List Edit) :
    let order := edits.foldl perform empty
    order.toList.Nodup ∧
      (∀ position key, order.get? position = some key ↔ order.position? key = some position) ∧
      ∀ edit : Edit, edit.Placed order (order.perform edit) ∧
        (order.perform edit).toList.filter (· ∉ edit.moves order) =
          order.toList.filter (· ∉ edit.moves order) := by
  intro order
  have nodup : order.toList.Nodup := by
    apply foldlRecOn (motive := fun order => order.toList.Nodup) edits perform nodup_nil
    exact fun order nodup edit _ => nodup_perform nodup edit
  exact ⟨nodup, get?_eq_some_iff nodup, fun edit =>
    ⟨placed_perform nodup edit, order.filter_perform edit⟩⟩

end ProcessingOrder

end LayerGraph
