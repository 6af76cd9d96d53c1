import LayerGraph.Order.Dependencies
import Mathlib.Data.List.Basic
import Mathlib.Data.List.Induction
import Mathlib.Data.List.InsertIdx
import Mathlib.Data.List.Nodup
import Mathlib.Data.List.Perm.Basic

/-!
# Topological orders

A list of keys is topological when it lists no key twice and every dependency of a listed key
strictly before it (`IsTopological`). That one key stands before another is said by a sublist of
two: `[first, second] <+ keys`. Taking keys away from a list, or putting new ones between the
others, keeps all such sublists, so edits of an order need to look at the keys they are given only.

A topological list carries an induction: what holds of a key as soon as it holds of its
dependencies holds of every listed key (`IsTopological.induction`).

The second part says where the edits of a processing order put a key: directly before an anchor,
directly after it, or in the place of another key. Wherever a key is put, the others stay listed and
the key is listed once (`perm_insertBefore`, `perm_insertAfter`).
-/

namespace LayerGraph

open List

/-! ## Standing before -/

section Before

variable {ks before after : List NodeKey} {first b k : NodeKey}

/-- In a list without repetitions, what stands before a key is listed in front of it. -/
theorem mem_of_pair_sublist_append (nodup : (before ++ k :: after).Nodup)
    (pair : [first, k].Sublist (before ++ k :: after)) : first ∈ before := by
  obtain ⟨apart, disjoint⟩ := nodup_middle.mp nodup |> nodup_cons.mp
  rw [cons_sublist_iff] at pair
  obtain ⟨front, back, split, inFront, inBack⟩ := pair
  have inBack : k ∈ back := singleton_sublist.mp inBack
  rcases append_eq_append_iff.mp split with ⟨mid, rfl, tail⟩ | ⟨mid, rfl, tail⟩
  · -- The front reaches over the key, so the key would be listed twice.
    cases mid with
    | nil => exact by simpa using inFront
    | cons head mid =>
      simp only [cons_append, cons.injEq] at tail
      obtain ⟨rfl, rfl⟩ := tail
      exact absurd (by simp [inBack]) apart
  · exact mem_append_left _ inFront

/-- What is listed in front of a key stands before it. -/
theorem pair_sublist_append (mem : first ∈ before) : [first, k].Sublist (before ++ k :: after) :=
  (singleton_sublist.mpr mem).append (singleton_sublist.mpr (by simp))

theorem ne_of_pair_sublist (nodup : ks.Nodup) (pair : [first, b].Sublist ks) : first ≠ b := by
  have nd := pair.nodup nodup
  simpa using nd

theorem pair_sublist_irrefl (nodup : ks.Nodup) : ¬ [k, k].Sublist ks := fun pair =>
  ne_of_pair_sublist nodup pair rfl

theorem pair_sublist_trans {third : NodeKey} (nodup : ks.Nodup)
    (pair : [first, b].Sublist ks) (next : [b, third].Sublist ks) : [first, third].Sublist ks := by
  obtain ⟨before, after, rfl⟩ := append_of_mem (next.subset (by simp : third ∈ _))
  have inBefore := mem_of_pair_sublist_append nodup next
  obtain ⟨front, mid, rfl⟩ := append_of_mem inBefore
  rw [append_assoc, cons_append] at nodup pair
  exact pair_sublist_append (mem_append_left _ (mem_of_pair_sublist_append nodup pair))

/-- Standing before is asymmetric. -/
theorem not_pair_sublist_of_swap (nodup : ks.Nodup) (pair : [first, b].Sublist ks) :
    ¬ [b, first].Sublist ks := by
  intro swapped
  obtain ⟨before, after, rfl⟩ := append_of_mem (pair.subset (by simp : b ∈ _))
  have inBefore := mem_of_pair_sublist_append nodup pair
  obtain ⟨front, mid, rfl⟩ := append_of_mem inBefore
  rw [append_assoc, cons_append] at nodup swapped
  have inFront := mem_of_pair_sublist_append nodup swapped
  have repeated : b ∈ mid ++ b :: after := by simp
  rw [nodup_append] at nodup
  exact nodup.2.2 b inFront b (by simp) rfl

theorem mem_of_pair_sublist_append_right (nodup : (before ++ k :: after).Nodup)
    (pair : [k, b].Sublist (before ++ k :: after)) : b ∈ after := by
  have mem : b ∈ before ++ k :: after := pair.subset (by simp)
  rcases mem_append.mp mem with inBefore | later
  · exact absurd (pair_sublist_append inBefore) (not_pair_sublist_of_swap nodup pair)
  · rcases mem_cons.mp later with rfl | inAfter
    · exact absurd pair (pair_sublist_irrefl nodup)
    · exact inAfter

end Before

/-! ## Topological lists -/

/-- A list of keys, none twice, in which every dependency of a listed key stands strictly before
it. -/
structure IsTopological (dependencies : NodeKey → List NodeKey) (keys : List NodeKey) : Prop where
  nodup : keys.Nodup
  before : ∀ key ∈ keys, ∀ dependency ∈ dependencies key, [dependency, key].Sublist keys

namespace IsTopological

variable {dependencies : NodeKey → List NodeKey} {ks : List NodeKey}

theorem nil (dependencies : NodeKey → List NodeKey) : IsTopological dependencies [] where
  nodup := .nil
  before := by simp

variable {k : NodeKey}

/-- A key whose dependencies are all listed can be put at the end. -/
theorem snoc (topological : IsTopological dependencies ks) (fr : k ∉ ks) (closed : ∀ dep ∈
    dependencies k, dep ∈ ks) : IsTopological dependencies (ks ++ [k]) where
  nodup := by
    rw [nodup_append]
    refine ⟨topological.nodup, by simp, ?_⟩
    rintro o mem _ last rfl
    exact fr (mem_singleton.mp last ▸ mem)
  before o mem dep hr := by
    rcases mem_append.mp mem with mem | last
    · exact (topological.before o mem dep hr).trans (sublist_append_left ks [k])
    · obtain rfl := mem_singleton.mp last
      exact pair_sublist_append (closed dep hr)

/-- Everything in front of a key of a topological list is enough for its dependencies. -/
theorem dependency_mem_of_append {before after : List NodeKey} {dep : NodeKey} (topological :
    IsTopological dependencies (before ++ k :: after)) (hr : dep ∈ dependencies k) : dep ∈ before :=
  mem_of_pair_sublist_append topological.nodup (topological.before k (by simp) dep hr)

/-- **Induction along a topological list.** -/
theorem induction (topological : IsTopological dependencies ks) {property : NodeKey → Prop}
    (step : ∀ k ∈ ks, (∀ dep ∈ dependencies k, property dep) → property k) :
    ∀ k ∈ ks, property k := by
  -- The induction is on what stands in front of the key.
  have along : ∀ before after, ks = before ++ after → ∀ k ∈ before, property k := by
    intro before
    induction before using reverseRecOn with
    | nil => simp
    | append_singleton before last ih =>
      intro after split k mem
      have split' : ks = before ++ last :: after := by simpa using split
      have earlier := ih (last :: after) split'
      rcases mem_append.mp mem with mem | mem
      · exact earlier k mem
      · obtain rfl := mem_singleton.mp mem
        refine step k (by simp [split']) fun dep hr => earlier dep ?_
        exact dependency_mem_of_append (split' ▸ topological) hr
  exact along ks [] (by simp)

end IsTopological

/-! ## Edits of a processing order -/

namespace ProcessingOrder

variable {order : ProcessingOrder} {anchor k o : NodeKey}

theorem mem_erase : o ∈ (order.erase k).toList ↔ o ∈ order.toList ∧ o ≠ k := by
  simp [erase]

theorem erase_sublist : (order.erase k).toList.Sublist order.toList := filter_sublist

theorem erase_of_not_mem (absent : k ∉ order.toList) : order.erase k = order := by
  have e : order.toList.filter (· != k) = order.toList := filter_eq_self.mpr fun o mem => by
      simpa using fun equal : o = k => absent (equal ▸ mem)
  simp only [erase, e]

variable {first b : NodeKey} {before after : List NodeKey}

theorem pair_sublist_erase (pair : [first, b].Sublist order.toList) (firstKept : first ≠ k) (secondKept :
    b ≠ k) : [first, b].Sublist (order.erase k).toList := by
  have kept := pair.filter (· != k)
  simpa [erase, firstKept, secondKept] using kept

theorem insertIdx_length (before after : List NodeKey) (k : NodeKey) :
    (before ++ after).insertIdx before.length k = before ++ k :: after := by
  induction before with
  | nil => rfl
  | cons head tail ih => simp only [cons_append, length_cons, insertIdx_succ_cons, ih]

theorem position?_append (absent : anchor ∉ before) (split : order.toList = before ++ anchor :: after) :
    order.position? anchor = some before.length := by
  rw [position?, split, idxOf?_eq_some_iff]
  refine ⟨by simp, by simp, ?_⟩
  intro pos smaller e
  rw [getElem_append_left smaller] at e
  exact absent (e ▸ getElem_mem smaller)

/-- A listed key has a place among the others. -/
theorem exists_split (nodup : order.toList.Nodup) (mem : anchor ∈ order.toList) :
    ∃ before after, order.toList = before ++ anchor :: after ∧ anchor ∉ before ∧
      anchor ∉ after := by
  obtain ⟨before, after, split⟩ := append_of_mem mem
  have apart := nodup_cons.mp (nodup_middle.mp (split ▸ nodup))
  refine ⟨before, after, split, ?_, ?_⟩
  · exact fun repeated => apart.1 (mem_append_left _ repeated)
  · exact fun repeated => apart.1 (mem_append_right _ repeated)

/-- Positions follow the order. -/
theorem position?_lt (nodup : order.toList.Nodup) (pair : [first, b].Sublist order.toList) : ∃ earlier
    later, order.position? first = some earlier ∧ order.position? b = some later ∧ earlier < later := by
  have hl : b ∈ order.toList := pair.subset (by simp)
  obtain ⟨before, after, split, absent, -⟩ := exists_split nodup hl
  have mem : first ∈ before := mem_of_pair_sublist_append (split ▸ nodup) (split ▸ pair)
  obtain ⟨front, back, rfl⟩ := append_of_mem mem
  have whole : order.toList = front ++ first :: (back ++ b :: after) := by simp [split]
  have once : first ∉ front := fun earlier =>
    disjoint_of_nodup_append (whole ▸ nodup) earlier mem_cons_self
  refine ⟨_, _, position?_append once whole, position?_append absent split, ?_⟩
  simp

theorem insertAt_erase (split : (order.erase k).toList = before ++ after) : ((order.erase k).insertAt
    before.length k).toList = before ++ k :: after := by
  have absent : k ∉ (order.erase k).toList := by simp [mem_erase]
  simp only [insertAt, erase_of_not_mem absent, split, length_append]
  rw [Nat.min_eq_left (Nat.le_add_right _ _), insertIdx_length]

/-- A key that is put at the end is listed once. -/
theorem perm_push (absent : k ∉ order.toList) : (order.push k).toList.Perm (k :: order.toList) := by
  have unlisted : order.contains k = false := by simpa [contains] using absent
  rw [push, unlisted, if_neg Bool.false_ne_true]
  exact perm_append_singleton k order.toList

theorem perm_insertAt (order : ProcessingOrder) (pos : Nat) (k : NodeKey) :
    (order.insertAt pos k).toList.Perm (k :: (order.erase k).toList) :=
  perm_insertIdx k _ (Nat.min_le_right _ _)

theorem erase_erase (order : ProcessingOrder) (k : NodeKey) : (order.erase k).erase k = order.erase k :=
  erase_of_not_mem fun mem => (mem_erase.mp mem).2 rfl

/-- A key that is put before another one, which may be missing, is listed once. -/
theorem perm_insertBefore (order : ProcessingOrder) (anchor k : NodeKey) :
    (order.insertBefore anchor k).toList.Perm (k :: (order.erase k).toList) := by
  simp only [insertBefore]
  split
  · next pos _ =>
    have perm := perm_insertAt (order.erase k) pos k
    rwa [erase_erase] at perm
  · exact perm_push fun mem => (mem_erase.mp mem).2 rfl

/-- A key that is put after another one, which may be missing, is listed once. -/
theorem perm_insertAfter (order : ProcessingOrder) (anchor k : NodeKey) :
    (order.insertAfter anchor k).toList.Perm (k :: (order.erase k).toList) := by
  simp only [insertAfter]
  split
  · next pos _ =>
    have perm := perm_insertAt (order.erase k) (pos + 1) k
    rwa [erase_erase] at perm
  · exact perm_push fun mem => (mem_erase.mp mem).2 rfl

/-- An order in which a key is listed once, besides the others, repeats nothing. -/
theorem nodup_of_perm {q : List NodeKey} (nodup : order.toList.Nodup)
    (perm : q.Perm (k :: (order.erase k).toList)) : q.Nodup := by
  refine perm.nodup_iff.mpr (nodup_cons.mpr ⟨?_, nodup.sublist erase_sublist⟩)
  exact fun mem => (mem_erase.mp mem).2 rfl

theorem push_of_mem (hl : k ∈ order.toList) : order.push k = order := by
  rw [push, if_pos (by simpa [contains] using hl)]

theorem mem_push : o ∈ (order.push k).toList ↔ o = k ∨ o ∈ order.toList := by
  by_cases hl : k ∈ order.toList
  · rw [push_of_mem hl]
    refine (or_iff_right_of_imp ?_).symm
    rintro rfl
    exact hl
  · rw [(perm_push hl).mem_iff, mem_cons]

theorem nodup_push (nodup : order.toList.Nodup) (k : NodeKey) : (order.push k).toList.Nodup := by
  by_cases hl : k ∈ order.toList
  · rwa [push_of_mem hl]
  · exact (perm_push hl).nodup_iff.mpr (nodup_cons.mpr ⟨hl, nodup⟩)

/-- Keys that are put at the end one after the other are listed once. -/
theorem foldl_push (order : ProcessingOrder) (ks : List NodeKey) (nodup : order.toList.Nodup) :
    (ks.foldl push order).toList.Nodup ∧
      ∀ o, o ∈ (ks.foldl push order).toList ↔ o ∈ order.toList ∨ o ∈ ks := by
  induction ks generalizing order with
  | nil => simpa using nodup
  | cons head tail ih =>
    obtain ⟨nd, hl⟩ := ih _ (nodup_push nodup head)
    refine ⟨nd, fun o => ?_⟩
    rw [foldl_cons, hl, mem_push, mem_cons, or_assoc]
    exact or_left_comm

/-- A key that is put before a listed one stands directly before it. -/
theorem toList_insertBefore (nodup : order.toList.Nodup) (hl : anchor ∈ order.toList)
    (ne : anchor ≠ k) : ∃ before after, (order.erase k).toList = before ++ anchor :: after ∧
      (order.insertBefore anchor k).toList = before ++ k :: anchor :: after := by
  have nodup' : (order.erase k).toList.Nodup := nodup.sublist erase_sublist
  obtain ⟨before, after, split, absent, -⟩ := exists_split nodup' (mem_erase.mpr ⟨hl, ne⟩)
  refine ⟨before, after, split, ?_⟩
  simp only [insertBefore, position?_append absent split]
  exact insertAt_erase split

/-- A key that is put after a listed one stands directly after it. -/
theorem toList_insertAfter (nodup : order.toList.Nodup) (hl : anchor ∈ order.toList)
    (ne : anchor ≠ k) : ∃ before after, (order.erase k).toList = before ++ anchor :: after ∧
      (order.insertAfter anchor k).toList = before ++ anchor :: k :: after := by
  have nodup' : (order.erase k).toList.Nodup := nodup.sublist erase_sublist
  obtain ⟨before, after, split, absent, -⟩ := exists_split nodup' (mem_erase.mpr ⟨hl, ne⟩)
  refine ⟨before, after, split, ?_⟩
  have split' : (order.erase k).toList = (before ++ [anchor]) ++ after := by simpa using split
  have placed := insertAt_erase split'
  simp only [insertAfter, position?_append absent split]
  simpa using placed

/-- A key that replaces a listed one stands in its place. -/
theorem toList_replace {old new : NodeKey} (nodup : order.toList.Nodup)
    (hl : old ∈ order.toList) (ne : old ≠ new) :
    ∃ before after, (order.erase new).toList = before ++ old :: after ∧
      (order.replace old new).toList = before ++ new :: after := by
  obtain ⟨before, after, split, placed⟩ := toList_insertBefore nodup hl ne
  have apart := nodup_cons.mp (nodup_middle.mp (split ▸ nodup.sublist erase_sublist))
  have absent : old ∉ before ∧ old ∉ after := by simpa using apart.1
  have contains : order.contains old = true := by simpa [contains] using hl
  have keep : ∀ {ks : List NodeKey}, old ∉ ks → ks.filter (· != old) = ks := fun absent =>
    filter_eq_self.mpr fun o mem => by simpa using fun equal : o = old => absent (equal ▸ mem)
  refine ⟨before, after, split, ?_⟩
  simp only [replace, contains, if_true, erase, placed, filter_append, keep absent.1, filter_cons,
    keep absent.2]
  simp [ne.symm]

end ProcessingOrder

end LayerGraph
