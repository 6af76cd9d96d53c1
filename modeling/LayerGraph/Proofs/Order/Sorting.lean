import LayerGraph.Program.Basic
import Mathlib.Data.List.Basic
import Mathlib.Data.List.Nodup
import Mathlib.Data.List.Pairwise
import Mathlib.Order.Nat

/-!
# Sorting by rank

Two sorts stand behind the views of a program: dependencies are incoming edges sorted by slot, and
readers are the ascending list of the targets of outgoing edges.

Sorting by rank only permutes, and its result ascends in rank. When no rank occurs twice, a list
has only one arrangement that ascends, so any ascending arrangement of the elements is the sorted
list (`sortByRank_eq_of_perm`). This is how the dependencies of a node are computed after an edit:
one exhibits them in order.
-/

namespace LayerGraph

open List Option

section Rank

variable {α : Type} (rank : α → Nat)

theorem perm_insertByRank (x : α) (xs : List α) : (insertByRank rank x xs).Perm (x :: xs) := by
  induction xs with
  | nil => exact .refl _
  | cons head tail ih =>
    rw [insertByRank]
    split
    · exact .refl _
    · exact (ih.cons head).trans (.swap x head tail)

/-- Sorting by rank neither adds nor loses an element. -/
theorem perm_sortByRank (xs : List α) : (sortByRank rank xs).Perm xs := by
  induction xs with
  | nil => exact .refl _
  | cons head tail ih =>
    exact (perm_insertByRank rank head (sortByRank rank tail)).trans (ih.cons head)

theorem pairwise_insertByRank (x : α) {xs : List α} {related : α → α → Prop}
    (ascends : xs.Pairwise fun a b => rank a < rank b ∨ rank a = rank b ∧ related a b)
    (pre : ∀ o ∈ xs, related x o) : (insertByRank rank x xs).Pairwise fun a b =>
      rank a < rank b ∨ rank a = rank b ∧ related a b := by
  induction ascends with
  | nil => simp [insertByRank]
  | @cons head tail least ascends ih =>
    rw [insertByRank]
    split
    · next smaller =>
      refine .cons (fun o mem => ?_) (.cons least ascends)
      have le : rank x ≤ rank o := by
        rcases mem_cons.mp mem with rfl | mem
        · exact smaller
        · rcases least o mem with less | ⟨equal, -⟩ <;> omega
      exact (lt_or_eq_of_le le).imp_right fun equal => ⟨equal, pre o mem⟩
    · next larger =>
      refine .cons ?_ (ih fun o mem => pre o (mem_cons_of_mem _ mem))
      intro o mem
      rcases mem_cons.mp ((perm_insertByRank rank x tail).mem_iff.mp mem) with
        rfl | mem
      · exact .inl (Nat.lt_of_not_le larger)
      · exact least o mem

/-- Sorting is stable: the sorted list ascends in rank, and elements of equal rank are related as they
were. -/
theorem pairwise_sortByRank_of_pairwise {xs : List α} {related : α → α → Prop}
    (h : xs.Pairwise related) : (sortByRank rank xs).Pairwise fun a b =>
      rank a < rank b ∨ rank a = rank b ∧ related a b := by
  induction h with
  | nil => exact .nil
  | cons pre _ ih =>
    refine pairwise_insertByRank rank _ ih fun o mem => ?_
    exact pre o ((perm_sortByRank rank _).mem_iff.mp mem)

/-- The sorted list ascends in rank. -/
theorem pairwise_sortByRank (xs : List α) :
    (sortByRank rank xs).Pairwise fun a b => rank a ≤ rank b := by
  have h : xs.Pairwise fun _ _ => True := pairwise_of_forall fun _ _ => trivial
  refine (pairwise_sortByRank_of_pairwise rank h).imp fun related => ?_
  rcases related with less | ⟨equal, -⟩ <;> omega

/-- **When no rank occurs twice, the sorted list is any arrangement that ascends.** -/
theorem sortByRank_eq_of_perm {xs arranged : List α} (perm : xs.Perm arranged)
    (ascends : arranged.Pairwise fun a b => rank a < rank b) : sortByRank rank xs = arranged := by
  have e : (sortByRank rank xs).Perm arranged := (perm_sortByRank rank xs).trans perm
  have nd : (arranged.map rank).Nodup :=
    pairwise_map.mpr (ascends.imp fun smaller => Nat.ne_of_lt smaller)
  have injective := inj_on_of_nodup_map nd
  refine e.eq_of_pairwise ?_ (pairwise_sortByRank rank xs) (ascends.imp fun smaller => smaller.le)
  intro a b inSorted inArranged le ge
  exact injective (e.mem_iff.mp inSorted) inArranged (le.antisymm ge)

/-- With distinct ranks, the sorted list ascends strictly. -/
theorem pairwise_lt_sortByRank {xs : List α} (nd : (xs.map rank).Nodup) :
    (sortByRank rank xs).Pairwise fun a b => rank a < rank b := by
  have distinct' : ((sortByRank rank xs).map rank).Nodup :=
    ((perm_sortByRank rank xs).map rank).nodup_iff.mpr nd
  refine ((pairwise_sortByRank rank xs).and (pairwise_map.mp distinct')).imp ?_
  rintro a b ⟨le, ne⟩
  exact lt_of_le_of_ne le ne

end Rank

section Entries

variable {α β : Type} [DecidableEq α] {entries : List (α × β)} {k : α} {v : β}

theorem mem_of_lookup (hf : List.lookup k entries = some v) : (k, v) ∈ entries := by
  obtain ⟨pre, after, split, -⟩ := List.lookup_eq_some_iff.mp hf
  simp [split]

theorem not_mem_of_lookup (ha : List.lookup k entries = none) : k ∉ entries.map Prod.fst := by
  intro mem
  obtain ⟨entry, inEntries, e⟩ := List.mem_map.mp mem
  have differs := lookup_eq_none_iff.mp ha entry inEntries
  simp [e] at differs

/-- When no key has two entries, an entry is what its key leads to. -/
theorem lookup_eq_some_iff (nd : (entries.map Prod.fst).Nodup) :
    List.lookup k entries = some v ↔ (k, v) ∈ entries := by
  induction entries with
  | nil => simp
  | cons entry rest ih =>
    rw [map_cons, nodup_cons] at nd
    rw [lookup_cons, mem_cons]
    by_cases e : k = entry.1
    · subst e
      have ha : (entry.1, v) ∉ rest := fun mem =>
        nd.1 (List.mem_map.mpr ⟨_, mem, rfl⟩)
      simp only [BEq.rfl, ha, or_false, some.injEq]
      exact ⟨fun equal => Prod.ext rfl equal.symm, fun equal => congrArg Prod.snd equal.symm⟩
    · have differs : (k == entry.1) = false := by simpa using e
      have notHead : (k, v) ≠ entry := fun equal => e (congrArg Prod.fst equal)
      simp only [differs, notHead, false_or, ih nd.2]

end Entries

/-! ## Ascending lists of numbers -/

variable {num : Nat} {numbers : List Nat}

theorem mem_insertAscending {o : Nat} : o ∈ insertAscending num numbers ↔ o = num ∨ o ∈ numbers :=
    by
  induction numbers with
  | nil => simp [insertAscending]
  | cons head tail ih =>
    rw [insertAscending]
    split
    · simp
    · split
      · next e =>
        subst e
        simp
      · simp only [mem_cons, ih]
        tauto

theorem mem_ascending : num ∈ ascending numbers ↔ num ∈ numbers := by
  induction numbers with
  | nil => simp [ascending]
  | cons head tail ih => simp only [ascending, mem_insertAscending, ih, mem_cons]

theorem pairwise_insertAscending (num : Nat) (ascends : numbers.Pairwise (· < ·)) :
    (insertAscending num numbers).Pairwise (· < ·) := by
  induction ascends with
  | nil => simp [insertAscending]
  | @cons head tail least ascends ih =>
    rw [insertAscending]
    split
    · next smaller =>
      refine .cons ?_ (.cons least ascends)
      intro o mem
      rcases mem_cons.mp mem with rfl | mem
      · exact smaller
      · exact smaller.trans (least o mem)
    · split
      · exact .cons least ascends
      · next notSmaller ne =>
        refine .cons ?_ ih
        intro o mem
        rcases mem_insertAscending.mp mem with rfl | mem
        · omega
        · exact least o mem

theorem nodup_ascending (numbers : List Nat) : (ascending numbers).Nodup := by
  have ascends : (ascending numbers).Pairwise (· < ·) := by
    induction numbers with
    | nil => exact .nil
    | cons head tail ih => exact pairwise_insertAscending head ih
  exact ascends.imp fun smaller => Nat.ne_of_lt smaller

namespace Program

variable {p : Program} {k o : NodeKey}

/-! ## Who reads whom -/

theorem mem_incoming {edge : Edge} : edge ∈ p.incoming k ↔ edge ∈ p.edges ∧ edge.target = k := by
  simp [incoming]

theorem mem_dependencies : o ∈ p.dependencies k ↔
      ∃ edge ∈ p.edges, edge.source = o ∧ edge.target = k := by
  simp only [dependencies, List.mem_map, (perm_sortByRank _ _).mem_iff, mem_incoming]
  exact exists_congr fun edge => and_right_comm.trans and_assoc

theorem mem_users : o ∈ p.users k ↔ ∃ edge ∈ p.edges, edge.source = k ∧ edge.target = o := by
  simp only [users, mem_ascending, outgoing, List.mem_map, mem_filter, beq_iff_eq, and_assoc]

/-- The readers of a node are the nodes that depend on it. -/
theorem mem_users_iff : o ∈ p.users k ↔ k ∈ p.dependencies o := by
  rw [mem_users, mem_dependencies]

/-- A node that is read by one node only. -/
theorem users_eq_singleton (hr : o ∈ p.dependencies k) :
    p.users o = [k] ↔ ∀ user, o ∈ p.dependencies user → user = k := by
  have nd : (p.users o).Nodup := nodup_ascending _
  rw [← perm_singleton, perm_ext_iff_of_nodup nd (nodup_singleton k)]
  simp only [mem_users_iff, mem_singleton]
  exact ⟨fun same user => (same user).mp, fun only user => ⟨only user, fun e => e ▸ hr⟩⟩

theorem length_dependencies (p : Program) (k : NodeKey) :
    (p.dependencies k).length = p.dependencyCount k := by
  simp only [dependencies, dependencyCount, length_map, (perm_sortByRank _ _).length_eq]

theorem hasEdge_iff : p.hasEdge k o ↔ k ∈ p.dependencies o := by
  simp only [hasEdge, List.any_eq_true, Bool.and_eq_true, beq_iff_eq, mem_dependencies]

end Program

end LayerGraph
