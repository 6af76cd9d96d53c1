import LayerGraph.Proofs.Order.Sorting
import LayerGraph.Proofs.Order.Topological
import Mathlib.Data.List.Count

/-!
# The breadth-first order is topological

Keys take their turns in an order that says nothing about dependencies. What makes the result
topological is the bookkeeping of those that wait. While keys are told that a dependency of theirs
is listed, the number that is noted for a waiting key is the number of its entries in the waiting
list together with the number of times it is still to be told (`Balanced`). So a key whose number
has come down to one, and which is told now, waits for nothing else: all its dependencies are
listed.

Nobody waits for ever. A key that is not listed at the end waits for a dependency that is not
listed, and along a topological arrangement of the same keys there is no first such key
(`mem_listed_of_finished`).
-/

namespace LayerGraph.DependencyGraph

open List Prod

variable {graph : DependencyGraph} {ks : List NodeKey} {order : ProcessingOrder}

namespace Turn

variable {turn : Turn} {key other : NodeKey} {told rest : List NodeKey}

/-- A key has had its turn: it is listed, or it waits. -/
def Holds (turn : Turn) (key : NodeKey) : Prop :=
  key ∈ turn.listed ∨ key ∈ turn.missing.map fst

/-- The numbers of waiting keys agree with the waiting list, while the keys in `told` are still to
be told that a dependency of theirs is listed. -/
structure Balanced (graph : DependencyGraph) (turn : Turn) (told : List NodeKey) : Prop where
  topological : IsTopological graph.dependencies turn.listed
  apart : ∀ key ∈ turn.missing.map fst, key ∉ turn.listed
  nodup : (turn.missing.map fst).Nodup
  counts : ∀ entry ∈ turn.missing, entry.2 = turn.waiting.countP (·.2 == entry.1) + told.count entry.1
  positive : ∀ entry ∈ turn.missing, 0 < entry.2
  awaits : ∀ key ∈ turn.missing.map fst, ∀ dependency ∈ graph.dependencies key,
    dependency ∈ turn.listed ∨ (dependency, key) ∈ turn.waiting
  waits : ∀ entry ∈ turn.waiting, entry.1 ∈ graph.dependencies entry.2 ∧ entry.1 ∉ turn.listed
  waiters : ∀ entry ∈ turn.waiting, entry.2 ∈ turn.missing.map fst

theorem missing_countDown (turn : Turn) (key : NodeKey) :
    (turn.countDown key).missing.map fst = turn.missing.map fst := by
  simp only [countDown, List.map_map]
  refine map_congr_left fun entry _ => ?_
  by_cases e : entry.1 = key <;> simp [e]

/-- The entries of a waiting key are split between those that wait for `key` and the others. -/
theorem countP_waiting (turn : Turn) (key other : NodeKey) : turn.waiting.countP (·.2 == other) =
      (turn.list key).waiting.countP (·.2 == other) + (turn.waitingFor key).count other := by
  simp only [list, waitingFor]
  induction turn.waiting with
  | nil => rfl
  | cons head tail ih =>
    by_cases e : head.1 = key
    · simp only [e, filter_cons, bne_self_eq_false, Bool.false_eq_true, if_false,
        BEq.rfl, if_true, map_cons, countP_cons, count_cons, ih]
      omega
    · have differs : (head.1 != key) = true := by simpa using e
      have unequal : (head.1 == key) = false := by simpa using e
      simp only [filter_cons, differs, unequal, Bool.false_eq_true, if_false, if_true, countP_cons, ih]
      omega

namespace Balanced

/-- A key that waits for nothing is listed, and those that wait for it are to be told. -/
theorem list (balanced : Balanced graph turn told) (fr : ¬ turn.Holds key)
    (ready : ∀ dep ∈ graph.dependencies key, dep ∈ turn.listed) :
    Balanced graph (turn.list key) (turn.waitingFor key ++ told) where
  topological := balanced.topological.snoc (fun kn => fr (.inl kn)) ready
  apart other mem := by
    simp only [Turn.list, mem_append, mem_singleton, not_or]
    exact ⟨balanced.apart other mem, fun e => fr (.inr (e ▸ mem))⟩
  nodup := balanced.nodup
  counts entry mem := by
    have pre := balanced.counts entry mem
    have moved := turn.countP_waiting key entry.1
    rw [count_append]
    omega
  positive := balanced.positive
  awaits other mem dep hr := by
    rcases balanced.awaits other mem dep hr with kn | waiting
    · exact .inl (mem_append_left _ kn)
    · by_cases e : dep = key
      · exact .inl (mem_append_right _ (mem_singleton.mpr e))
      · exact .inr (mem_filter.mpr ⟨waiting, by simpa using e⟩)
  waits entry mem := by
    obtain ⟨inWaiting, differs⟩ := mem_filter.mp mem
    obtain ⟨hr, unlisted⟩ := balanced.waits entry inWaiting
    refine ⟨hr, ?_⟩
    simp only [Turn.list, mem_append, mem_singleton, not_or]
    exact ⟨unlisted, by simpa using differs⟩
  waiters entry mem := balanced.waiters entry (mem_filter.mp mem).1

section

variable (balanced : Balanced graph turn (key :: rest))

include balanced

/-- A key that does not wait is told for nothing. -/
theorem skip (ha : List.lookup key turn.missing = none) : Balanced graph turn rest := by
  refine { balanced with counts := fun entry mem => ?_ }
  have total := balanced.counts entry mem
  have differs : key ≠ entry.1 := fun e =>
    not_mem_of_lookup ha (e ▸ List.mem_map_of_mem mem)
  rw [count_cons_of_ne differs] at total
  exact total

variable {count : Nat} (hf : List.lookup key turn.missing = some count)

include hf

/-- A key that is told and whose number is one has no entry in the waiting list. -/
theorem ne_of_last (last : count ≤ 1) : ∀ entry ∈ turn.waiting, entry.2 ≠ key := by
  have total : count = turn.waiting.countP (·.2 == key) + (key :: rest).count key :=
    balanced.counts _ (mem_of_lookup hf)
  rw [count_cons_self] at total
  have none : turn.waiting.countP (·.2 == key) = 0 := by omega
  intro entry waiting
  simpa using countP_eq_zero.mp none entry waiting

/-- So all its dependencies are listed. -/
theorem ready_of_last (last : count ≤ 1) : ∀ dep ∈ graph.dependencies key, dep ∈ turn.listed := by
  intro dep hr
  have mem : key ∈ turn.missing.map fst := List.mem_map_of_mem (mem_of_lookup hf)
  rcases balanced.awaits key mem dep hr with kn | waiting
  · exact kn
  · exact absurd rfl (balanced.ne_of_last hf last _ waiting)

/-- A key that waits for nothing else is forgotten. -/
theorem forget (last : count ≤ 1) : Balanced graph (turn.forget key) rest where
  topological := balanced.topological
  apart other mem := by
    obtain ⟨entry, kept, rfl⟩ := List.mem_map.mp mem
    exact balanced.apart _ (List.mem_map_of_mem (mem_filter.mp kept).1)
  nodup := balanced.nodup.sublist (filter_sublist.map _)
  counts entry mem := by
    obtain ⟨inMissing, differs⟩ := mem_filter.mp mem
    have total := balanced.counts entry inMissing
    have differs : key ≠ entry.1 := fun e => by simp [e] at differs
    rw [count_cons_of_ne differs] at total
    exact total
  positive entry mem := balanced.positive entry (mem_filter.mp mem).1
  awaits other mem := by
    obtain ⟨entry, kept, rfl⟩ := List.mem_map.mp mem
    exact balanced.awaits _ (List.mem_map_of_mem (mem_filter.mp kept).1)
  waits := balanced.waits
  waiters entry mem := by
    have differs := balanced.ne_of_last hf last entry mem
    obtain ⟨held, inHeld, e⟩ := List.mem_map.mp (balanced.waiters entry mem)
    refine List.mem_map.mpr ⟨held, mem_filter.mpr ⟨inHeld, ?_⟩, e⟩
    simpa [e] using differs

/-- A key that waits for more is told once. -/
theorem countDown (more : ¬ count ≤ 1) : Balanced graph (turn.countDown key) rest := by
  have ks := missing_countDown turn key
  have inside := mem_of_lookup hf
  -- The key has one entry only, so the number that is counted down is `count`.
  have only : ∀ entry ∈ turn.missing, entry.1 = key → entry.2 = count := by
    intro entry mem e
    have equal := inj_on_of_nodup_map balanced.nodup mem inside e
    exact congrArg snd equal
  refine ⟨balanced.topological, ?_, ?_, ?_, ?_, ?_, balanced.waits, ?_⟩
  · intro other mem
    exact balanced.apart other (ks ▸ mem)
  · exact ks ▸ balanced.nodup
  · intro entry mem
    obtain ⟨pre, inMissing, rfl⟩ := List.mem_map.mp mem
    have total := balanced.counts pre inMissing
    by_cases e : pre.1 = key
    · rw [e, count_cons_self] at total
      simp only [e, BEq.rfl, if_true, Turn.countDown]
      omega
    · rw [count_cons_of_ne (Ne.symm e)] at total
      simpa [e, Turn.countDown] using total
  · intro entry mem
    obtain ⟨pre, inMissing, rfl⟩ := List.mem_map.mp mem
    by_cases e : pre.1 = key
    · have equal := only pre inMissing e
      simp only [e, BEq.rfl, if_true]
      omega
    · simpa [e] using balanced.positive pre inMissing
  · intro other mem
    exact balanced.awaits other (ks ▸ mem)
  · intro entry mem
    rw [ks]
    exact balanced.waiters entry mem

end

end Balanced

theorem holds_forget (turn : Turn) (key other : NodeKey) : (turn.forget key).Holds other ↔
      other ∈ turn.listed ∨ other ≠ key ∧ other ∈ turn.missing.map fst := by
  simp only [Holds, forget, List.mem_map, mem_filter]
  refine or_congr .rfl ⟨?_, ?_⟩
  · rintro ⟨entry, ⟨mem, differs⟩, rfl⟩
    exact ⟨by simpa using differs, entry, mem, rfl⟩
  · rintro ⟨differs, entry, mem, rfl⟩
    exact ⟨entry, ⟨mem, by simpa using differs⟩, rfl⟩

theorem holds_list (turn : Turn) (key other : NodeKey) :
    (turn.list key).Holds other ↔ other = key ∨ turn.Holds other := by
  simp only [Holds, list, mem_append, mem_singleton]
  tauto

theorem holds_countDown (turn : Turn) (key other : NodeKey) :
    (turn.countDown key).Holds other ↔ turn.Holds other := by
  simp only [Holds, missing_countDown]
  rfl

/-- Telling keys keeps the balance, until nobody is left to be told. -/
theorem release_balanced (balanced : Balanced graph turn told) :
    Balanced graph (turn.release told) [] := by
  fun_induction release turn told with
  | case1 turn => exact balanced
  | case2 turn key rest ha ih => exact ih (balanced.skip ha)
  | case3 turn key rest count hf last ih =>
    refine ih ((balanced.forget hf last).list ?_ (balanced.ready_of_last hf last))
    rw [holds_forget]
    rintro (kn | ⟨differs, -⟩)
    · exact balanced.apart key (List.mem_map_of_mem (mem_of_lookup hf)) kn
    · exact differs rfl
  | case4 turn key rest count hf more ih => exact ih (balanced.countDown hf more)

/-- Telling keys moves them from those that wait to those that are listed. -/
theorem holds_release (turn : Turn) (told : List NodeKey) (other : NodeKey) :
    (turn.release told).Holds other ↔ turn.Holds other := by
  fun_induction release turn told with
  | case1 turn => rfl
  | case2 turn key rest ha ih => exact ih
  | case3 turn key rest count hf last ih =>
    rw [ih, holds_list, holds_forget, Holds]
    have mem : key ∈ turn.missing.map fst := List.mem_map_of_mem (mem_of_lookup hf)
    by_cases e : other = key
    · subst e
      simp only [true_or, true_iff]
      exact .inr mem
    · simp only [e, false_or, ne_eq, not_false_eq_true, true_and]
  | case4 turn key rest count hf more ih => rw [ih, holds_countDown]

theorem take_balanced (balanced : Balanced graph turn []) (fr : ¬ turn.Holds key) :
    Balanced graph (take graph turn key) [] := by
  simp only [take]
  split
  · next empty =>
    have ready : ∀ dep ∈ graph.dependencies key, dep ∈ turn.listed := by
      intro dep hr
      have none := filter_eq_nil_iff.mp (List.isEmpty_iff.mp empty) dep (mem_eraseDups.mpr hr)
      simpa using none
    have balanced := balanced.list fr ready
    rw [append_nil] at balanced
    exact release_balanced balanced
  · next some =>
    have unseen : turn.waiting.countP (·.2 == key) = 0 := countP_eq_zero.mpr fun entry mem e =>
        fr (.inr (beq_iff_eq.mp e ▸ balanced.waiters entry mem))
    have apart : ∀ entry ∈ turn.missing, entry.1 ≠ key := fun entry mem e =>
      fr (.inr (e ▸ List.mem_map_of_mem mem))
    refine ⟨balanced.topological, ?_, ?_, ?_, ?_, ?_, ?_, ?_⟩
    · intro other mem
      rcases mem_cons.mp mem with rfl | mem
      · exact fun kn => fr (.inl kn)
      · exact balanced.apart other mem
    · exact nodup_cons.mpr ⟨fun mem => fr (.inr mem), balanced.nodup⟩
    · intro entry mem
      rw [countP_append, countP_map]
      rcases mem_cons.mp mem with rfl | mem
      · simp [unseen, Function.comp_def]
      · have total := balanced.counts entry mem
        have differs : ∀ dep : NodeKey, ¬ (key == entry.1) = true := fun _ e =>
          apart entry mem (beq_iff_eq.mp e).symm
        have none : (countP ((fun pair : NodeKey × NodeKey => pair.2 == entry.1) ∘
            fun dep => (dep, key)) ((graph.dependencies key).eraseDups.filter (· ∉ turn.listed))) = 0 :=
          countP_eq_zero.mpr fun dep _ => differs dep
        omega
    · intro entry mem
      rcases mem_cons.mp mem with rfl | mem
      · exact length_pos_iff.mpr (by simpa using some)
      · exact balanced.positive entry mem
    · intro other mem dep hr
      rcases mem_cons.mp mem with rfl | mem
      · by_cases kn : dep ∈ turn.listed
        · exact .inl kn
        · refine .inr (mem_append_right _ (List.mem_map.mpr ⟨dep, ?_, rfl⟩))
          exact mem_filter.mpr ⟨mem_eraseDups.mpr hr, by simpa using kn⟩
      · exact (balanced.awaits other mem dep hr).imp_right (mem_append_left _)
    · intro entry mem
      rcases mem_append.mp mem with mem | mem
      · exact balanced.waits entry mem
      · obtain ⟨dep, ha, rfl⟩ := List.mem_map.mp mem
        obtain ⟨hr, unlisted⟩ := mem_filter.mp ha
        exact ⟨mem_eraseDups.mp hr, by simpa using unlisted⟩
    · intro entry mem
      rcases mem_append.mp mem with mem | mem
      · exact mem_cons_of_mem _ (balanced.waiters entry mem)
      · obtain ⟨dep, -, rfl⟩ := List.mem_map.mp mem
        exact mem_cons_self

theorem holds_take (graph : DependencyGraph) (turn : Turn) (key other : NodeKey) :
    (take graph turn key).Holds other ↔ other = key ∨ turn.Holds other := by
  simp only [take]
  split
  · rw [holds_release, holds_list]
  · simp only [Holds, map_cons, mem_cons]
    tauto

/-- All turns keep the balance, and whoever has had a turn is listed or waits. -/
theorem foldl_take_balanced (nodup : ks.Nodup)
    (balanced : Balanced graph turn []) (fr : ∀ key ∈ ks, ¬ turn.Holds key) :
    Balanced graph (ks.foldl (take graph) turn) [] ∧
      ∀ key, (ks.foldl (take graph) turn).Holds key ↔ key ∈ ks ∨ turn.Holds key := by
  induction ks generalizing turn with
  | nil => simpa using balanced
  | cons head tail ih =>
    obtain ⟨apart, nodup⟩ := nodup_cons.mp nodup
    have step := take_balanced balanced (fr head mem_cons_self)
    have later : ∀ key ∈ tail, ¬ (take graph turn head).Holds key := by
      intro key mem
      rw [holds_take, not_or]
      exact ⟨fun e => apart (e ▸ mem), fr key (mem_cons_of_mem _ mem)⟩
    obtain ⟨final, holds⟩ := ih nodup step later
    refine ⟨final, fun key => ?_⟩
    rw [foldl_cons, holds, holds_take, mem_cons]
    tauto

/-- **Nobody waits for ever.** When all keys of a topological list have had their turn and nobody
is left to be told, all of them are listed. -/
theorem mem_listed_of_finished {arranged : List NodeKey}
    (acyclic : IsTopological graph.dependencies arranged) (balanced : Balanced graph turn [])
    (holds : ∀ key ∈ arranged, turn.Holds key) : ∀ key ∈ arranged, key ∈ turn.listed := by
  refine acyclic.induction fun key mem hl => ?_
  rcases holds key mem with kn | waiting
  · exact kn
  · obtain ⟨entry, inMissing, rfl⟩ := List.mem_map.mp waiting
    have total := balanced.counts entry inMissing
    have positive := balanced.positive entry inMissing
    rw [count_nil, Nat.add_zero] at total
    obtain ⟨waits, inWaiting, e⟩ := countP_pos_iff.mp (total ▸ positive)
    obtain ⟨hr, unlisted⟩ := balanced.waits waits inWaiting
    rw [beq_iff_eq.mp e] at hr
    exact absurd (hl waits.1 hr) unlisted

end Turn

/-- All keys have had their turn, and the balance is kept. -/
theorem turns_balanced (graph : DependencyGraph) (nodup : ks.Nodup) :
    Turn.Balanced graph ((graph.turns ks).foldl (Turn.take graph) ⟨[], [], []⟩) [] ∧
      ∀ key, ((graph.turns ks).foldl (Turn.take graph) ⟨[], [], []⟩).Holds key ↔ key ∈ ks := by
  have turns : (graph.turns ks).Perm ks := perm_sortByRank _ _
  have start : Turn.Balanced graph ⟨[], [], []⟩ [] :=
    ⟨.nil _, by simp, by simp, by simp, by simp, by simp, by simp, by simp⟩
  obtain ⟨balanced, holds⟩ := Turn.foldl_take_balanced (turns.nodup_iff.mpr nodup) start
    (by simp [Turn.Holds])
  refine ⟨balanced, fun key => (holds key).trans ?_⟩
  simp [Turn.Holds, turns.mem_iff]

theorem foldl_push_of_subset (subset : ks ⊆ order.toList) :
    ks.foldl ProcessingOrder.push order = order := by
  induction ks with
  | nil => rfl
  | cons head tail ih =>
    obtain ⟨kn, rest⟩ := cons_subset.mp subset
    have contains : order.contains head = true := by simpa [ProcessingOrder.contains] using kn
    rw [foldl_cons, ProcessingOrder.push, contains, if_pos rfl]
    exact ih rest

section

variable (given : ks = if order.isEmpty then graph.keys else order.toList) (nodup : ks.Nodup)

include given nodup

/-- The breadth-first order lists the same keys, each once, even when there are cycles. -/
theorem breadthFirst_nodup : (graph.breadthFirst order).toList.Nodup ∧
      ∀ key, key ∈ (graph.breadthFirst order).toList ↔ key ∈ ks := by
  obtain ⟨balanced, holds⟩ := turns_balanced graph nodup
  obtain ⟨nd, hl⟩ := ProcessingOrder.foldl_push ⟨((graph.turns ks).foldl (Turn.take graph) ⟨[], [],
    []⟩).listed⟩ ks balanced.topological.nodup
  rw [breadthFirst, ← given]
  refine ⟨nd, fun key => (hl key).trans (or_iff_right_of_imp fun mem => ?_)⟩
  exact (holds key).mp (.inl mem)

variable {arranged : List NodeKey}

/-- In a breadth-first order of acyclic keys, nobody is listed for having waited for ever. -/
theorem breadthFirst_eq (acyclic : IsTopological graph.dependencies arranged) (e : ∀ key, key ∈ arranged
    ↔ key ∈ ks) : graph.breadthFirst order = ⟨((graph.turns ks).foldl (Turn.take graph) ⟨[], [],
    []⟩).listed⟩ := by
  obtain ⟨balanced, holds⟩ := turns_balanced graph nodup
  have hl := Turn.mem_listed_of_finished acyclic balanced fun key mem =>
    (holds key).mpr ((e key).mp mem)
  rw [breadthFirst, ← given]
  exact foldl_push_of_subset fun key mem => hl key ((e key).mpr mem)

/-- **The breadth-first order of acyclic keys is topological and lists the same keys.** -/
theorem breadthFirst_isTopological (acyclic : IsTopological graph.dependencies arranged) (e : ∀ key, key
    ∈ arranged ↔ key ∈ ks) : IsTopological graph.dependencies (graph.breadthFirst order).toList ∧ ∀
    key, key ∈ (graph.breadthFirst order).toList ↔ key ∈ ks := by
  refine ⟨?_, (breadthFirst_nodup given nodup).2⟩
  rw [breadthFirst_eq given nodup acyclic e]
  exact (turns_balanced graph nodup).1.topological

end

end LayerGraph.DependencyGraph
