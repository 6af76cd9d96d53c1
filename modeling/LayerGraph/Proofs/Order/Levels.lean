import LayerGraph.Proofs.Order.BreadthFirst
import LayerGraph.Proofs.Order.DepthFirst
import Mathlib.Order.Lattice.Nat

/-!
# Levels are distances

Keys take their turns by level. The level of a key is its distance from the nearest key without
dependencies, counted in hops (`hopDistance`).

Levels spread from the keys without dependencies in waves. The waves of the queue ascend, the last of
them is at most one level above the first, and no key has a level above the first wave (`Spreading`).
So a key that comes up for the second time has a level that is small enough already. What every user
of a key gets in the end is at most one level above it, and so the levels are at most the distances.
They are not smaller, since a key gets a level only along hops.
-/

namespace LayerGraph

open List

/-- A key is a number of hops away from a key without dependencies. -/
inductive Hops (dependencies : NodeKey → List NodeKey) : Nat → NodeKey → Prop
  | source {key : NodeKey} (none : dependencies key = []) : Hops dependencies 0 key
  | step {count : Nat} {dependency key : NodeKey} (hops : Hops dependencies count dependency)
      (reads : dependency ∈ dependencies key) : Hops dependencies (count + 1) key

/-- The smallest number of hops from a key without dependencies. -/
noncomputable def hopDistance (dependencies : NodeKey → List NodeKey) (key : NodeKey) : Nat :=
  sInf {count | Hops dependencies count key}

/-- In a topological list every key is some hops away. -/
theorem IsTopological.exists_hops {dependencies : NodeKey → List NodeKey} {ks : List NodeKey}
    (topological : IsTopological dependencies ks) :
    ∀ k ∈ ks, ∃ count, Hops dependencies count k := by
  refine topological.induction fun k _ hops => ?_
  cases hr : dependencies k with
  | nil => exact ⟨0, .source hr⟩
  | cons dep rest =>
    have mem : dep ∈ dependencies k := hr ▸ mem_cons_self
    obtain ⟨count, away⟩ := hops dep mem
    exact ⟨count + 1, away.step mem⟩

namespace DependencyGraph

variable {graph : DependencyGraph} {ks : List NodeKey} {k : NodeKey}

/-- A key is a number of hops along users away from a key without dependencies among those given. -/
inductive Away (graph : DependencyGraph) (keys : List NodeKey) : Nat → NodeKey → Prop
  | source {key : NodeKey} (mem : key ∈ keys) (none : graph.dependencies key = []) :
      Away graph keys 0 key
  | step {count : Nat} {dependency key : NodeKey} (away : Away graph keys count dependency)
      (uses : key ∈ graph.users dependency) (listed : key ∈ graph.keys) :
      Away graph keys (count + 1) key

/-- The invariant of the spreading of levels. -/
structure Spreading (graph : DependencyGraph) (keys : List NodeKey) (queue : List Wave)
    (reached : List NodeKey) (levels : List (NodeKey × Nat)) : Prop where
  mem_reached : ∀ key, key ∈ reached ↔ key ∈ levels.map Prod.fst
  single : ∀ entry ∈ levels, levelOf? levels entry.1 = some entry.2
  away : ∀ entry ∈ levels, Away graph keys entry.2 entry.1
  pending : ∀ wave ∈ queue, ∀ key ∈ wave.pending, key ∈ graph.keys → Away graph keys wave.level key
  ascends : queue.Pairwise fun earlier later =>
    earlier.level ≤ later.level ∧ later.level ≤ earlier.level + 1
  below : ∀ entry ∈ levels, ∀ wave ∈ queue, entry.2 ≤ wave.level
  /-- There are more entries than levels. -/
  short : (∀ entry ∈ levels, entry.2 < levels.length) ∧ ∀ wave ∈ queue, wave.level ≤ levels.length
  /-- The users of a key with a level have a level or are about to get one. -/
  spreads : ∀ entry ∈ levels, ∀ user ∈ graph.users entry.1, user ∈ graph.keys →
    (∃ level ≤ entry.2 + 1, (user, level) ∈ levels) ∨
      ∃ wave ∈ queue, wave.level ≤ entry.2 + 1 ∧ user ∈ wave.pending

namespace Spreading

variable {level : Nat} {pending reached : List NodeKey} {rest queue : List Wave}
  {levels : List (NodeKey × Nat)}

/-- A wave that has run out is dropped. -/
theorem drop (spreading : Spreading graph ks (⟨level, []⟩ :: rest) reached levels) :
    Spreading graph ks rest reached levels where
  mem_reached := spreading.mem_reached
  single := spreading.single
  away := spreading.away
  pending wave mem := spreading.pending wave (mem_cons_of_mem _ mem)
  ascends := (pairwise_cons.mp spreading.ascends).2
  below entry kn wave mem := spreading.below entry kn wave (mem_cons_of_mem _ mem)
  short := spreading.short.imp_right fun small wave mem => small wave (mem_cons_of_mem _ mem)
  spreads entry kn user uses hl := by
    refine (spreading.spreads entry kn user uses hl).imp_right ?_
    rintro ⟨wave, mem, small, waits⟩
    rcases mem_cons.mp mem with rfl | mem
    · exact absurd waits not_mem_nil
    · exact ⟨wave, mem, small, waits⟩

/-- A key that has a level already, or is not listed, is passed over. -/
theorem skip (spreading : Spreading graph ks (⟨level, k :: pending⟩ :: rest) reached levels)
    (seen : k ∈ reached ∨ k ∉ graph.keys) :
    Spreading graph ks (⟨level, pending⟩ :: rest) reached levels where
  mem_reached := spreading.mem_reached
  single := spreading.single
  away := spreading.away
  pending wave mem o waits := by
    rcases mem_cons.mp mem with rfl | mem
    · exact spreading.pending _ mem_cons_self o (mem_cons_of_mem _ waits)
    · exact spreading.pending wave (mem_cons_of_mem _ mem) o waits
  ascends := pairwise_cons.mpr (pairwise_cons.mp spreading.ascends)
  below entry kn wave mem := by
    rcases mem_cons.mp mem with rfl | mem
    · exact spreading.below entry kn ⟨level, k :: pending⟩ mem_cons_self
    · exact spreading.below entry kn wave (mem_cons_of_mem _ mem)
  short := by
    refine spreading.short.imp_right fun small wave mem => ?_
    rcases mem_cons.mp mem with rfl | mem
    · exact small ⟨level, k :: pending⟩ mem_cons_self
    · exact small wave (mem_cons_of_mem _ mem)
  spreads entry kn user uses hl := by
    rcases spreading.spreads entry kn user uses hl with h | ⟨wave, mem, small, waits⟩
    · exact .inl h
    · rcases mem_cons.mp mem with rfl | mem
      · rcases mem_cons.mp waits with rfl | waits
        · -- The level that it has is not above the level of the wave.
          have level := (spreading.mem_reached _).mp (seen.resolve_right (absurd hl))
          obtain ⟨⟨_, low⟩, has, rfl⟩ := List.mem_map.mp level
          exact .inl ⟨low, (spreading.below _ has _ mem_cons_self).trans small, has⟩
        · exact .inr ⟨_, mem_cons_self, small, waits⟩
      · exact .inr ⟨wave, mem_cons_of_mem _ mem, small, waits⟩

/-- The first key of the first wave gets a level, and its users come up in a new wave. -/
theorem enter (spreading : Spreading graph ks (⟨level, k :: pending⟩ :: rest) reached levels)
    (fr : k ∉ reached) (hl : k ∈ graph.keys) :
    Spreading graph ks (⟨level, k :: pending⟩ :: (rest ++ [⟨level + 1, graph.users k⟩]))
      (k :: reached) ((k, level) :: levels) := by
  have here : Wave.mk level (k :: pending) ∈ Wave.mk level (k :: pending) :: rest := mem_cons_self
  have away := spreading.pending _ here k mem_cons_self hl
  have a : ∀ wave ∈ Wave.mk level (k :: pending) :: rest,
      level ≤ wave.level ∧ wave.level ≤ level + 1 := by
    intro wave mem
    rcases mem_cons.mp mem with rfl | mem
    · exact ⟨le_refl _, Nat.le_succ _⟩
    · exact (pairwise_cons.mp spreading.ascends).1 wave mem
  rw [← cons_append]
  refine ⟨fun o => ?_, ?_, ?_, ?_, ?_, ?_, ⟨?_, ?_⟩, ?_⟩
  · rw [map_cons, mem_cons, mem_cons, spreading.mem_reached]
  · intro entry mem
    rcases mem_cons.mp mem with rfl | mem
    · exact lookup_cons_self
    · have ne : entry.1 ≠ k := fun e =>
        fr ((spreading.mem_reached k).mpr (e ▸ List.mem_map_of_mem mem))
      rw [levelOf?, lookup_cons, beq_false_of_ne ne]
      exact spreading.single entry mem
  · intro entry mem
    rcases mem_cons.mp mem with rfl | mem
    · exact away
    · exact spreading.away entry mem
  · intro wave mem o waits listed
    rcases mem_append.mp mem with mem | mem
    · exact spreading.pending wave mem o waits listed
    · rw [mem_singleton.mp mem] at waits ⊢
      exact away.step waits listed
  · refine pairwise_append.mpr ⟨spreading.ascends, pairwise_singleton _ _, ?_⟩
    intro wave mem last isLast
    rw [mem_singleton.mp isLast]
    exact ⟨(a wave mem).2, Nat.succ_le_succ (a wave mem).1⟩
  · intro entry mem wave inQueue
    have low : entry.2 ≤ level := by
      rcases mem_cons.mp mem with rfl | mem
      · exact le_refl level
      · exact spreading.below entry mem _ here
    rcases mem_append.mp inQueue with inQueue | inQueue
    · exact low.trans (a wave inQueue).1
    · rw [mem_singleton.mp inQueue]
      exact low.trans (Nat.le_succ level)
  · intro entry mem
    rcases mem_cons.mp mem with rfl | mem
    · exact Nat.lt_succ_of_le (spreading.short.2 _ here)
    · exact Nat.lt_succ_of_lt (spreading.short.1 entry mem)
  · intro wave mem
    rcases mem_append.mp mem with mem | mem
    · exact (spreading.short.2 wave mem).trans (Nat.le_succ _)
    · rw [mem_singleton.mp mem]
      exact Nat.succ_le_succ (spreading.short.2 _ here)
  · intro entry mem user uses listed
    rcases mem_cons.mp mem with rfl | mem
    · exact .inr ⟨_, mem_append_right _ (mem_singleton_self _), le_refl _, uses⟩
    · refine (spreading.spreads entry mem user uses listed).imp ?_ ?_
      · rintro ⟨low, small, has⟩
        exact ⟨low, small, mem_cons_of_mem _ has⟩
      · rintro ⟨wave, inQueue, small, waits⟩
        exact ⟨wave, mem_append_left _ inQueue, small, waits⟩

/-- Levels spread until no wave is left. -/
theorem spread (spreading : Spreading graph ks queue reached levels) :
    (∃ final, Spreading graph ks [] final (graph.spread queue reached levels)) ∧
      levels ⊆ graph.spread queue reached levels := by
  fun_induction graph.spread queue reached levels with
  | case1 reached levels => exact ⟨⟨reached, spreading⟩, List.Subset.refl _⟩
  | case2 reached levels level rest ih => exact ih spreading.drop
  | case3 reached levels level k pending rest seen ih => exact ih (spreading.skip (.inl seen))
  | case4 reached levels level k pending rest fr hl ih =>
    obtain ⟨ends, kept⟩ := ih ((spreading.enter fr hl).skip (.inl mem_cons_self))
    exact ⟨ends, (cons_subset.mp kept).2⟩
  | case5 reached levels level k pending rest fr unlisted ih => exact ih (spreading.skip (.inr unlisted))

end Spreading

/-- Levels spread from the keys without dependencies. -/
theorem levels_spreading (graph : DependencyGraph) (ks : List NodeKey) :
    (∃ final, Spreading graph ks [] final (graph.levels ks)) ∧
      ∀ k ∈ ks, graph.dependencies k = [] → (k, 0) ∈ graph.levels ks := by
  let sources := ks.filter fun k => (graph.dependencies k).isEmpty
  have source : ∀ k ∈ sources, k ∈ ks ∧ graph.dependencies k = [] := fun k mem =>
    ⟨(mem_filter.mp mem).1, by simpa using (mem_filter.mp mem).2⟩
  have start : Spreading graph ks (sources.map fun k => ⟨1, graph.users k⟩) sources
      (sources.map fun k => (k, 0)) := by
    refine ⟨fun k => by simp, ?_, ?_, ?_, ?_, ?_, ⟨?_, ?_⟩, ?_⟩
    · intro entry mem
      cases has : levelOf? (sources.map fun k => (k, 0)) entry.1 with
      | none => exact absurd (List.mem_map_of_mem mem) (not_mem_of_lookup has)
      | some level =>
        obtain ⟨_, -, e⟩ := List.mem_map.mp (mem_of_lookup has)
        obtain ⟨_, -, rfl⟩ := List.mem_map.mp mem
        exact congrArg (fun entry => some entry.2) e.symm
    · intro entry mem
      obtain ⟨k, isSource, rfl⟩ := List.mem_map.mp mem
      exact .source (source k isSource).1 (source k isSource).2
    · intro wave mem user uses listed
      obtain ⟨k, isSource, rfl⟩ := List.mem_map.mp mem
      exact (Away.source (source k isSource).1 (source k isSource).2).step uses listed
    · exact pairwise_map.mpr (pairwise_of_forall fun _ _ => ⟨le_refl _, Nat.le_succ _⟩)
    · intro entry mem wave inQueue
      obtain ⟨_, -, rfl⟩ := List.mem_map.mp mem
      exact Nat.zero_le _
    · intro entry mem
      obtain ⟨_, -, rfl⟩ := List.mem_map.mp mem
      exact length_pos_of_mem mem
    · intro wave mem
      obtain ⟨_, isSource, rfl⟩ := List.mem_map.mp mem
      rw [length_map]
      exact length_pos_of_mem isSource
    · intro entry mem user uses listed
      obtain ⟨k, isSource, rfl⟩ := List.mem_map.mp mem
      exact .inr ⟨_, List.mem_map_of_mem isSource, le_refl _, uses⟩
  obtain ⟨ends, kept⟩ := start.spread
  refine ⟨ends, fun k mem none => kept (List.mem_map_of_mem (mem_filter.mpr ⟨mem, ?_⟩))⟩
  simp [none]

/-- A key gets a level that is at most its number of hops. -/
theorem Away.exists_level {count : Nat} (away : Away graph ks count k) :
    ∃ level ≤ count, (k, level) ∈ graph.levels ks := by
  obtain ⟨⟨_, spreading⟩, sources⟩ := graph.levels_spreading ks
  induction away with
  | source mem none => exact ⟨0, le_refl 0, sources _ mem none⟩
  | @step count dep k _ uses listed ih =>
    obtain ⟨level, small, has⟩ := ih
    obtain ⟨next, near, h⟩ | ⟨wave, none, -⟩ := spreading.spreads _ has k uses listed
    · exact ⟨next, near.trans (Nat.succ_le_succ small), h⟩
    · exact absurd none not_mem_nil

/-- **The level of a key is the least number of hops.** -/
theorem levelOf?_levels {level : Nat} :
    levelOf? (graph.levels ks) k = some level ↔ IsLeast {count | Away graph ks count k} level := by
  obtain ⟨⟨_, spreading⟩, -⟩ := graph.levels_spreading ks
  constructor
  · intro has
    refine ⟨spreading.away _ (mem_of_lookup has), fun count away => ?_⟩
    obtain ⟨low, small, other⟩ := away.exists_level
    cases has.symm.trans (spreading.single _ other)
    exact small
  · rintro ⟨away, least⟩
    obtain ⟨low, small, has⟩ := away.exists_level
    cases small.antisymm (least (spreading.away _ has))
    exact spreading.single _ has

section Levels

variable (wellFormed : graph.WellFormed) (inside : ks ⊆ graph.keys)
  (closed : ∀ k ∈ ks, graph.dependencies k ⊆ ks)
include wellFormed inside

/-- Hops along users lead along dependencies. -/
theorem Away.hops {count : Nat} (away : Away graph ks count k) :
    k ∈ graph.keys ∧ Hops graph.dependencies count k := by
  induction away with
  | source mem none => exact ⟨inside mem, .source none⟩
  | step _ uses listed ih =>
    exact ⟨listed, ih.2.step ((wellFormed.mem_users _ ih.1 _).mp uses).2⟩

include closed

theorem away_of_hops {count : Nat} (hops : Hops graph.dependencies count k) (mem : k ∈ ks) :
    Away graph ks count k := by
  induction hops with
  | source none => exact .source mem none
  | @step count dep k _ hr ih =>
    have read := closed k mem hr
    exact (ih read).step ((wellFormed.mem_users dep (inside read) k).mpr ⟨inside mem, hr⟩) (inside mem)

/-- **Keys take their turns by distance,** and those of one distance in their previous order. -/
theorem pairwise_turns (away : ∀ k ∈ ks, ∃ count, Hops graph.dependencies count k) :
    (graph.turns ks).Pairwise fun a b =>
      hopDistance graph.dependencies a < hopDistance graph.dependencies b ∨
        hopDistance graph.dependencies a = hopDistance graph.dependencies b ∧
          [a, b].Sublist ks := by
  have h : ks.Pairwise fun a b => [a, b].Sublist ks :=
    pairwise_iff_forall_sublist.mpr fun pair => pair
  have rank : ∀ k ∈ graph.turns ks, (levelOf? (graph.levels ks) k).getD
      ((graph.levels ks).length + 1) = hopDistance graph.dependencies k := by
    intro k turn
    have mem := (perm_sortByRank _ ks).mem_iff.mp turn
    have nearest : Hops graph.dependencies (hopDistance graph.dependencies k) k :=
      Nat.sInf_mem (away k mem)
    rw [levelOf?_levels.mpr ⟨away_of_hops wellFormed inside closed nearest mem, fun count other =>
      Nat.sInf_le (other.hops wellFormed inside).2⟩]
    rfl
  refine (pairwise_sortByRank_of_pairwise _ h).imp_of_mem fun inFirst inSecond related => ?_
  rwa [rank _ inFirst, rank _ inSecond] at related

end Levels

end DependencyGraph

end LayerGraph
