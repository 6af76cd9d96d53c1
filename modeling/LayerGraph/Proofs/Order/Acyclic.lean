import LayerGraph.Order.Reach
import LayerGraph.Proofs.Order.Topological
import Mathlib.Logic.Relation

/-!
# Graphs without cycles

A graph is acyclic when no key depends on itself, directly or through others (`Acyclic`). A list
that puts all dependencies before their readers shows that it is (`acyclic_of_before`).

What `reach` collects contains the keys it starts from and is closed: it goes on from every key of the
graph that it has met (`reach_closed`). So it collects what paths lead to.

An edge can be turned around when its source reaches its target along no other edge
(`Acyclic.turnAround`). A path that uses the new edge can be cut so that it uses it once.
-/

namespace LayerGraph

open List

variable {dependencies : NodeKey → List NodeKey}

/-- One key is read by another. -/
abbrev Feeds (dependencies : NodeKey → List NodeKey) (dependency key : NodeKey) : Prop :=
  dependency ∈ dependencies key

/-- No key depends on itself, directly or through others. -/
def Acyclic (dependencies : NodeKey → List NodeKey) : Prop :=
  ∀ key, ¬ Relation.TransGen (Feeds dependencies) key key

variable {keys pending : List NodeKey} {a tgt : NodeKey} {next : NodeKey → List NodeKey}

theorem pair_sublist_of_transGen {b : NodeKey} (nd : keys.Nodup) (pre : ∀ k, ∀ dep ∈ dependencies
    k, [dep, k].Sublist keys) (path : Relation.TransGen (Feeds dependencies) a b) : [a, b].Sublist keys
    := by
  induction path with
  | single hr => exact pre _ _ hr
  | tail _ hr ih => exact pair_sublist_trans nd ih (pre _ _ hr)

/-- A list that puts every dependency before its readers leaves no room for a cycle. -/
theorem acyclic_of_before (nd : keys.Nodup) (pre : ∀ k, ∀ dep ∈ dependencies k, [dep, k].Sublist
    keys) : Acyclic dependencies := fun _ path =>
  pair_sublist_irrefl nd (pair_sublist_of_transGen nd pre path)

/-- When keys depend on smaller ones only, paths ascend. -/
theorem lt_of_transGen {last : NodeKey} (smaller : ∀ k, ∀ dep ∈ dependencies k, dep < k) (path :
    Relation.TransGen (Feeds dependencies) a last) : a < last := by
  induction path with
  | single hr => exact smaller _ _ hr
  | tail _ hr ih => exact Nat.lt_trans ih (smaller _ _ hr)

/-! ## Reachability -/

section Reach

variable {next : NodeKey → List NodeKey} {keys pending visited : List NodeKey}

theorem subset_reach (next : NodeKey → List NodeKey) (keys pending visited : List NodeKey) :
    pending ⊆ reach next keys pending visited ∧ visited ⊆ reach next keys pending visited := by
  fun_induction reach next keys pending visited with
  | case1 visited => simp
  | case2 visited k rest seen ih =>
    exact ⟨cons_subset.mpr ⟨ih.2 seen, ih.1⟩, ih.2⟩
  | case3 visited k rest fr hl ih =>
    obtain ⟨fromPending, fromVisited⟩ := ih
    rw [cons_subset] at fromVisited
    exact ⟨cons_subset.mpr ⟨fromVisited.1, fun _ mem => fromPending (mem_append_right _ mem)⟩,
      fromVisited.2⟩
  | case4 visited k rest fr unlisted ih =>
    obtain ⟨fromPending, fromVisited⟩ := ih
    rw [cons_subset] at fromVisited
    exact ⟨cons_subset.mpr ⟨fromVisited.1, fromPending⟩, fromVisited.2⟩

theorem reach_closed_of (closed : ∀ k ∈ visited, k ∈ keys → ∀ o ∈ next k,
      o ∈ visited ∨ o ∈ pending) : ∀ k ∈ reach next keys pending visited, k ∈ keys →
      next k ⊆ reach next keys pending visited := by
  fun_induction reach next keys pending visited with
  | case1 visited =>
    intro k mem hl o leads
    simpa using closed k mem hl o leads
  | case2 visited k rest seen ih =>
    refine ih fun o mem hl tgt leads => ?_
    rcases closed o mem hl tgt leads with hk | hk
    · exact .inl hk
    · rcases mem_cons.mp hk with rfl | hk
      · exact .inl seen
      · exact .inr hk
  | case3 visited k rest fr hl ih =>
    refine ih fun o mem inKeys tgt leads => ?_
    rcases mem_cons.mp mem with rfl | mem
    · exact .inr (mem_append_left _ leads)
    · rcases closed o mem inKeys tgt leads with hk | hk
      · exact .inl (mem_cons_of_mem _ hk)
      · rcases mem_cons.mp hk with rfl | hk
        · exact .inl mem_cons_self
        · exact .inr (mem_append_right _ hk)
  | case4 visited k rest fr unlisted ih =>
    refine ih fun o mem inKeys tgt leads => ?_
    rcases mem_cons.mp mem with rfl | mem
    · exact absurd inKeys unlisted
    · rcases closed o mem inKeys tgt leads with hk | hk
      · exact .inl (mem_cons_of_mem _ hk)
      · rcases mem_cons.mp hk with rfl | hk
        · exact .inl mem_cons_self
        · exact .inr hk

/-- What is reached from some keys is closed under going on from keys of the graph. -/
theorem reach_closed (next : NodeKey → List NodeKey) (keys pending : List NodeKey) :
    ∀ k ∈ reach next keys pending [], k ∈ keys → next k ⊆ reach next keys pending [] :=
  reach_closed_of (by simp)

end Reach

/-- What a path leads to is reached. -/
theorem mem_reach_of_path {start : NodeKey} (inside : ∀ k, ∀ o ∈ next k, k ∈ keys) (mem : start ∈
    pending) (path : Relation.ReflTransGen (fun k o => o ∈ next k) start tgt) : tgt ∈ reach next
    keys pending [] := by
  induction path with
  | refl => exact (subset_reach next keys pending []).1 mem
  | tail _ leads ih => exact reach_closed next keys pending _ ih (inside _ _ leads) leads

/-- What is reached has been there, or a path leads to it. -/
theorem path_of_mem_reach {visited : List NodeKey} (mem : tgt ∈ reach next keys pending visited) :
    tgt ∈ visited ∨ ∃ start ∈ pending, Relation.ReflTransGen (fun k o => o ∈ next k) start tgt :=
    by
  fun_induction reach next keys pending visited with
  | case1 visited => exact .inl mem
  | case2 visited k rest seen ih =>
    obtain pre | ⟨start, inRest, path⟩ := ih mem
    · exact .inl pre
    · exact .inr ⟨start, mem_cons_of_mem k inRest, path⟩
  | case3 visited k rest fr hl ih =>
    obtain pre | ⟨start, inQueue, path⟩ := ih mem
    · obtain rfl | pre := mem_cons.mp pre
      · exact .inr ⟨_, mem_cons_self, .refl⟩
      · exact .inl pre
    · obtain leads | inRest := mem_append.mp inQueue
      · exact .inr ⟨k, mem_cons_self, .head leads path⟩
      · exact .inr ⟨start, mem_cons_of_mem k inRest, path⟩
  | case4 visited k rest fr unlisted ih =>
    obtain pre | ⟨start, inRest, path⟩ := ih mem
    · obtain rfl | pre := mem_cons.mp pre
      · exact .inr ⟨_, mem_cons_self, .refl⟩
      · exact .inl pre
    · exact .inr ⟨start, mem_cons_of_mem k inRest, path⟩

/-! ## Turning an edge around -/

/-- **An edge that is the only way from its source to its target can be turned around.** -/
theorem Acyclic.turnAround {turned : NodeKey → List NodeKey} {src : NodeKey} (acyclic : Acyclic
    dependencies) (hr : src ∈ dependencies tgt) (edges : ∀ k, ∀ dep ∈ turned k, dep ∈ dependencies
    k ∧ ¬ (dep = src ∧ k = tgt) ∨ dep = tgt ∧ k = src) (only : ∀ o, src ∈ dependencies o → o ≠
    tgt → ¬ Relation.ReflTransGen (Feeds dependencies) o tgt) : Acyclic turned := by
  let Kept : NodeKey → NodeKey → Prop := fun dep k =>
    dep ∈ dependencies k ∧ ¬ (dep = src ∧ k = tgt)
  -- A path of the new graph uses the turned edge not at all, or may be cut to use it once.
  have cut : ∀ a last, Relation.TransGen (Feeds turned) a last → Relation.TransGen Kept a last ∨
      Relation.ReflTransGen Kept a tgt ∧ Relation.ReflTransGen Kept src last := by
    intro a last path
    induction path with
    | single step =>
      rcases edges _ _ step with kept | ⟨rfl, rfl⟩
      · exact .inl (.single kept)
      · exact .inr ⟨.refl, .refl⟩
    | tail _ step ih =>
      rcases edges _ _ step with kept | ⟨rfl, rfl⟩
      · rcases ih with without | ⟨front, back⟩
        · exact .inl (without.tail kept)
        · exact .inr ⟨front, back.tail kept⟩
      · rcases ih with without | ⟨front, -⟩
        · exact .inr ⟨without.to_reflTransGen, .refl⟩
        · exact .inr ⟨front, .refl⟩
  have old : ∀ dep k, Kept dep k → Feeds dependencies dep k := fun _ _ kept => kept.1
  intro k path
  rcases cut k k path with without | ⟨front, back⟩
  · exact acyclic k (Relation.TransGen.mono old _ _ without)
  · rcases (back.trans front).cases_head with e | ⟨o, step, rest⟩
    · exact acyclic tgt (.single (e ▸ hr))
    · exact only o step.1 (fun e => step.2 ⟨rfl, e⟩) (Relation.ReflTransGen.mono old _ _ rest)

end LayerGraph
