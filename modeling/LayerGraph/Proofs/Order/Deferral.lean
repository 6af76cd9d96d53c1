import LayerGraph.Proofs.Order.Levels
import Mathlib

/-!
# Deferred keys

A key is deferred when a dependency of it is not listed yet as its turn comes (`Deferred`). A key that
is not deferred is listed at its turn, and so these keys stand in the order of their turns.

A deferred key is listed while those are told that wait for a key that it has waited for. Telling is
nested: who is told has waited for a key that was released by the key whose waiting list is gone
through further out (`Relaying`). So everything that has been listed since any of these keys depends on
it, and a deferred key stands behind a key that it has waited for with only users of that key in between
(`Trailing`).

That key need not be the last dependency. A key that waits for two others, of which the second waits
for the first, is told once by the second and a last time by the first, and what the first has released
meanwhile stands in between (`deferred_key_behind_stranger`).
-/

namespace LayerGraph

open List

/-- Since a key was listed, only its users were. -/
def Trails (dependencies : NodeKey → List NodeKey) (listed : List NodeKey) (key : NodeKey) : Prop :=
  ∃ front back, listed = front ++ key :: back ∧
    ∀ other ∈ back, Relation.TransGen (Feeds dependencies) key other

/-- A key stands behind one that it has waited for, with only users of that one in between. -/
def Trailing (dependencies : NodeKey → List NodeKey) (waits : NodeKey → NodeKey → Prop)
    (listed : List NodeKey) (key : NodeKey) : Prop :=
  ∃ anchor front middle back, waits key anchor ∧ listed = front ++ anchor :: (middle ++ key :: back) ∧
    ∀ other ∈ middle, Relation.TransGen (Feeds dependencies) anchor other

theorem Trailing.append {dependencies : NodeKey → List NodeKey} {waits : NodeKey → NodeKey → Prop}
    {hl : List NodeKey} {k : NodeKey} (trailing : Trailing dependencies waits hl k)
    (more : List NodeKey) : Trailing dependencies waits (hl ++ more) k := by
  obtain ⟨anchor, front, mid, back, waited, rfl, users⟩ := trailing
  exact ⟨anchor, front, mid, back ++ more, waited, by simp, users⟩

namespace DependencyGraph

variable {graph : DependencyGraph}

/-- Where the listing stands when the turn of a key comes. -/
def atTurn (graph : DependencyGraph) (keys : List NodeKey) (key : NodeKey) : Turn :=
  ((graph.turns keys).takeWhile (· != key)).foldl (Turn.take graph) ⟨[], [], []⟩

/-- A key waits for a dependency that is not listed when its turn comes. -/
def WaitsFor (graph : DependencyGraph) (keys : List NodeKey) (key dependency : NodeKey) : Prop :=
  dependency ∈ graph.dependencies key ∧ dependency ∉ (graph.atTurn keys key).listed

/-- A key waits for a dependency. -/
def Deferred (graph : DependencyGraph) (keys : List NodeKey) (key : NodeKey) : Prop :=
  ∃ dependency ∈ graph.dependencies key, dependency ∉ (graph.atTurn keys key).listed

instance (keys : List NodeKey) (key : NodeKey) : Decidable (graph.Deferred keys key) :=
  inferInstanceAs (Decidable (∃ dependency ∈ graph.dependencies key, _))

namespace Turn

variable {turn : Turn} {waits : NodeKey → NodeKey → Prop} {calls : List (NodeKey × NodeKey)}

/-- The keys that are to be told, each with the key whose listing it is told of. -/
structure Relaying (graph : DependencyGraph) (waits : NodeKey → NodeKey → Prop) (turn : Turn)
    (calls : List (NodeKey × NodeKey)) : Prop where
  waiting : ∀ entry ∈ turn.waiting, waits entry.2 entry.1
  told : ∀ call ∈ calls, waits call.2 call.1 ∧ Trails graph.dependencies turn.listed call.1
  /-- The keys whose listing is told first depend on the others. -/
  nested : calls.Pairwise fun inner outer =>
    Relation.ReflTransGen (Feeds graph.dependencies) outer.1 inner.1

/-- What telling can do: it lists keys that have waited, each behind one that it has waited for. -/
structure Releases (graph : DependencyGraph) (waits : NodeKey → NodeKey → Prop) (turn next : Turn) :
    Prop where
  listed : ∃ run, next.listed = turn.listed ++ run ∧ ∀ key ∈ run,
    key ∈ turn.missing.map Prod.fst ∧ Trailing graph.dependencies waits next.listed key
  waiting : next.waiting ⊆ turn.waiting
  missing : next.missing.map Prod.fst ⊆ turn.missing.map Prod.fst

theorem missing_forget (turn : Turn) (k : NodeKey) :
    (turn.forget k).missing.map Prod.fst ⊆ turn.missing.map Prod.fst :=
  (filter_sublist.map _).subset

/-- Those who wait for a key that is listed now are told of it, before the others. -/
theorem Relaying.list (relaying : Relaying graph waits turn calls) {k : NodeKey}
    (outer : ∀ call ∈ calls, Relation.TransGen (Feeds graph.dependencies) call.1 k) :
    Relaying graph waits (turn.list k) ((turn.waitingFor k).map (Prod.mk k) ++ calls) where
  waiting entry mem := relaying.waiting entry (mem_filter.mp mem).1
  told call mem := by
    rcases mem_append.mp mem with mem | mem
    · obtain ⟨waiter, told, rfl⟩ := List.mem_map.mp mem
      obtain ⟨entry, kept, rfl⟩ := List.mem_map.mp told
      obtain ⟨inWaiting, e⟩ := mem_filter.mp kept
      have waited := relaying.waiting entry inWaiting
      rw [beq_iff_eq.mp e] at waited
      exact ⟨waited, turn.listed, [], rfl, by simp⟩
    · obtain ⟨waited, front, back, split, users⟩ := relaying.told call mem
      refine ⟨waited, front, back ++ [k], by simp [Turn.list, split], fun other inBack => ?_⟩
      rcases mem_append.mp inBack with inBack | last
      · exact users other inBack
      · exact mem_singleton.mp last ▸ outer call mem
  nested := by
    refine pairwise_append.mpr ⟨?_, relaying.nested, ?_⟩
    · exact pairwise_map.mpr (pairwise_of_forall fun _ _ => .refl)
    · intro inner mem call isCall
      obtain ⟨_, -, rfl⟩ := List.mem_map.mp mem
      exact (outer call isCall).to_reflTransGen

theorem Relaying.tail {call : NodeKey × NodeKey} (relaying : Relaying graph waits turn (call :: calls)) :
    Relaying graph waits turn calls where
  waiting := relaying.waiting
  told other mem := relaying.told other (mem_cons_of_mem _ mem)
  nested := (pairwise_cons.mp relaying.nested).2

/-- **Telling keys lists those that trail what they have waited for.** -/
theorem releases_release (hr : ∀ k anchor, waits k anchor → anchor ∈ graph.dependencies k)
    (relaying : Relaying graph waits turn calls) :
    Releases graph waits turn (turn.release (calls.map Prod.snd)) := by
  generalize e : calls.map Prod.snd = told
  fun_induction release turn told generalizing calls with
  | case1 turn => exact ⟨⟨[], by simp, by simp⟩, List.Subset.refl _, List.Subset.refl _⟩
  | case2 turn k rest ha ih =>
    obtain ⟨call, calls, rfl, rfl, rfl⟩ := map_eq_cons_iff.mp e
    exact ih relaying.tail rfl
  | case3 turn told rest count hk last ih =>
    obtain ⟨⟨anchor, k⟩, calls, rfl, rfl, rfl⟩ := map_eq_cons_iff.mp e
    obtain ⟨waited, front, back, split, users⟩ := relaying.told _ mem_cons_self
    have outer : ∀ call ∈ calls, Relation.TransGen (Feeds graph.dependencies) call.1 k := fun call mem =>
      Relation.TransGen.tail' ((pairwise_cons.mp relaying.nested).1 call mem) (hr _ _ waited)
    have forgotten : Relaying graph waits (turn.forget k) calls :=
      ⟨relaying.waiting, relaying.tail.told, relaying.tail.nested⟩
    obtain ⟨⟨run, hl, placed⟩, waiting, missing⟩ := ih (forgotten.list outer) (by simp)
    have grown := hl.trans (append_assoc turn.listed [k] run)
    refine ⟨⟨k :: run, grown, fun other mem => ?_⟩, List.Subset.trans waiting filter_sublist.subset,
      List.Subset.trans missing (turn.missing_forget k)⟩
    rcases mem_cons.mp mem with rfl | mem
    · refine ⟨List.mem_map_of_mem (mem_of_lookup hk), anchor, front, back, run, waited, ?_, users⟩
      rw [grown, split, append_assoc]
      rfl
    · exact ⟨turn.missing_forget k (placed other mem).1, (placed other mem).2⟩
  | case4 turn k rest count hk more ih =>
    obtain ⟨call, calls, rfl, rfl, rfl⟩ := map_eq_cons_iff.mp e
    obtain ⟨hl, waiting, missing⟩ := ih ⟨relaying.waiting, relaying.tail.told, relaying.tail.nested⟩ rfl
    rw [missing_countDown] at hl missing
    exact ⟨hl, waiting, missing⟩

end Turn

/-! ## One turn after the other -/

/-- What holds when some keys have had their turn. -/
structure Deferring (graph : DependencyGraph) (keys before : List NodeKey) (turn : Turn) : Prop where
  waiting : ∀ entry ∈ turn.waiting, graph.WaitsFor keys entry.2 entry.1
  missing : ∀ key ∈ turn.missing.map Prod.fst, graph.Deferred keys key
  /-- Those that are not deferred are listed in the order of their turns. -/
  prompt : turn.listed.filter (¬ graph.Deferred keys ·) = before.filter (¬ graph.Deferred keys ·)
  trailing : ∀ key ∈ turn.listed, graph.Deferred keys key →
    Trailing graph.dependencies (graph.WaitsFor keys) turn.listed key

variable {ks before : List NodeKey} {k : NodeKey}

theorem atTurn_eq {after : List NodeKey} (split : graph.turns ks = before ++ k :: after) (fr : k ∉
    before) : graph.atTurn ks k = before.foldl (Turn.take graph) ⟨[], [], []⟩ := by
  have others : ∀ other ∈ before, (other != k) = true := fun other mem => by
    simpa using fun e : other = k => fr (e ▸ mem)
  rw [atTurn, split, takeWhile_append_of_pos others, takeWhile_cons_of_neg (by simp), append_nil]

/-- A key takes its turn. -/
theorem Deferring.take {turn : Turn} (deferring : Deferring graph ks before turn) (now : graph.atTurn
    ks k = turn) : Deferring graph ks (before ++ [k]) (Turn.take graph turn k) := by
  have waitsFor : ∀ dependency, graph.WaitsFor ks k dependency ↔
      dependency ∈ (graph.dependencies k).eraseDups.filter (· ∉ turn.listed) := fun dependency => by
    simp [WaitsFor, now]
  have deferred_iff : graph.Deferred ks k ↔
      ((graph.dependencies k).eraseDups.filter (· ∉ turn.listed)).isEmpty = false := by
    rw [isEmpty_eq_false_iff_exists_mem]
    exact exists_congr waitsFor
  simp only [Turn.take]
  split
  · next ready =>
    have prompt : ¬ graph.Deferred ks k := by
      rw [deferred_iff, ready]
      exact Bool.false_ne_true.symm
    have start : Turn.Relaying graph (graph.WaitsFor ks) turn [] := ⟨deferring.waiting, by simp, .nil⟩
    have relaying : Turn.Relaying graph (graph.WaitsFor ks) (turn.list k)
        ((turn.waitingFor k).map (Prod.mk k) ++ []) := start.list (by simp)
    obtain ⟨⟨run, hl, placed⟩, waiting, missing⟩ :=
      Turn.releases_release (fun _ _ waits => waits.1) relaying
    rw [append_nil, List.map_map, show Prod.snd ∘ Prod.mk k = id from rfl, List.map_id] at *
    have grown : ((turn.list k).release (turn.waitingFor k)).listed = turn.listed ++ [k] ++ run := hl
    refine ⟨fun entry mem => deferring.waiting entry (mem_filter.mp (waiting mem)).1,
      fun other mem => deferring.missing other (missing mem), ?_, fun other mem late => ?_⟩
    · have none : run.filter (¬ graph.Deferred ks ·) = [] := filter_eq_nil_iff.mpr
        fun other mem => by simpa using deferring.missing other (placed other mem).1
      rw [grown, filter_append, filter_append, none, append_nil, deferring.prompt, filter_append]
    · rw [grown] at mem ⊢
      rcases mem_append.mp mem with mem | mem
      · rcases mem_append.mp mem with mem | here
        · exact ((deferring.trailing other mem late).append [k]).append run
        · exact absurd (mem_singleton.mp here ▸ late) prompt
      · rw [← grown]
        exact (placed other mem).2
  · next late =>
    have deferred : graph.Deferred ks k := deferred_iff.mpr (by simpa using late)
    refine ⟨fun entry mem => ?_, fun other mem => ?_, ?_, deferring.trailing⟩
    · rcases mem_append.mp mem with mem | mem
      · exact deferring.waiting entry mem
      · obtain ⟨dependency, ha, rfl⟩ := List.mem_map.mp mem
        exact (waitsFor dependency).mpr ha
    · rcases mem_cons.mp mem with rfl | mem
      · exact deferred
      · exact deferring.missing other mem
    · rw [filter_append, deferring.prompt]
      simp [deferred]

theorem deferring_foldl (nodup : ks.Nodup) : ∀ before after, graph.turns ks = before ++ after →
    Deferring graph ks before (before.foldl (Turn.take graph) ⟨[], [], []⟩) := by
  have nd : (graph.turns ks).Nodup := (perm_sortByRank _ ks).nodup_iff.mpr nodup
  intro before
  induction before using reverseRecOn with
  | nil => exact fun _ _ => ⟨by simp, by simp, rfl, by simp⟩
  | append_singleton before k ih =>
    intro after split
    rw [append_assoc, singleton_append] at split
    have fr : k ∉ before := fun mem =>
      disjoint_of_nodup_append (split ▸ nd) mem mem_cons_self
    rw [foldl_append]
    exact (ih (k :: after) split).take (atTurn_eq split fr)

/-- In a list without repetitions, what stands after one key and before another is in the middle. -/
theorem mem_middle {a last other : NodeKey} {front mid back : List NodeKey}
    (nodup : (front ++ a :: (mid ++ last :: back)).Nodup)
    (after : [a, other].Sublist (front ++ a :: (mid ++ last :: back)))
    (before : [other, last].Sublist (front ++ a :: (mid ++ last :: back))) : other ∈ mid := by
  rcases mem_append.mp (mem_of_pair_sublist_append_right nodup after) with hk | later
  · exact hk
  · rw [← cons_append, ← append_assoc] at nodup before
    have earlier := mem_of_pair_sublist_append nodup before
    exact absurd later (disjoint_of_nodup_append nodup earlier)

/-- The keys that a breadth-first order lists: those that were listed, or all. -/
def regrouped (graph : DependencyGraph) (order : ProcessingOrder) : List NodeKey :=
  if order.isEmpty then graph.keys else order.toList

/-- **The breadth-first order regroups keys by distance.** It lists the same keys once each, every
dependency before its users. Those that are not deferred stand by their distance from a key without
dependencies, and those of one distance in their previous order. The keys listed before may stand in any
order, if what they depend on is among them. -/
theorem breadthFirst_regroups_by_distance (wellFormed : graph.WellFormed)
    (acyclic : Acyclic graph.dependenciesOf) (order : ProcessingOrder) (nodup : order.toList.Nodup)
    (inside : order.toList ⊆ graph.keys)
    (closed : ∀ key ∈ order.toList, graph.dependencies key ⊆ order.toList) :
    (graph.breadthFirst order).toList.Perm (graph.regrouped order) ∧
      IsTopological graph.dependencies (graph.breadthFirst order).toList ∧
      ∀ first second, [first, second].Sublist (graph.breadthFirst order).toList →
        ¬ graph.Deferred (graph.regrouped order) first →
        ¬ graph.Deferred (graph.regrouped order) second →
          hopDistance graph.dependencies first < hopDistance graph.dependencies second ∨
            hopDistance graph.dependencies first = hopDistance graph.dependencies second ∧
              [first, second].Sublist (graph.regrouped order) := by
  have distinct : (graph.regrouped order).Nodup := by
    rw [regrouped]
    split
    · exact wellFormed.nodup
    · exact nodup
  have inKeys : graph.regrouped order ⊆ graph.keys := by
    rw [regrouped]
    split
    · exact List.Subset.refl _
    · exact inside
  have reads : ∀ key ∈ graph.regrouped order, graph.dependencies key ⊆ graph.regrouped order := by
    rw [regrouped]
    split
    · exact wellFormed.closed
    · exact closed
  obtain ⟨arranged, topological, same⟩ := wellFormed.exists_isTopological acyclic inKeys reads
  have given : graph.regrouped order = if order.isEmpty then graph.keys else order.toList := rfl
  have listed := breadthFirst_eq given distinct topological same
  obtain ⟨isTopological, kept⟩ := breadthFirst_isTopological given distinct topological same
  refine ⟨(List.perm_ext_iff_of_nodup isTopological.nodup distinct).mpr kept, isTopological, ?_⟩
  intro first second pair promptFirst promptSecond
  have inOrder : [first, second].Sublist (graph.turns (graph.regrouped order)) := by
    have deferring : Deferring graph (graph.regrouped order) (graph.turns (graph.regrouped order)) _ :=
      deferring_foldl distinct _ [] (by simp)
    have kept := pair.filter (¬ graph.Deferred (graph.regrouped order) ·)
    rw [listed, deferring.prompt] at kept
    simp only [List.filter_cons, promptFirst, promptSecond, List.filter_nil, not_false_eq_true,
      decide_true, if_true] at kept
    exact kept.trans List.filter_sublist
  refine List.pairwise_iff_forall_sublist.mp (pairwise_turns wellFormed inKeys reads ?_) inOrder
  exact fun key member => topological.exists_hops key ((same key).mpr member)

/-- Some keys are listed against their dependencies, and one of them is deferred. -/
theorem breadthFirst_regroups_by_distance_backwards :
    (ofLists [[], [0], [1], [0, 2], []]).WellFormed ∧
      (ofLists [[], [0], [1], [0, 2], []]).Deferred [3, 2, 1, 0] 3 ∧
      ((ofLists [[], [0], [1], [0, 2], []]).breadthFirst ⟨[3, 2, 1, 0]⟩).toList.Perm [3, 2, 1, 0] ∧
      IsTopological (ofLists [[], [0], [1], [0, 2], []]).dependencies
        ((ofLists [[], [0], [1], [0, 2], []]).breadthFirst ⟨[3, 2, 1, 0]⟩).toList := by
  have wellFormed : (ofLists [[], [0], [1], [0, 2], []]).WellFormed := wellFormed_ofLists (by decide)
  have deferred : (ofLists [[], [0], [1], [0, 2], []]).Deferred [3, 2, 1, 0] 3 := by
    have listed : ((ofLists [[], [0], [1], [0, 2], []]).atTurn [3, 2, 1, 0] 3).listed = [0] := by cbv
    exact ⟨2, by decide, by simp [listed]⟩
  obtain ⟨perm, topological, -⟩ := breadthFirst_regroups_by_distance wellFormed
    (acyclic_dependenciesOf (acyclic_ofLists (by decide))) ⟨[3, 2, 1, 0]⟩ (by decide) (by decide)
    (by decide)
  exact ⟨wellFormed, deferred, perm, topological⟩

/-- **A deferred key stands behind a dependency that it has waited for,** with only users of that one in
between. Its last dependency is this one or a user of it. When the last dependency does not depend on
another one that the key has waited for, only users of the last dependency stand between the two. -/
theorem deferred_keys_trail_a_dependency (order : ProcessingOrder)
    (complete : ∀ key, key ∈ order.toList ↔ key ∈ graph.keys)
    (topological : IsTopological graph.dependencies order.toList) (key last : NodeKey)
    (listed : key ∈ graph.keys) (deferred : graph.Deferred order.toList key)
    (reads : last ∈ graph.dependencies key)
    (isLast : ∀ dependency ∈ graph.dependencies key,
      dependency = last ∨ [dependency, last].Sublist (graph.breadthFirst order).toList) :
    (∃ anchor, graph.WaitsFor order.toList key anchor ∧
      Relation.ReflTransGen (Feeds graph.dependencies) anchor last ∧
      ∀ other, [anchor, other].Sublist (graph.breadthFirst order).toList →
        [other, key].Sublist (graph.breadthFirst order).toList →
          Relation.TransGen (Feeds graph.dependencies) anchor other) ∧
    ((∀ dependency, graph.WaitsFor order.toList key dependency →
        ¬ Relation.TransGen (Feeds graph.dependencies) dependency last) →
      ∀ other, [last, other].Sublist (graph.breadthFirst order).toList →
        [other, key].Sublist (graph.breadthFirst order).toList →
          Relation.TransGen (Feeds graph.dependencies) last other) := by
  have given : order.toList = if order.isEmpty then graph.keys else order.toList := by
    split
    · next empty =>
      have nothing := List.isEmpty_iff.mp empty
      rw [nothing, eq_comm, List.eq_nil_iff_forall_not_mem]
      exact fun key member => List.not_mem_nil (nothing ▸ (complete key).mpr member)
    · rfl
  have result := breadthFirst_eq given topological.nodup topological fun _ => Iff.rfl
  obtain ⟨sorted, kept⟩ :=
    breadthFirst_isTopological given topological.nodup topological fun _ => Iff.rfl
  have member : key ∈ (graph.breadthFirst order).toList := (kept key).mpr ((complete key).mpr listed)
  obtain ⟨anchor, front, middle, back, waited, split, users⟩ :
      Trailing graph.dependencies (graph.WaitsFor order.toList) (graph.breadthFirst order).toList key := by
    rw [result] at member ⊢
    exact (deferring_foldl topological.nodup _ [] (by simp)).trailing key member deferred
  have between : ∀ other, [anchor, other].Sublist (graph.breadthFirst order).toList →
      [other, key].Sublist (graph.breadthFirst order).toList →
        Relation.TransGen (Feeds graph.dependencies) anchor other := by
    have nodup := sorted.nodup
    rw [split] at nodup ⊢
    exact fun other after before => users other (mem_middle nodup after before)
  have leads : anchor = last ∨ Relation.TransGen (Feeds graph.dependencies) anchor last :=
    (isLast anchor waited.1).imp_right fun earlier =>
      between last earlier (sorted.before key member last reads)
  refine ⟨⟨anchor, waited, ?_, between⟩, fun apart => ?_⟩
  · rcases leads with rfl | path
    · exact .refl
    · exact path.to_reflTransGen
  · obtain rfl := leads.resolve_right (apart anchor waited)
    exact between

/-- Two keys wait for one dependency, and a third for it and for the first of them. -/
def crossedWaits : DependencyGraph := ofLists [[], [0], [1], [0, 2], [0, 2], [0, 2, 3]]

theorem isTopological_crossedWaits : IsTopological crossedWaits.dependencies [0, 1, 2, 3, 4, 5] :=
  ⟨by decide, by decide⟩

theorem breadthFirst_crossedWaits :
    crossedWaits.breadthFirst ⟨[0, 1, 2, 3, 4, 5]⟩ = ⟨[0, 1, 2, 3, 4, 5]⟩ := by cbv

theorem lt_of_mem_crossedWaits : ∀ k, ∀ dependency ∈ crossedWaits.dependencies k, dependency < k :=
  lt_of_mem_ofLists (by decide)

theorem deferred_keys_trail_a_dependency_crossedWaits :
    crossedWaits.Deferred [0, 1, 2, 3, 4, 5] 4 ∧
      ∀ other, [2, other].Sublist (crossedWaits.breadthFirst ⟨[0, 1, 2, 3, 4, 5]⟩).toList →
        [other, 4].Sublist (crossedWaits.breadthFirst ⟨[0, 1, 2, 3, 4, 5]⟩).toList →
          Relation.TransGen (Feeds crossedWaits.dependencies) 2 other := by
  have listed : (crossedWaits.atTurn [0, 1, 2, 3, 4, 5] 4).listed = [0, 1] := by cbv
  have deferred : crossedWaits.Deferred [0, 1, 2, 3, 4, 5] 4 := ⟨2, by decide, by simp [listed]⟩
  obtain ⟨-, follows⟩ := deferred_keys_trail_a_dependency ⟨[0, 1, 2, 3, 4, 5]⟩ (fun _ => Iff.rfl)
    isTopological_crossedWaits 4 2 (by decide) deferred (by decide)
    (by rw [breadthFirst_crossedWaits]; decide)
  refine ⟨deferred, follows fun dependency waits path => ?_⟩
  have smaller := lt_of_transGen lt_of_mem_crossedWaits path
  have absent := waits.2
  rw [listed] at absent
  have reads : dependency ∈ [0, 2] := waits.1
  rcases List.mem_pair.mp reads with rfl | rfl
  · exact absent List.mem_cons_self
  · exact Nat.lt_irrefl 2 smaller

/-- **Between a deferred key and its last dependency may stand a key that does not use that one.** The
key 5 has waited for 2 and 3, and 3 for 2; between 3 and 5 stands 4, which does not depend on 3. -/
theorem deferred_key_behind_stranger :
    crossedWaits.WellFormed ∧ IsTopological crossedWaits.dependencies [0, 1, 2, 3, 4, 5] ∧
      crossedWaits.Deferred [0, 1, 2, 3, 4, 5] 5 ∧ crossedWaits.dependencies 5 = [0, 2, 3] ∧
      crossedWaits.breadthFirst ⟨[0, 1, 2, 3, 4, 5]⟩ = ⟨[0, 1, 2, 3, 4, 5]⟩ ∧
      ¬ Relation.TransGen (Feeds crossedWaits.dependencies) 3 4 := by
  have listed : (crossedWaits.atTurn [0, 1, 2, 3, 4, 5] 5).listed = [0, 1] := by cbv
  refine ⟨wellFormed_ofLists (by decide), isTopological_crossedWaits, ⟨3, by decide, by simp [listed]⟩,
    rfl, breadthFirst_crossedWaits, fun path => ?_⟩
  obtain ⟨last, before, reads⟩ := Relation.TransGen.tail'_iff.mp path
  have small : last ≤ 2 := (by decide : ∀ key ∈ [0, 2], key ≤ 2) last reads
  rcases Relation.reflTransGen_iff_eq_or_transGen.mp before with same | path
  · exact absurd (same ▸ small) (by decide)
  · exact absurd ((lt_of_transGen lt_of_mem_crossedWaits path).trans_le small) (by decide)

end DependencyGraph

end LayerGraph
