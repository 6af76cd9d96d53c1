import LayerGraph.Order.DepthFirst
import LayerGraph.Proofs.Order.Acyclic
import Mathlib.Data.Fintype.Card
import Mathlib.Data.Fintype.EquivFin
import Mathlib.Data.Fintype.Sets
import Mathlib.Data.List.Chain
import Mathlib.Order.WellFounded

/-!
# The depth-first order

The walk keeps a path of frames. While it runs, the keys listed so far form a topological list, the
keys visited are the listed ones and those on the path, every dependency of a key on the path is
listed, still pending, or the next key on the path, and the keys of the path depend on each other one
by one (`Walking`). Each of the three moves of the walk keeps this. So what it lists in the end is
topological, and a key at which it gives up depends on itself (`walkAll_walked`).

A key that is never met is not read by any of the keys that the walk starts from (`Stray`). Nor is
what reads it, and so on, until a key comes up a second time (`Stray.exists_cycle`). So an order is
found exactly when there is no cycle (`depthFirst_exactly_without_cycles`). But a stray key that is
reported need not lie on a cycle itself.
-/

namespace LayerGraph.DependencyGraph

open List

variable {graph : DependencyGraph} {within : NodeKey → Prop} {roots : List NodeKey}

theorem dependenciesOf_subset (graph : DependencyGraph) (key : NodeKey) :
    graph.dependenciesOf key ⊆ graph.dependencies key := by
  rw [dependenciesOf]
  split
  · exact List.Subset.refl _
  · exact nil_subset _

variable {key : NodeKey} {more : List NodeKey} {lists : List (List NodeKey)}

theorem dependenciesOf_of_mem (listed : key ∈ graph.keys) : graph.dependenciesOf key = graph.dependencies
    key := if_pos listed

theorem mem_keys_of_feeds {dependency : NodeKey} (hr : dependency ∈ graph.dependenciesOf key) : key ∈
    graph.keys := by
  by_contra unlisted
  rw [dependenciesOf, if_neg unlisted] at hr
  exact not_mem_nil hr

/-! ## The moves of the walk -/

/-- Every dependency of a key on the path is listed, pending, or expected. On top of the path
nothing is expected; below it, the key of the frame above. -/
def Awaits (graph : DependencyGraph) (listed : List NodeKey) :
    List NodeKey → List Frame → Prop
  | _, [] => True
  | expected, frame :: rest =>
    (∀ dependency ∈ graph.dependenciesOf frame.key,
      dependency ∈ listed ∨ dependency ∈ frame.pending ∨ dependency ∈ expected) ∧
    Awaits graph listed [frame.key] rest

theorem Awaits.mono {listed expected others : List NodeKey} {path : List Frame} (awaits : Awaits graph
    listed expected path) (subset : listed ⊆ more) (met : ∀ key ∈ expected, key ∈ more ∨ key ∈ others) :
    Awaits graph more others path := by
  induction path generalizing expected others with
  | nil => trivial
  | cons frame rest ih =>
    obtain ⟨top, below⟩ := awaits
    refine ⟨fun dependency hr => ?_, ih below fun key mem => .inr mem⟩
    rcases top dependency hr with hk | hk | hk
    · exact .inl (subset hk)
    · exact .inr (.inl hk)
    · exact (met dependency hk).imp id .inr

/-- The invariant of the depth-first walk. What is visited stays within a set of keys. -/
structure Walking (graph : DependencyGraph) (within : NodeKey → Prop) (expected : List NodeKey)
    (path : List Frame) (visited listed : List NodeKey) : Prop where
  topological : IsTopological graph.dependenciesOf listed.reverse
  mem_visited : ∀ key, key ∈ visited ↔ key ∈ listed ∨ key ∈ path.map Frame.key
  nodup : (path.map Frame.key).Nodup
  apart : ∀ key ∈ path.map Frame.key, key ∉ listed
  awaits : Awaits graph listed expected path
  inside : ∀ key ∈ visited, within key
  /-- Every key on the path is read by the key below it. -/
  chain : path.IsChain fun upper lower => upper.key ∈ graph.dependenciesOf lower.key
  pending : ∀ frame ∈ path, frame.pending ⊆ graph.dependenciesOf frame.key

namespace Walking

variable {key dependency : NodeKey} {pending visited listed : List NodeKey} {rest : List Frame}

theorem initial (graph : DependencyGraph) (within : NodeKey → Prop) : Walking graph within [] [] [] [] :=
  ⟨.nil _, by simp, by simp, by simp, trivial, by simp, .nil, by simp⟩

/-- A key without pending dependencies is left and listed. -/
theorem leave (walking : Walking graph within [] (⟨key, []⟩ :: rest) visited listed) :
    Walking graph within [] rest visited (key :: listed) where
  topological := by
    rw [reverse_cons]
    refine walking.topological.snoc ?_ fun dependency hr => ?_
    · simpa using walking.apart key (by simp)
    · simpa using walking.awaits.1 dependency hr
  mem_visited o := by
    rw [walking.mem_visited]
    simp only [map_cons, mem_cons]
    tauto
  nodup := (nodup_cons.mp walking.nodup).2
  apart o mem := by
    have fr := (nodup_cons.mp walking.nodup).1
    rw [mem_cons, not_or]
    exact ⟨fun e => fr (e ▸ mem), walking.apart o (mem_cons_of_mem _ mem)⟩
  awaits := walking.awaits.2.mono (subset_cons_self _ _) (by simp)
  inside := walking.inside
  chain := walking.chain.tail
  pending frame mem := walking.pending frame (mem_cons_of_mem _ mem)

/-- The first pending dependency is taken up: it is listed, or it is expected from now on. -/
theorem next {expected : List NodeKey} (walking : Walking graph within [] (⟨key, dependency :: pending⟩
    :: rest) visited listed) (taken : dependency ∈ listed ∨ dependency ∈ expected) : Walking graph within
    expected (⟨key, pending⟩ :: rest) visited listed where
  topological := walking.topological
  mem_visited := walking.mem_visited
  nodup := walking.nodup
  apart := walking.apart
  awaits := by
    refine ⟨fun o hr => ?_, walking.awaits.2⟩
    rcases walking.awaits.1 o hr with hk | hk | hk
    · exact .inl hk
    · rcases mem_cons.mp hk with rfl | hk
      · exact taken.imp id .inr
      · exact .inr (.inl hk)
    · exact absurd hk not_mem_nil
  inside := walking.inside
  chain := by
    have chain := walking.chain
    cases rest with
    | nil => exact .singleton _
    | cons lower rest =>
      rw [isChain_cons_cons] at chain ⊢
      exact chain
  pending frame mem := by
    rcases mem_cons.mp mem with rfl | mem
    · exact fun _ hk => walking.pending _ mem_cons_self (mem_cons_of_mem _ hk)
    · exact walking.pending frame (mem_cons_of_mem _ mem)

/-- The dependency that is expected is entered. -/
theorem push {path : List Frame} (walking : Walking graph within [dependency] path visited listed)
    (fr : dependency ∉ visited) (inside : within dependency)
    (hr : ∀ frame ∈ path.head?, dependency ∈ graph.dependenciesOf frame.key) :
    Walking graph within [] (graph.enter dependency :: path) (dependency :: visited) listed where
  topological := walking.topological
  mem_visited o := by
    rw [mem_cons, walking.mem_visited]
    simp only [map_cons, DependencyGraph.enter, mem_cons]
    tauto
  nodup := nodup_cons.mpr
    ⟨fun mem => fr ((walking.mem_visited dependency).mpr (.inr mem)), walking.nodup⟩
  apart o mem := by
    rcases mem_cons.mp mem with rfl | mem
    · exact fun kn => fr ((walking.mem_visited _).mpr (.inl kn))
    · exact walking.apart o mem
  awaits := ⟨fun o hr => .inr (.inl hr), walking.awaits⟩
  inside o mem := by
    rcases mem_cons.mp mem with rfl | mem
    · exact inside
    · exact walking.inside o mem
  chain := walking.chain.cons hr
  pending frame mem := by
    rcases mem_cons.mp mem with rfl | mem
    · exact List.Subset.refl _
    · exact walking.pending frame mem

/-- The dependency that is looked at next is read by the key on top of the path. -/
theorem reads (walking : Walking graph within [] (⟨key, dependency :: pending⟩ :: rest) visited listed) :
    dependency ∈ graph.dependenciesOf key :=
  walking.pending _ mem_cons_self mem_cons_self

/-- The key on top of a path feeds every other key of it. -/
theorem feeds {top : Frame} (walking : Walking graph within [] (top :: rest) visited listed) :
    ∀ frame ∈ rest, Relation.TransGen (Feeds graph.dependenciesOf) top.key frame.key := by
  have chain : (top :: rest).IsChain fun upper lower =>
      Relation.TransGen (Feeds graph.dependenciesOf) upper.key lower.key :=
    walking.chain.imp fun _ _ hr => .single hr
  have trans : IsTrans Frame fun upper lower =>
      Relation.TransGen (Feeds graph.dependenciesOf) upper.key lower.key :=
    ⟨fun _ _ _ a b => a.trans b⟩
  exact (pairwise_cons.mp chain.pairwise).1

/-- A dependency that is met on the path depends on itself. -/
theorem cycle
    (walking : Walking graph within [] (⟨key, dependency :: pending⟩ :: rest) visited listed)
    (unlisted : dependency ∉ listed) (seen : dependency ∈ visited) :
    Relation.TransGen (Feeds graph.dependenciesOf) dependency dependency := by
  have onPath := ((walking.mem_visited dependency).mp seen).resolve_left unlisted
  rcases mem_cons.mp onPath with e | below
  · have self : dependency = key := e
    exact .single (self ▸ walking.reads)
  · obtain ⟨frame, mem, e⟩ := List.mem_map.mp below
    have path := walking.feeds frame mem
    rw [e] at path
    exact .head walking.reads path

/-- When nothing is left on the path, what a visited key depends on has been visited. -/
theorem mem_visited_of_path {start : NodeKey} (walking : Walking graph within [] [] visited listed)
    (seen : start ∈ visited)
    (path : Relation.ReflTransGen (Feeds graph.dependenciesOf) key start) : key ∈ visited := by
  have listedIff : ∀ key, key ∈ visited ↔ key ∈ listed.reverse := fun key => by
    simpa using walking.mem_visited key
  induction path using Relation.ReflTransGen.head_induction_on with
  | refl => exact seen
  | head hr _ r =>
    have earlier := walking.topological.before _ ((listedIff _).mp r) _ hr
    exact (listedIff _).mpr (earlier.subset mem_cons_self)

end Walking

/-! ## What the walk leaves behind -/

/-- What a walk leaves behind: no path, and everything visited is listed. It gives up at a key that
depends on itself. -/
def Walked (graph : DependencyGraph) (within : NodeKey → Prop) (before : List NodeKey) :
    Except NodeKey (List NodeKey × List NodeKey) → Prop
  | .ok (visited, listed) => Walking graph within [] [] visited listed ∧ before ⊆ visited
  | .error key => within key ∧ Relation.TransGen (Feeds graph.dependenciesOf) key key

theorem Walked.weaken {pre : List NodeKey} {outcome : Except NodeKey (List NodeKey × List NodeKey)}
    (walked : Walked graph within more outcome) (subset : pre ⊆ more) : Walked graph within pre
    outcome := by
  cases outcome with
  | ok res => exact ⟨walked.1, List.Subset.trans subset walked.2⟩
  | error key => exact walked

/-- No path leads from the key to one that the walk starts from. -/
def Stray (graph : DependencyGraph) (roots : List NodeKey) (key : NodeKey) : Prop :=
  ∀ start ∈ roots ++ graph.sinks, ¬ Relation.ReflTransGen (Feeds graph.dependenciesOf) key start

/-- What can come of a depth-first order. -/
def Ordered (graph : DependencyGraph) (within : NodeKey → Prop) (roots : List NodeKey) :
    Except NodeKey ProcessingOrder → Prop
  | .ok order => IsTopological graph.dependenciesOf order.toList ∧
      (∀ key ∈ order.toList, within key) ∧ graph.keys ⊆ order.toList
  | .error key => within key ∧ Relation.TransGen (Feeds graph.dependenciesOf) key key ∨
      key ∈ graph.keys ∧ graph.Stray roots key

section Closed

variable (closed : ∀ key, within key → ∀ dependency ∈ graph.dependenciesOf key, within dependency)
include closed

variable {visited listed : List NodeKey}

theorem walk_walked {path : List Frame} (walking : Walking graph within [] path visited listed) : Walked
    graph within visited (graph.walk path visited listed) := by
  fun_induction walk graph path visited listed with
  | case1 visited listed => exact ⟨walking, List.Subset.refl _⟩
  | case2 visited listed key rest ih => exact ih walking.leave
  | case3 visited listed key dependency pending rest kn ih => exact ih (walking.next (.inl kn))
  | case4 visited listed key dependency pending rest unlisted seen =>
    exact ⟨walking.inside dependency seen, walking.cycle unlisted seen⟩
  | case5 visited listed key dependency pending rest unlisted fr ih =>
    have seen : key ∈ visited := (walking.mem_visited key).mpr (.inr mem_cons_self)
    have inside := closed key (walking.inside key seen) dependency walking.reads
    have expecting := walking.next (.inr (mem_singleton_self dependency))
    refine (ih (expecting.push fr inside ?_)).weaken (subset_cons_self _ _)
    rintro _ ⟨⟩
    exact walking.reads

theorem walkAll_walked {starts : List NodeKey} (walking : Walking graph within [] [] visited listed)
    (inside : ∀ key ∈ starts, within key) : Walked graph within (starts ++ visited) (graph.walkAll starts
    visited listed) := by
  induction starts generalizing visited listed with
  | nil => exact ⟨walking, List.Subset.refl _⟩
  | cons start rest ih =>
    have later : ∀ key ∈ rest, within key := fun key mem =>
      inside key (mem_cons_of_mem _ mem)
    rw [walkAll]
    split
    · next seen =>
      refine (ih walking later).weaken (cons_subset.mpr ⟨?_, List.Subset.refl _⟩)
      exact mem_append_right _ seen
    · next fr =>
      have expecting : Walking graph within [start] [] visited listed :=
        { walking with awaits := trivial }
      have walked := walk_walked closed (expecting.push fr (inside start mem_cons_self) (by simp))
      cases res : graph.walk [graph.enter start] (start :: visited) listed with
      | error key =>
        rw [res] at walked
        exact walked
      | ok reached =>
        rw [res] at walked
        obtain ⟨here, kept⟩ := cons_subset.mp walked.2
        refine (ih walked.1 later).weaken (cons_subset.mpr ⟨?_, ?_⟩)
        · exact mem_append_right _ here
        · exact append_subset.mpr ⟨subset_append_left _ _,
            List.Subset.trans kept (subset_append_right _ _)⟩

/-- **What comes of a depth-first order:** a topological list of all keys, or a key on a cycle, or a
key that no walk leads to. -/
theorem depthFirst_ordered (rootsInside : ∀ key ∈ roots, within key)
    (keysInside : ∀ key ∈ graph.keys, within key) :
    graph.Ordered within roots (graph.depthFirst roots) := by
  have inside : ∀ key ∈ roots ++ graph.sinks, within key := fun key mem =>
    (mem_append.mp mem).elim (rootsInside key) fun sink =>
      keysInside key (mem_filter.mp sink).1
  have walked := walkAll_walked closed (.initial graph within) inside
  rw [depthFirst]
  cases res : graph.walkAll (roots ++ graph.sinks) [] [] with
  | error key =>
    rw [res] at walked
    exact .inl walked
  | ok reached =>
    obtain ⟨visited, listed⟩ := reached
    rw [res] at walked
    obtain ⟨walking, met⟩ := walked
    have listedIff : ∀ key, key ∈ visited ↔ key ∈ listed.reverse := fun key => by
      simpa using walking.mem_visited key
    cases missing : graph.keys.find? (· ∉ visited) with
    | some stray =>
      simp only [bind, Except.bind, missing]
      refine .inr ⟨mem_of_find?_eq_some missing, fun start mem path => ?_⟩
      have unseen : stray ∉ visited := by simpa using find?_some missing
      exact unseen (walking.mem_visited_of_path (met (mem_append_left _ mem)) path)
    | none =>
      simp only [bind, Except.bind, missing]
      refine ⟨walking.topological, fun key mem =>
        walking.inside key ((listedIff key).mpr mem), fun key mem => ?_⟩
      have seen := find?_eq_none.mp missing key mem
      exact (listedIff key).mp (by simpa using seen)

end Closed

/-! ## Cycles -/

/-- **Above a stray key there is a cycle:** everything that uses it is stray and used itself. -/
theorem Stray.exists_cycle (stray : graph.Stray roots key) (listed : key ∈ graph.keys) (users : ∀ key ∈
    graph.keys, ∀ user ∈ graph.users key, key ∈ graph.dependenciesOf user) : ∃ looped,
    Relation.ReflTransGen (Feeds graph.dependenciesOf) key looped ∧ Relation.TransGen (Feeds
    graph.dependenciesOf) looped looped := by
  by_contra! open_ended
  -- Among the finitely many keys that the stray one leads to, one would lead to no other.
  let above : {key // key ∈ graph.keys} → {key // key ∈ graph.keys} → Prop := fun later earlier =>
    Relation.ReflTransGen (Feeds graph.dependenciesOf) key earlier.val ∧
      Relation.TransGen (Feeds graph.dependenciesOf) earlier.val later.val
  have trans : IsTrans _ above := ⟨fun _ _ _ a b => ⟨b.1, b.2.trans a.2⟩⟩
  have irrefl : Std.Irrefl above := ⟨fun _ loop => open_ended _ loop.1 loop.2⟩
  obtain ⟨last, leads, greatest⟩ := (Finite.wellFounded_of_trans_of_irrefl above).has_min
    {o | Relation.ReflTransGen (Feeds graph.dependenciesOf) key o.val} ⟨⟨key, listed⟩, .refl⟩
  have used : graph.users last.val ≠ [] := fun none =>
    stray last.val (mem_append_right _ (mem_filter.mpr ⟨last.property, by simp [none]⟩)) leads
  obtain ⟨user, mem⟩ := exists_mem_of_ne_nil _ used
  have hr := users last.val last.property user mem
  exact greatest ⟨user, mem_keys_of_feeds hr⟩ (leads.tail hr) ⟨leads, .single hr⟩

/-- What the report of a key says. -/
structure Implicates (graph : DependencyGraph) (roots : List NodeKey) (key : NodeKey) : Prop where
  /-- The key leads to a cycle. -/
  leads : ∃ looped, Relation.ReflTransGen (Feeds graph.dependenciesOf) key looped ∧
    Relation.TransGen (Feeds graph.dependenciesOf) looped looped
  /-- It lies on one when a walk leads to it. -/
  looped : ∀ start ∈ roots ++ graph.sinks, Relation.ReflTransGen (Feeds graph.dependenciesOf) key start →
    Relation.TransGen (Feeds graph.dependenciesOf) key key

/-- Whatever the roots are, the key at which the depth-first order gives up leads to a cycle. -/
theorem implicates_of_error
    (users : ∀ key ∈ graph.keys, ∀ user ∈ graph.users key, key ∈ graph.dependenciesOf user)
    (failed : graph.depthFirst roots = .error key) : graph.Implicates roots key := by
  have ordered : graph.Ordered (fun _ => True) roots (graph.depthFirst roots) :=
    depthFirst_ordered (fun _ _ _ _ => trivial) (fun _ _ => trivial) fun _ _ => trivial
  rw [failed] at ordered
  obtain ⟨-, cycle⟩ | ⟨hl, stray⟩ := ordered
  · exact ⟨⟨key, .refl, cycle⟩, fun _ _ _ => cycle⟩
  · exact ⟨stray.exists_cycle hl users, fun start mem path => absurd path (stray start mem)⟩

section Keys

variable (closed : ∀ key ∈ graph.keys, graph.dependencies key ⊆ graph.keys)
include closed

theorem dependenciesOf_closed : ∀ key, key ∈ graph.keys →
    ∀ dependency ∈ graph.dependenciesOf key, dependency ∈ graph.keys :=
  fun key listed _ hr => closed key listed (graph.dependenciesOf_subset key hr)

/-- **The depth-first order is topological and lists exactly the keys of the graph.** -/
theorem depthFirst_isTopological {order : ProcessingOrder}
    (inside : roots ⊆ graph.keys) (hk : graph.depthFirst roots = .ok order) :
    IsTopological graph.dependenciesOf order.toList ∧
      ∀ key, key ∈ order.toList ↔ key ∈ graph.keys := by
  have ordered := depthFirst_ordered (dependenciesOf_closed closed) inside fun _ listed => listed
  rw [hk] at ordered
  exact ⟨ordered.1, fun key => ⟨ordered.2.1 key, fun mem => ordered.2.2 mem⟩⟩

/-- The key at which the depth-first order gives up is a key of the graph. -/
theorem depthFirst_error_mem {key : NodeKey}
    (inside : roots ⊆ graph.keys) (failed : graph.depthFirst roots = .error key) :
    key ∈ graph.keys := by
  have ordered := depthFirst_ordered (dependenciesOf_closed closed) inside fun _ listed => listed
  rw [failed] at ordered
  exact ordered.elim And.left And.left

end Keys

theorem acyclic_dependenciesOf (acyclic : Acyclic graph.dependencies) :
    Acyclic graph.dependenciesOf := fun key path =>
  acyclic key (Relation.TransGen.mono (fun _ r hr => graph.dependenciesOf_subset r hr)
    _ _ path)

/-- A graph that hangs together: no key twice, dependencies are keys, and the users of a key are the
keys that depend on it. -/
structure WellFormed (graph : DependencyGraph) : Prop where
  nodup : graph.keys.Nodup
  closed : ∀ key ∈ graph.keys, graph.dependencies key ⊆ graph.keys
  mem_users : ∀ key ∈ graph.keys, ∀ user,
    user ∈ graph.users key ↔ user ∈ graph.keys ∧ key ∈ graph.dependencies user

namespace WellFormed

variable (wellFormed : graph.WellFormed)
include wellFormed

theorem feeds_of_user : ∀ key ∈ graph.keys, ∀ user ∈ graph.users key,
    key ∈ graph.dependenciesOf user := by
  intro key listed user uses
  obtain ⟨inKeys, hr⟩ := (wellFormed.mem_users key listed user).mp uses
  rwa [dependenciesOf_of_mem inKeys]

/-- **The depth-first order of an acyclic graph exists,** whatever the roots are. -/
theorem exists_depthFirst (acyclic : Acyclic graph.dependenciesOf) (roots : List NodeKey) :
    ∃ order, graph.depthFirst roots = .ok order := by
  cases res : graph.depthFirst roots with
  | ok order => exact ⟨order, rfl⟩
  | error key =>
    obtain ⟨looped, -, cycle⟩ := (implicates_of_error wellFormed.feeds_of_user res).leads
    exact absurd cycle (acyclic looped)

/-- Keys of an acyclic graph that are closed under dependencies have a topological arrangement. -/
theorem exists_isTopological (acyclic : Acyclic graph.dependenciesOf) {ks : List NodeKey}
    (inside : ks ⊆ graph.keys) (closed : ∀ key ∈ ks, graph.dependencies key ⊆ ks) :
    ∃ arranged, IsTopological graph.dependencies arranged ∧ ∀ key, key ∈ arranged ↔ key ∈ ks := by
  obtain ⟨order, hk⟩ := wellFormed.exists_depthFirst acyclic []
  obtain ⟨topological, listed⟩ := depthFirst_isTopological wellFormed.closed (nil_subset _) hk
  have mem : ∀ key, key ∈ order.toList.filter (· ∈ ks) ↔ key ∈ ks := fun key => by
    rw [mem_filter, listed, decide_eq_true_iff]
    exact and_iff_right_of_imp fun h => inside h
  refine ⟨order.toList.filter (· ∈ ks), ⟨topological.nodup.filter _, ?_⟩, mem⟩
  intro key kept dependency hr
  have h := (mem key).mp kept
  rw [← dependenciesOf_of_mem (inside h)] at hr
  have pair := (topological.before key ((listed key).mpr (inside h)) dependency hr).filter (· ∈ ks)
  have read : dependency ∈ ks := closed key h (graph.dependenciesOf_subset key hr)
  simpa [h, read] using pair

end WellFormed

/-- The graph of some lists hangs together when they list positions. -/
theorem wellFormed_ofLists (inside : ∀ list ∈ lists, ∀ key ∈ list, key < lists.length) : (ofLists
    lists).WellFormed where
  nodup := nodup_range
  closed key _ dependency hr := by
    obtain ⟨list, hk, mem⟩ : ∃ list, lists[key]? = some list ∧ dependency ∈ list := by
      cases hk : lists[key]? with
      | none => simp [ofLists, hk] at hr
      | some list => exact ⟨list, rfl, by simpa [ofLists, hk] using hr⟩
    exact mem_range.mpr (inside list (mem_of_getElem? hk) dependency mem)
  mem_users key _ user := by simp [ofLists]

theorem lt_of_mem_ofLists (earlier : ∀ key < lists.length, ∀ dependency ∈ lists[key]?.getD [], dependency
    < key) : ∀ key, ∀ dependency ∈ (ofLists lists).dependencies key, dependency < key := by
  intro key dependency hr
  by_cases inside : key < lists.length
  · exact earlier key inside dependency hr
  · simp [ofLists, getElem?_eq_none (Nat.le_of_not_lt inside)] at hr

/-- The graph of lists of earlier positions is acyclic. -/
theorem acyclic_ofLists (earlier : ∀ key < lists.length, ∀ dependency ∈ lists[key]?.getD [], dependency <
    key) : Acyclic (ofLists lists).dependencies := fun _ path =>
  Nat.lt_irrefl _ (lt_of_transGen (lt_of_mem_ofLists earlier) path)

/-- **A depth-first order is found exactly when there is no cycle.** It lists every key once, and every
dependency before its user. When there is a cycle, the order stays what it was. -/
theorem depthFirst_exactly_without_cycles (wellFormed : graph.WellFormed) (roots : List NodeKey)
    (inside : roots ⊆ graph.keys) (previous : ProcessingOrder) :
    ((∃ order, graph.orderDepthFirst roots previous = .ok () order) ↔
      Acyclic graph.dependenciesOf) ∧
    (∀ order, graph.orderDepthFirst roots previous = .ok () order →
      order.toList.Perm graph.keys ∧ IsTopological graph.dependencies order.toList) ∧
    ∀ key order, graph.orderDepthFirst roots previous = .error key order → order = previous := by
  rw [orderDepthFirst]
  cases result : graph.depthFirst roots with
  | error key =>
      refine ⟨⟨?_, fun acyclic => ?_⟩, ?_, ?_⟩
      · rintro ⟨_, found⟩
        cases found
      · obtain ⟨order, found⟩ := wellFormed.exists_depthFirst acyclic roots
        cases result.symm.trans found
      · intro _ found
        cases found
      · intro _ _ failed
        cases failed
        rfl
  | ok order =>
      obtain ⟨topological, listed⟩ := depthFirst_isTopological wellFormed.closed inside result
      have before : ∀ key, ∀ dependency ∈ graph.dependenciesOf key,
          [dependency, key].Sublist order.toList := fun key dependency reads =>
        topological.before key ((listed key).mpr (mem_keys_of_feeds reads)) dependency reads
      refine ⟨⟨fun _ => acyclic_of_before topological.nodup before, fun _ => ⟨order, rfl⟩⟩, ?_,
        fun _ _ failed => by cases failed⟩
      intro _ found
      cases found
      refine ⟨(List.perm_ext_iff_of_nodup topological.nodup wellFormed.nodup).mpr listed,
        topological.nodup, fun key member dependency reads => before key dependency ?_⟩
      rwa [dependenciesOf_of_mem ((listed key).mp member)]

/-- A key is read twice, and a root is given twice. -/
theorem depthFirst_exactly_without_cycles_readTwice :
    (ofLists [[], [0, 0], [0], [1, 2]]).WellFormed ∧
      ∃ order, (ofLists [[], [0, 0], [0], [1, 2]]).orderDepthFirst [3, 3] ⟨[2, 0]⟩ = .ok () order ∧
        order.toList.Perm [0, 1, 2, 3] := by
  have wellFormed : (ofLists [[], [0, 0], [0], [1, 2]]).WellFormed := wellFormed_ofLists (by decide)
  obtain ⟨found, lists, -⟩ :=
    depthFirst_exactly_without_cycles wellFormed [3, 3] (by decide) ⟨[2, 0]⟩
  obtain ⟨order, result⟩ := found.mpr (acyclic_dependenciesOf (acyclic_ofLists (by decide)))
  exact ⟨wellFormed, order, result, (lists order result).1⟩

end LayerGraph.DependencyGraph
