import LayerGraph.Proofs.Order.Levels

/-!
# Breadth-first orders are reproducible

A breadth-first order depends on what depends on what, and on nothing else: not on the order in which
dependencies and users are listed, not on repetitions of dependencies, and not on the order in which
the missing dependencies of a key are gone through when it has to wait for them.

Turns are taken by level, and levels are least numbers of hops, which no list can reorder
(`SameRelation.turns`). When a key waits for several dependencies, it is put down once with each of
them. So those who wait for one key stand in the order of their turns, whichever of its dependencies a
waiting key was put down with first (`Turn.Agrees`).
-/

namespace LayerGraph

open List

section Rank

variable {α : Type} {rank other : α → Nat}

theorem insertByRank_congr {x : α} {xs : List α}
    (same : ∀ y ∈ xs, rank x ≤ rank y ↔ other x ≤ other y) :
    insertByRank rank x xs = insertByRank other x xs := by
  induction xs with
  | nil => rfl
  | cons head tail ih =>
    rw [insertByRank, insertByRank, ih fun y mem => same y (mem_cons_of_mem _ mem)]
    simp only [same head mem_cons_self]

/-- Ranks matter only for how they compare. -/
theorem sortByRank_congr {xs : List α}
    (same : ∀ x ∈ xs, ∀ y ∈ xs, rank x ≤ rank y ↔ other x ≤ other y) :
    sortByRank rank xs = sortByRank other xs := by
  induction xs with
  | nil => rfl
  | cons head tail ih =>
    rw [sortByRank, sortByRank,
      ih fun x inTail y mem => same x (mem_cons_of_mem _ inTail) y (mem_cons_of_mem _ mem)]
    refine insertByRank_congr fun y mem => same head mem_cons_self y (mem_cons_of_mem _ ?_)
    exact (perm_sortByRank other tail).mem_iff.mp mem

end Rank

namespace DependencyGraph

/-- The same keys in the same order, and the same dependencies and users of each, listed in any order
and with any repetitions. -/
structure SameRelation (one two : DependencyGraph) : Prop where
  keys : one.keys = two.keys
  dependencies : ∀ key other, other ∈ one.dependencies key ↔ other ∈ two.dependencies key
  users : ∀ key other, other ∈ one.users key ↔ other ∈ two.users key

variable {one two : DependencyGraph} {ks : List NodeKey} {k : NodeKey} {count : Nat}

/-! ## Levels -/

/-- There are more keys with a level than levels. -/
theorem level_lt_length (known : levelOf? (one.levels ks) k = some count) :
    count < (one.levels ks).length := by
  obtain ⟨⟨_, spreading⟩, -⟩ := one.levels_spreading ks
  exact spreading.short.1 _ (mem_of_lookup known)

namespace SameRelation

theorem symm (same : SameRelation one two) : SameRelation two one where
  keys := same.keys.symm
  dependencies key other := (same.dependencies key other).symm
  users key other := (same.users key other).symm

theorem away (same : SameRelation one two) (away : Away one ks count k) : Away two ks count k := by
  induction away with
  | @source key mem none =>
    refine .source mem (eq_nil_iff_forall_not_mem.mpr fun other reads => ?_)
    exact not_mem_nil (none ▸ (same.dependencies key other).mpr reads)
  | step _ uses listed ih => exact ih.step ((same.users _ _).mp uses) (same.keys ▸ listed)

theorem levelOf?_eq (same : SameRelation one two) (ks : List NodeKey) (k : NodeKey) :
    levelOf? (one.levels ks) k = levelOf? (two.levels ks) k := by
  refine Option.ext fun level => ?_
  have counts : {count | Away one ks count k} = {count | Away two ks count k} :=
    Set.ext fun count => ⟨same.away, same.symm.away⟩
  rw [levelOf?_levels, levelOf?_levels, counts]

/-- The order of the turns depends on the relation only. -/
theorem turns (same : SameRelation one two) (ks : List NodeKey) : one.turns ks = two.turns ks := by
  refine sortByRank_congr fun x _ y _ => ?_
  rw [same.levelOf?_eq ks x, same.levelOf?_eq ks y]
  -- Who has no level comes after everybody who has one, by either number that stands for it.
  have small : ∀ {k level}, levelOf? (two.levels ks) k = some level →
      level < (one.levels ks).length ∧ level < (two.levels ks).length := fun known =>
    ⟨level_lt_length ((same.levelOf?_eq ks _).trans known), level_lt_length known⟩
  cases first : levelOf? (two.levels ks) x with
  | none =>
    cases second : levelOf? (two.levels ks) y with
    | none => simp
    | some level =>
      have bounds := small second
      simp only [Option.getD_none, Option.getD_some]
      omega
  | some level =>
    have bounds := small first
    cases second : levelOf? (two.levels ks) y with
    | none =>
      simp only [Option.getD_none, Option.getD_some]
      omega
    | some other => rfl

end SameRelation

/-! ## Turns -/

namespace Turn

variable {turn a b : Turn} {key other : NodeKey} {absent missing : List NodeKey}

/-- Lists a key, or lets it wait for its absent dependencies, which are gone through in turn. -/
def await (turn : Turn) (key : NodeKey) (absent : List NodeKey) : Turn :=
  if absent.isEmpty then (turn.list key).release (turn.waitingFor key)
  else
    { turn with
      missing := (key, absent.length) :: turn.missing
      waiting := turn.waiting ++ absent.map fun dependency => (dependency, key) }

/-- The turn of a key whose dependencies are gone through as `arrange` has it. -/
def takeBy (arrange : Turn → NodeKey → List NodeKey → List NodeKey) (graph : DependencyGraph)
    (turn : Turn) (key : NodeKey) : Turn :=
  turn.await key ((arrange turn key (graph.dependencies key)).filter (· ∉ turn.listed))

/-- The same keys are listed, and for every key the same ones wait in the same order. -/
structure Agrees (first second : Turn) : Prop where
  listed : first.listed = second.listed
  missing : first.missing = second.missing
  waitingFor : ∀ key, first.waitingFor key = second.waitingFor key

theorem waitingFor_list (turn : Turn) (key other : NodeKey) :
    (turn.list key).waitingFor other = if other = key then [] else turn.waitingFor other := by
  simp only [waitingFor, list, filter_filter]
  split
  · next e =>
    subst e
    simp
  · next ne =>
    congr 2
    funext entry
    by_cases e : entry.1 = other
    · simp [e, ne]
    · simp [e]

/-- A key that has to wait stands behind the others with each dependency that it waits for. -/
theorem waitingFor_append (turn : Turn) (key other : NodeKey) (absent : List NodeKey) :
    ({ turn with waiting := turn.waiting ++ absent.map fun dep => (dep, key) } : Turn).waitingFor other =
      turn.waitingFor other ++ replicate (absent.count other) key := by
  have same : ((fun entry : NodeKey × NodeKey => entry.1 == other) ∘ fun dep => (dep, key)) =
      (· == other) := rfl
  simp only [waitingFor, filter_append, map_append, filter_map, same, filter_beq, map_replicate]

namespace Agrees

theorem list (agrees : Agrees a b) (key : NodeKey) : Agrees (a.list key) (b.list key) where
  listed := congrArg (· ++ [key]) agrees.listed
  missing := agrees.missing
  waitingFor other := by rw [waitingFor_list, waitingFor_list, agrees.waitingFor]

theorem forget (agrees : Agrees a b) (key : NodeKey) : Agrees (a.forget key) (b.forget key) where
  listed := agrees.listed
  missing := by rw [Turn.forget, agrees.missing, Turn.forget]
  waitingFor := agrees.waitingFor

theorem countDown (agrees : Agrees a b) (key : NodeKey) :
    Agrees (a.countDown key) (b.countDown key) where
  listed := agrees.listed
  missing := congrArg (map _) agrees.missing
  waitingFor := agrees.waitingFor

/-- Those who are told are told in the same order. -/
theorem release (agrees : Agrees a b) (told : List NodeKey) :
    Agrees (a.release told) (b.release told) := by
  fun_induction Turn.release a told generalizing b with
  | case1 turn =>
    rw [Turn.release]
    exact agrees
  | case2 turn key rest ha ih =>
    rw [agrees.missing] at ha
    rw [Turn.release.eq_def b]
    simp only [ha]
    exact ih agrees
  | case3 turn key rest count hf last ih =>
    rw [agrees.missing] at hf
    rw [Turn.release.eq_def b]
    simp only [hf, last, if_true]
    have forgotten := agrees.forget key
    rw [← forgotten.waitingFor key]
    exact ih (forgotten.list key)
  | case4 turn key rest count hf more ih =>
    rw [agrees.missing] at hf
    rw [Turn.release.eq_def b]
    simp only [hf, more, if_false]
    exact ih (agrees.countDown key)

theorem await (agrees : Agrees a b) (key : NodeKey) (perm : absent.Perm missing) :
    Agrees (a.await key absent) (b.await key missing) := by
  rw [Turn.await, Turn.await, perm.isEmpty_eq]
  split
  · rw [agrees.waitingFor key]
    exact (agrees.list key).release _
  · refine ⟨agrees.listed, ?_, fun other => ?_⟩
    · simp only [perm.length_eq, agrees.missing]
    · refine (waitingFor_append a key other absent).trans ?_
      rw [agrees.waitingFor, perm.count_eq]
      exact (waitingFor_append b key other missing).symm

end Agrees

end Turn

/-- The breadth-first order when missing dependencies are gone through as `arrange` has it. -/
def breadthFirstBy (arrange : Turn → NodeKey → List NodeKey → List NodeKey) (graph : DependencyGraph)
    (order : ProcessingOrder) : ProcessingOrder :=
  let keys := if order.isEmpty then graph.keys else order.toList
  let turn := (graph.turns keys).foldl (Turn.takeBy arrange graph) ⟨[], [], []⟩
  keys.foldl ProcessingOrder.push ⟨turn.listed⟩

/-- Every key of a list is gone through once, in some order. -/
def Enumerates (arrange : List NodeKey → List NodeKey) : Prop :=
  ∀ keys, (arrange keys).Nodup ∧ ∀ key, key ∈ arrange keys ↔ key ∈ keys

theorem nodup_eraseDups (ks : List NodeKey) : ks.eraseDups.Nodup := by
  match ks with
  | [] => exact nodup_nil
  | k :: rest =>
    rw [eraseDups_cons]
    exact nodup_cons.mpr ⟨by simp, nodup_eraseDups _⟩
termination_by ks.length
decreasing_by exact Nat.lt_succ_of_le (length_filter_le ..)

theorem enumerates_eraseDups : Enumerates List.eraseDups := fun keys =>
  ⟨nodup_eraseDups keys, fun _ => mem_eraseDups⟩

section

variable {first second : Turn → NodeKey → List NodeKey → List NodeKey}
  (byFirst : ∀ turn key, Enumerates (first turn key))
  (bySecond : ∀ turn key, Enumerates (second turn key))

include byFirst bySecond

theorem SameRelation.takeBy (same : SameRelation one two) {a b : Turn} (agrees : a.Agrees b)
    (k : NodeKey) : (Turn.takeBy first one a k).Agrees (Turn.takeBy second two b k) := by
  refine agrees.await k ?_
  obtain ⟨firstNodup, memFirst⟩ := byFirst a k (one.dependencies k)
  obtain ⟨secondNodup, memSecond⟩ := bySecond b k (two.dependencies k)
  rw [agrees.listed]
  refine ((perm_ext_iff_of_nodup firstNodup secondNodup).mpr fun dep => ?_).filter _
  rw [memFirst, memSecond, same.dependencies]

theorem SameRelation.breadthFirstBy (same : SameRelation one two) (order : ProcessingOrder) :
    one.breadthFirstBy first order = two.breadthFirstBy second order := by
  have turns : ∀ (ks : List NodeKey) {a b : Turn}, a.Agrees b →
      (ks.foldl (Turn.takeBy first one) a).Agrees (ks.foldl (Turn.takeBy second two) b) := by
    intro ks
    induction ks with
    | nil => exact id
    | cons k rest ih => exact fun agrees => ih (same.takeBy byFirst bySecond agrees k)
  have start : (Turn.mk [] [] []).Agrees (Turn.mk [] [] []) := ⟨rfl, rfl, fun _ => rfl⟩
  have agrees := turns (two.turns (if order.isEmpty then two.keys else order.toList)) start
  rw [DependencyGraph.breadthFirstBy, DependencyGraph.breadthFirstBy, same.keys, same.turns,
    agrees.listed]

end

/-- Dependencies and users are listed backwards, dependencies twice. -/
def relisted (graph : DependencyGraph) : DependencyGraph where
  keys := graph.keys
  dependencies key := (graph.dependencies key).reverse ++ graph.dependencies key
  users key := (graph.users key).reverse

end DependencyGraph

end LayerGraph
