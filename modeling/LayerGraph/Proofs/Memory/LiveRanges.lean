import LayerGraph.Proofs.Memory.Strategies

/-!
# Live ranges

When nodes run in processing order, a buffer is needed from the position of its owner on: up to the last
position at which it is read, or to the end of the order when an output lies in it (`Program.LiveRange`).
It is read by the readers of its owner, and behind those that run in place by their readers
(`Program.UsesBuffer`).

The strategies for such a queue look at the earlier of two buffers only and ask whether it is still needed
when the later one starts. This notes exactly the pairs whose live ranges have a position in common
(`Program.noted_exactly_where_ranges_meet`).
-/

namespace LayerGraph.Program

open List Option Buffer

variable {p : Program} {key user first second : NodeKey} {n : Node} {skipInPlace : Bool}
  {place position : Nat}

/-- A node reads the buffer of another one, directly or behind nodes that run in place on it. The basic
strategy does not look behind such nodes. -/
inductive UsesBuffer (program : Program) (skipInPlace : Bool) (owner : NodeKey) : NodeKey → Prop
  | direct {user : NodeKey} (reads : owner ∈ program.dependencies user) :
      UsesBuffer program skipInPlace owner user
  | behind {middle user : NodeKey} (through : UsesBuffer program skipInPlace owner middle)
      (inPlace : program.aliases skipInPlace middle) (reads : middle ∈ program.dependencies user) :
      UsesBuffer program skipInPlace owner user

/-- An output lies in the buffer of a node. -/
def HoldsOutput (program : Program) (skipInPlace : Bool) (owner : NodeKey) : Prop :=
  program.isOutput owner ∨ ∃ user, program.UsesBuffer skipInPlace owner user ∧
    program.aliases skipInPlace user ∧ program.isOutput user

/-- The positions at which the buffer of a node is needed, given by the first and the last of them. -/
structure LiveRange (program : Program) (skipInPlace : Bool) (owner : NodeKey) (start stop : Nat) :
    Prop where
  starts : program.order.position? owner = some start
  kept : program.HoldsOutput skipInPlace owner → stop = program.order.size
  read : ¬ program.HoldsOutput skipInPlace owner → IsGreatest
    {position | position = start ∨ ∃ reader, program.UsesBuffer skipInPlace owner reader ∧
      ¬ program.aliases skipInPlace reader ∧ program.order.position? reader = some position} stop

/-- The buffer of a node is needed at a position. -/
def LiveAt (program : Program) (skipInPlace : Bool) (owner : NodeKey) (position : Nat) : Prop :=
  ∃ start stop, program.LiveRange skipInPlace owner start stop ∧ start ≤ position ∧ position ≤ stop

/-- The id of a node is noted with another one. -/
def NotedWith (program : Program) (key other : NodeKey) : Prop :=
  ∃ node mate, program.node? key = some node ∧ program.node? other = some mate ∧
    mate.id ∈ node.conflicts

/-! ## Collected readers -/

/-- The users that are collected for a buffer are its users. -/
theorem Consistent.collected_iff (wf : p.Consistent) :
    user ∈ p.bufferUsers skipInPlace key ↔ p.UsesBuffer skipInPlace key user := by
  constructor
  · intro mem
    obtain none | ⟨start, isUser, path⟩ := path_of_mem_reach mem
    · cases none
    · clear mem
      induction path with
      | refl => exact .direct (mem_users_iff.mp isUser)
      | @tail middle last _ leads ih =>
        split at leads
        · next inPlace => exact .behind ih inPlace (mem_users_iff.mp leads)
        · cases leads
  · intro uses
    induction uses with
    | direct reads => exact (subset_reach _ _ _ _).1 (mem_users_iff.mpr reads)
    | @behind middle user _ inPlace reads ih =>
      have listed := wf.mem_keys.mpr (wf.reads_live user middle reads).1
      have next := reach_closed _ _ _ middle ih listed
      rw [if_pos inPlace] at next
      exact next (mem_users_iff.mpr reads)

/-- The end of a range of numbers is the start or one of them. -/
theorem foldl_max_mem (numbers : List Nat) (start : Nat) :
    numbers.foldl max start = start ∨ numbers.foldl max start ∈ numbers := by
  induction numbers generalizing start with
  | nil => exact .inl rfl
  | cons head tail ih =>
    rw [foldl_cons]
    rcases ih (max start head) with isMax | later
    · rw [isMax, mem_cons]
      rcases Nat.le_total head start with smaller | larger
      · exact .inl (Nat.max_eq_left smaller)
      · exact .inr (.inl (Nat.max_eq_right larger))
    · exact .inr (mem_cons_of_mem _ later)

theorem LiveRange.unique {start stop last : Nat} (range : p.LiveRange skipInPlace key start stop)
    (other : p.LiveRange skipInPlace key place last) : start = place ∧ stop = last := by
  cases range.starts.symm.trans other.starts
  refine ⟨rfl, ?_⟩
  by_cases holds : p.HoldsOutput skipInPlace key
  · rw [range.kept holds, other.kept holds]
  · exact (range.read holds).unique (other.read holds)

section Ranges

variable (wf : p.Consistent) (skipInPlace : Bool) (hk : p.node? key = some n)
  (placed : p.order.position? key = some place)

include wf hk

theorem Consistent.isKept_iff (position : Nat) :
    (p.bufferOf skipInPlace position key n).isKept ↔ p.HoldsOutput skipInPlace key := by
  have own : p.isOutput key ↔ n.isOutput := by rw [isOutput, hk, any_some]
  simp only [bufferOf, Bool.or_eq_true, List.any_eq_true, Bool.and_eq_true, wf.collected_iff,
    HoldsOutput, own]
  rfl

include placed

/-- **A buffer is collected with its live range.** -/
theorem Consistent.liveRange_bufferOf :
    p.LiveRange skipInPlace key place (p.bufferOf skipInPlace place key n).stop := by
  have kept := wf.isKept_iff skipInPlace hk place
  simp only [bufferOf] at kept ⊢
  refine ⟨placed, fun holds => if_pos (kept.mpr holds), fun released => ?_⟩
  rw [if_neg fun isKept => released (kept.mp isKept)]
  have readers : ∀ position, position ∈ ((p.bufferUsers skipInPlace key).filter fun user =>
      !p.aliases skipInPlace user).filterMap p.order.position? ↔
      ∃ reader, p.UsesBuffer skipInPlace key reader ∧ ¬ p.aliases skipInPlace reader ∧
        p.order.position? reader = some position := by
    intro position
    simp only [mem_filterMap, mem_filter, wf.collected_iff, Bool.not_eq_true', and_assoc,
      Bool.not_eq_true]
  constructor
  · exact (foldl_max_mem _ place).imp_right (readers _).mp
  · rintro position (rfl | isRead)
    · exact (le_foldl_max _ position).1
    · exact (le_foldl_max _ place).2 position ((readers position).mpr isRead)

theorem Consistent.liveAt_iff : p.LiveAt skipInPlace key position ↔
    place ≤ position ∧ position ≤ (p.bufferOf skipInPlace place key n).stop := by
  have range := wf.liveRange_bufferOf skipInPlace hk placed
  constructor
  · rintro ⟨start, stop, other, inside⟩
    obtain ⟨rfl, rfl⟩ := other.unique range
    exact inside
  · exact fun inside => ⟨_, _, range, inside⟩

end Ranges

/-! ## What is noted -/

/-- Two owners are compared when their live ranges have a position in common, whichever starts first. -/
theorem Sound.paired_iff_liveAt (sound : p.Sound) {one mate : Node} (foundFirst : p.node? first = some one)
    (foundSecond : p.node? second = some mate) (ne : first ≠ second) :
    Paired (ownersInConflict overlaps (p.ownBuffers skipInPlace)) first second ↔
      p.countsAsOwner skipInPlace first ∧ p.countsAsOwner skipInPlace second ∧
        ∃ position, p.LiveAt skipInPlace first position ∧ p.LiveAt skipInPlace second position := by
  obtain ⟨place, placed⟩ := sound.complete.exists_position (contains_of_node? foundFirst)
  obtain ⟨position, placedToo⟩ := sound.complete.exists_position (contains_of_node? foundSecond)
  have apart : place ≠ position := by
    rintro rfl
    exact ne ((idxOf?_eq_some_iff.mp placed).2.1.symm.trans (idxOf?_eq_some_iff.mp placedToo).2.1)
  have starts := fun {key place} (n : Node) (placed : p.order.position? key = some place) =>
    start_le_stop (Nat.le_of_lt (idxOf?_eq_some_iff.mp placed).1) skipInPlace key n
  have startsFirst := starts one placed
  have startsSecond := starts mate placedToo
  have earlier : (p.bufferOf skipInPlace place first one).start = place := rfl
  have later : (p.bufferOf skipInPlace position second mate).start = position := rfl
  rw [Paired, mem_ownersInConflict_iff sound.complete.nodup foundFirst foundSecond placed placedToo,
    mem_ownersInConflict_iff sound.complete.nodup foundSecond foundFirst placedToo placed]
  simp only [sound.consistent.liveAt_iff skipInPlace foundFirst placed, overlaps, earlier, later,
    sound.consistent.liveAt_iff skipInPlace foundSecond placedToo, decide_eq_true_eq]
  constructor
  · rintro (⟨⟨counts, countsToo⟩, before, reached⟩ | ⟨⟨countsToo, counts⟩, behind, reached⟩)
    · exact ⟨counts, countsToo, position, ⟨Nat.le_of_lt before, reached⟩, Nat.le_refl _, startsSecond⟩
    · exact ⟨counts, countsToo, place, ⟨Nat.le_refl _, startsFirst⟩, Nat.le_of_lt behind, reached⟩
  · rintro ⟨counts, countsToo, common, inFirst, inSecond⟩
    rcases Nat.lt_or_gt_of_ne apart with before | behind
    · exact .inl ⟨⟨counts, countsToo⟩, before, inSecond.1.trans inFirst.2⟩
    · exact .inr ⟨⟨countsToo, counts⟩, behind, inFirst.1.trans inSecond.2⟩

/-- Nodes are noted with each other exactly where their live ranges meet. -/
theorem Sound.notedWith_iff (sound : p.Sound) : (p.clearConflicts.noteConflicts
      (ownersInConflict overlaps (p.ownBuffers skipInPlace))).NotedWith first second ↔
    first ≠ second ∧ p.countsAsOwner skipInPlace first ∧ p.countsAsOwner skipInPlace second ∧
      ∃ position, p.LiveAt skipInPlace first position ∧ p.LiveAt skipInPlace second position := by
  have noted := fun {key n} (hk : p.node? key = some n) => sound.exists_noted_iff
    (ownersInConflict overlaps (p.ownBuffers skipInPlace)) hk
  have before := (noted_noteConflicts p (ownersInConflict overlaps
    (p.ownBuffers skipInPlace))).annotated
  constructor
  · rintro ⟨node, mate, foundFirst, foundSecond, mem⟩
    obtain ⟨one, foundOne, -⟩ := before.node? foundFirst
    obtain ⟨other, foundOther, core⟩ := before.node? foundSecond
    obtain ⟨after, foundAfter, -, iff⟩ := noted foundOne
    cases foundFirst.symm.trans foundAfter
    have sameId : other.id = mate.id := congrArg (·.1.id) core
    obtain ⟨ne, paired⟩ := (iff foundOther).mp (sameId ▸ mem)
    exact ⟨ne.symm, (sound.paired_iff_liveAt foundOne foundOther ne.symm).mp paired⟩
  · rintro ⟨ne, meets⟩
    obtain ⟨one, foundOne, -⟩ := exists_node_of_any meets.1
    obtain ⟨other, foundOther, -⟩ := exists_node_of_any meets.2.1
    obtain ⟨node, foundFirst, -, iff⟩ := noted foundOne
    obtain ⟨mate, foundSecond, sameId, -⟩ := noted foundOther
    refine ⟨node, mate, foundFirst, foundSecond, ?_⟩
    rw [sameId]
    exact (iff foundOther).mpr ⟨ne.symm, (sound.paired_iff_liveAt foundOne foundOther ne).mpr meets⟩

/-- **With a queue that works in order, nodes are noted with each other exactly where their live ranges
meet.** Whatever was noted before, the computation succeeds and changes nothing but the notes. A node is
noted with another one if both own a buffer and their live ranges have a position in common; so the relation
is symmetric, no node is noted with itself, and only live nodes are noted. -/
theorem noted_exactly_where_ranges_meet (program : Program) (sound : program.Sound)
    (strategy : MemoryStrategy) (inOrder : strategy ≠ .outOfOrderAware) :
    ∃ computed, Edit.computeConflicts strategy program = .ok () computed ∧ Noted program computed ∧
      (∀ first second, computed.NotedWith first second ↔ first ≠ second ∧
        program.countsAsOwner (strategy != .basic) first ∧
        program.countsAsOwner (strategy != .basic) second ∧
        ∃ position, program.LiveAt (strategy != .basic) first position ∧
          program.LiveAt (strategy != .basic) second position) ∧
      (∀ first second, computed.NotedWith first second → computed.NotedWith second first) ∧
      (∀ key, ¬ computed.NotedWith key key) ∧
      ∀ key node, computed.node? key = some node → ∀ id ∈ node.conflicts, computed.hasId id := by
  have overlap : program.bufferConflict strategy = overlaps := by
    cases strategy with
    | basic => rfl
    | skippedBranchAware => rfl
    | outOfOrderAware => exact absurd rfl inOrder
  have pairs := conflictingPairs_eq_ownBuffers sound.consistent.order_live strategy
  rw [overlap] at pairs
  have noted := noted_noteConflicts program (ownersInConflict overlaps
    (program.ownBuffers (strategy != .basic)))
  have computes := computeConflicts_cases program strategy
  rw [pairs] at computes
  refine ⟨_, computes, noted, fun first second => sound.notedWith_iff,
    fun first second meets => ?_, fun key itself => (sound.notedWith_iff.mp itself).1 rfl,
    fun key node found id mem => ?_⟩
  · obtain ⟨ne, counts, countsToo, position, live, liveToo⟩ := sound.notedWith_iff.mp meets
    exact sound.notedWith_iff.mpr ⟨ne.symm, countsToo, counts, position, liveToo, live⟩
  · obtain ⟨pre, foundPre, -⟩ := noted.annotated.node? found
    obtain ⟨after, foundAfter, -, -, iff⟩ := exists_noted _ foundPre
    cases found.symm.trans foundAfter
    obtain ⟨o, mate, foundMate, rfl, -⟩ := (iff id).mp mem
    obtain ⟨kept, foundKept, core⟩ := noted.annotated.node?_after foundMate
    have sameId : kept.id = mate.id := congrArg (·.1.id) core
    have named := (sound.consistent.annotated noted.annotated).keyOf?_id foundKept
    exact isSome_iff_exists.mpr ⟨o, sameId ▸ named⟩

/-- Behind a reshape that runs in place a layer reads the buffer of the input, so that the two ranges meet.
The basic strategy does not look there. -/
theorem noted_exactly_where_ranges_meet_reshapedInput : ∃ finished basic aware : Program,
    (reshapedInput.build {} {} 0).outcome = .ok finished ∧ finished.Sound ∧
      Edit.computeConflicts .basic finished = .ok () basic ∧
      Edit.computeConflicts .skippedBranchAware finished = .ok () aware ∧
      ¬ basic.NotedWith 0 2 ∧ aware.NotedWith 0 2 ∧ aware.NotedWith 2 0 ∧
      ∃ position, finished.LiveAt true 0 position ∧ finished.LiveAt true 2 position := by
  obtain ⟨finished, built, apart, aware, again, one, other, foundOne, foundOther, inOne, inOther⟩ :
      ∃ fin, (reshapedInput.build {} {} 0).outcome = .ok fin ∧ ¬ fin.ConflictUnder .basic 0 2 ∧
        fin.ConflictUnder .skippedBranchAware 0 2 := Topology.exists_of_outcome (by decide +kernel)
  have sound : finished.Sound := Topology.sound_of_build rfl built
  obtain ⟨basic, computed, -, -, symmetric, -⟩ :=
    noted_exactly_where_ranges_meet finished sound .basic (by decide)
  obtain ⟨_, computedToo, -, meets, -⟩ :=
    noted_exactly_where_ranges_meet finished sound .skippedBranchAware (by decide)
  cases computedToo.symm.trans again
  have noted : aware.NotedWith 0 2 := ⟨one, other, foundOne, foundOther, inOne⟩
  refine ⟨finished, basic, aware, built, sound, computed, computedToo, fun missed => apart ?_, noted,
    ⟨other, one, foundOther, foundOne, inOther⟩, ((meets 0 2).mp noted).2.2.2⟩
  obtain ⟨_, _, foundSecond, foundFirst, inSecond⟩ := symmetric 0 2 missed
  obtain ⟨_, _, foundToo, foundAgain, inFirst⟩ := missed
  cases foundFirst.symm.trans foundToo
  cases foundSecond.symm.trans foundAgain
  exact ⟨basic, computed, _, _, foundFirst, foundSecond, inFirst, inSecond⟩

end LayerGraph.Program
