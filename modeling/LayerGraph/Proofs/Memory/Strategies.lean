import LayerGraph.Proofs.Memory.Recomputation
import LayerGraph.Proofs.Network.Conflicts

/-!
# Comparing the strategies for memory dependencies

Each strategy sees the conflicts that the one before it sees (`Program.strategies_form_a_chain`). What
data flow puts before a node stands before it in every order, so buffers whose ranges meet in some
order are not ordered by data flow. And the range of a buffer only grows when the readers of nodes that
run in place are counted in place of these nodes, as long as such a node is read or is an output: then
there is always somebody later who needs the buffer.

A strategy is compared by what is noted (`Program.ConflictUnder`), which is a condition on the buffers
of the two owners (`Program.Sound.conflictUnder_iff`).
-/

namespace LayerGraph.Program

open List Option

variable {p : Program} {key first second : NodeKey} {n one another : Node}
  {strategy : MemoryStrategy}

/-- Two nodes are noted with each other when memory dependencies are computed with a strategy. -/
def ConflictUnder (program : Program) (strategy : MemoryStrategy) (first second : NodeKey) : Prop :=
  ∃ computed, Edit.computeConflicts strategy program = .ok () computed ∧ computed.InConflict first second

/-! ## What is noted -/

theorem Sound.exists_pairs (sound : p.Sound) (strategy : MemoryStrategy) :
    ∃ pairs, p.conflictingPairs strategy = .ok pairs ∧
      Edit.computeConflicts strategy p = .ok () (p.clearConflicts.noteConflicts pairs) := by
  obtain ⟨pairs, hk⟩ := sound.consistent.exists_conflictingPairs strategy
  rw [alters_role_conflictingPairs (noted_clearConflicts p).roles] at hk
  exact ⟨pairs, hk, by rw [computeConflicts_cases, hk]⟩

/-- A note about a node says that it is paired, since ids tell nodes apart. -/
theorem Sound.exists_noted_iff (sound : p.Sound) (pairs : List (NodeKey × NodeKey))
    (hk : p.node? key = some n) : ∃ after, (p.clearConflicts.noteConflicts pairs).node? key = some after ∧
      after.id = n.id ∧ ∀ {o mate}, p.node? o = some mate →
        (mate.id ∈ after.conflicts ↔ o ≠ key ∧ Paired pairs key o) := by
  obtain ⟨after, foundAfter, same, -, mem⟩ := exists_noted pairs hk
  refine ⟨after, foundAfter, Node.eq_of_withoutConflicts same fun _ => rfl, fun {o mate} foundMate => ?_⟩
  rw [mem]
  constructor
  · rintro ⟨third, node, foundThird, sameId, paired⟩
    rwa [sound.consistent.key_eq_of_id_eq foundMate foundThird sameId.symm]
  · exact fun paired => ⟨o, mate, foundMate, rfl, paired⟩

/-- Exactly the pairs in conflict are noted. -/
theorem Sound.conflictUnder_iff_paired (sound : p.Sound) {pairs : List (NodeKey × NodeKey)}
    (hl : p.conflictingPairs strategy = .ok pairs) (foundFirst : p.node? first = some one)
    (foundSecond : p.node? second = some another) (ne : first ≠ second) :
    p.ConflictUnder strategy first second ↔ Paired pairs first second := by
  have computes : Edit.computeConflicts strategy p = .ok () (p.clearConflicts.noteConflicts pairs) := by
    rw [computeConflicts_cases, hl]
  obtain ⟨firstAfter, foundFirstAfter, firstId, inFirst⟩ := sound.exists_noted_iff pairs foundFirst
  obtain ⟨secondAfter, foundSecondAfter, secondId, inSecond⟩ := sound.exists_noted_iff pairs foundSecond
  constructor
  · rintro ⟨hc, result, left, right, foundLeft, foundRight, inLeft, -⟩
    cases computes.symm.trans result
    cases foundFirstAfter.symm.trans foundLeft
    cases foundSecondAfter.symm.trans foundRight
    exact ((inFirst foundSecond).mp (secondId ▸ inLeft)).2
  · intro paired
    refine ⟨_, computes, firstAfter, secondAfter, foundFirstAfter, foundSecondAfter, ?_, ?_⟩
    · rw [secondId]
      exact (inFirst foundSecond).mpr ⟨ne.symm, paired⟩
    · rw [firstId]
      exact (inSecond foundFirst).mpr ⟨ne, paired.symm⟩

/-! ## Conflicts as conditions on two buffers -/

section Places

variable {place position : Nat} (sound : p.Sound)
  (foundFirst : p.node? first = some one) (foundSecond : p.node? second = some another)
  (placed : p.order.position? first = some place)
  (placedToo : p.order.position? second = some position)

include sound foundFirst foundSecond placed placedToo

/-- **Two owners are noted with each other when their buffers are in conflict,** that of the earlier
one being asked about first. -/
theorem Sound.conflictUnder_iff (ne : first ≠ second)
    (counts : p.countsAsOwner (strategy != .basic) first)
    (countsToo : p.countsAsOwner (strategy != .basic) second) :
    p.ConflictUnder strategy first second ↔ (place < position ∧ p.bufferConflict strategy
          (p.bufferOf (strategy != .basic) place first one)
          (p.bufferOf (strategy != .basic) position second another)) ∨
        position < place ∧ p.bufferConflict strategy
          (p.bufferOf (strategy != .basic) position second another)
          (p.bufferOf (strategy != .basic) place first one) := by
  have pairs := conflictingPairs_eq_ownBuffers sound.consistent.order_live strategy
  rw [sound.conflictUnder_iff_paired pairs foundFirst foundSecond ne, Paired,
    mem_ownersInConflict_iff sound.complete.nodup foundFirst foundSecond placed placedToo,
    mem_ownersInConflict_iff sound.complete.nodup foundSecond foundFirst placedToo placed]
  simp only [counts, countsToo, true_and]

end Places

/-! ## Data flow and every order -/

theorem foldl_max_le {numbers : List Nat} {start bound : Nat} (fromStart : start ≤ bound)
    (all : ∀ num ∈ numbers, num ≤ bound) : numbers.foldl max start ≤ bound := by
  induction numbers generalizing start with
  | nil => exact fromStart
  | cons head tail ih =>
    rw [foldl_cons]
    exact ih (Nat.max_le.mpr ⟨fromStart, all head mem_cons_self⟩) fun num mem =>
      all num (mem_cons_of_mem _ mem)

variable {place position : Nat} {user : NodeKey}

theorem HasCompleteOrder.lt_of_dependsOn (complete : p.HasCompleteOrder) (depends : p.DependsOn second
    first) (placed : p.order.position? first = some place) (placedToo : p.order.position? second = some
    position) : place < position := by
  obtain ⟨earlier, later, foundEarlier, foundLater, smaller⟩ := ProcessingOrder.position?_lt
    complete.nodup (pair_sublist_of_transGen complete.nodup complete.before depends)
  rw [placed] at foundEarlier
  rw [placedToo] at foundLater
  cases foundEarlier
  cases foundLater
  exact smaller

/-- A buffer that data flow puts before a node is not needed any more when the node is reached. -/
theorem stop_lt_of_precedes (complete : p.HasCompleteOrder) (placed : p.order.position? first = some
    place) (placedToo : p.order.position? second = some position) (precedes : Buffer.precedes p.ancestors
    (p.bufferOf true place first one) (p.bufferOf true position second another)) : place < position ∧
    (p.bufferOf true place first one).stop < position := by
  obtain ⟨released, owner, readers⟩ := exists_ancestors_of_precedes precedes
  have earlier := complete.lt_of_dependsOn owner placed placedToo
  refine ⟨earlier, ?_⟩
  have bound : (p.bufferOf true place first one).stop ≤ position - 1 := by
    simp only [bufferOf] at released readers ⊢
    rw [released, if_neg Bool.false_ne_true]
    refine foldl_max_le (by omega) fun num mem => ?_
    obtain ⟨r, isReader, placedReader⟩ := mem_filterMap.mp mem
    have pre := complete.lt_of_dependsOn (readers r isReader) placedReader placedToo
    omega
  omega

theorem countsAsOwner_of_ownsBuffer (owns : p.ownsBuffer key) (skipInPlace : Bool) :
    p.countsAsOwner skipInPlace key := by
  obtain ⟨n, hk, own⟩ := exists_node_of_any owns
  simp only [Bool.not_eq_true', Bool.or_eq_false_iff] at own
  simp [countsAsOwner, hk, own]

/-- Strategies can be compared on two buffers, of which the first one starts earlier. -/
theorem Sound.conflictUnder_mono (sound : p.Sound) (owns : p.ownsBuffer first)
    (ownsToo : p.ownsBuffer second) (ne : first ≠ second) {careful : MemoryStrategy}
    (more : ∀ {first second : NodeKey} {one another : Node} {place position : Nat},
      p.order.position? first = some place → p.order.position? second = some position →
      place < position → p.bufferConflict strategy (p.bufferOf (strategy != .basic) place first one)
        (p.bufferOf (strategy != .basic) position second another) →
      p.bufferConflict careful (p.bufferOf (careful != .basic) place first one)
        (p.bufferOf (careful != .basic) position second another))
    (conflict : p.ConflictUnder strategy first second) : p.ConflictUnder careful first second := by
  obtain ⟨one, foundFirst, -⟩ := exists_node_of_any owns
  obtain ⟨another, foundSecond, -⟩ := exists_node_of_any ownsToo
  obtain ⟨place, placed⟩ := sound.complete.exists_position (contains_of_node? foundFirst)
  obtain ⟨position, placedToo⟩ := sound.complete.exists_position (contains_of_node? foundSecond)
  rw [sound.conflictUnder_iff foundFirst foundSecond placed placedToo ne
    (countsAsOwner_of_ownsBuffer owns _) (countsAsOwner_of_ownsBuffer ownsToo _)] at conflict ⊢
  exact conflict.imp (fun h => ⟨h.1, more placed placedToo h.1 h.2⟩)
    fun h => ⟨h.1, more placedToo placed h.1 h.2⟩

/-- Buffers whose ranges meet are not ordered by data flow. -/
theorem Sound.unordered_of_overlapping (sound : p.Sound) (owns : p.ownsBuffer first)
    (ownsToo : p.ownsBuffer second) (ne : first ≠ second) :
    p.ConflictUnder .skippedBranchAware first second →
      p.ConflictUnder .outOfOrderAware first second := by
  apply sound.conflictUnder_mono owns ownsToo ne
  intro first second one another place position placed placedToo earlier overlaps
  have reached : position ≤ (p.bufferOf true place first one).stop := of_decide_eq_true overlaps
  simp only [bufferConflict, Buffer.isUnordered, Bool.and_eq_true, Bool.not_eq_true', Bool.eq_false_iff]
  constructor
  · intro precedes
    have ended := (stop_lt_of_precedes sound.complete placed placedToo precedes).2
    omega
  · intro precedes
    have later := (stop_lt_of_precedes sound.complete placedToo placed precedes).1
    omega

/-- What data flow leaves open does not depend on the order. -/
theorem Sound.conflictUnder_outOfOrder_iff (sound : p.Sound)
    (foundFirst : p.node? first = some one) (foundSecond : p.node? second = some another)
    (ne : first ≠ second) : p.ConflictUnder .outOfOrderAware first second ↔
      p.network.Conflict one.id another.id := by
  have aware : MemoryStrategy.outOfOrderAware ≠ .basic := by decide
  have pairs := conflictingPairs_eq aware sound.consistent.order_live
  rw [sound.conflictUnder_iff_paired pairs foundFirst foundSecond ne,
    ← sound.paired_iff foundFirst foundSecond]
  exact (and_iff_right (Ne.symm ne)).symm

/-! ## Readers behind nodes that run in place -/

/-- Every node that runs in place is read or is an output. -/
def InPlaceNeeded (program : Program) : Prop :=
  ∀ key, program.runsInPlace key → program.users key ≠ [] ∨ program.isOutput key

theorem mem_bufferUsers_false (mem : user ∈ p.bufferUsers false key) : user ∈ p.users key := by
  rcases path_of_mem_reach mem with none | ⟨start, isUser, path⟩
  · cases none
  · cases path with
    | refl => exact isUser
    | tail _ leads => simp [aliases] at leads

/-- Every user of a buffer is in its range, also one that runs in place: it hands the buffer on to
somebody later, or the buffer is kept. -/
theorem Sound.position_le_stop_of_user (sound : p.Sound) (needed : p.InPlaceNeeded) (place : Nat) (n :
    Node) (isUser : user ∈ p.bufferUsers true key) (placed : p.order.position? user = some position) :
    position ≤ (p.bufferOf true place key n).stop := by
  have inside : position < p.order.size := (idxOf?_eq_some_iff.mp placed).1
  induction distance : p.order.size - position using Nat.strong_induction_on
    generalizing user position with
  | _ distance ih =>
    cases shares : p.runsInPlace user with
    | false =>
      refine position_le_stop ?_ placed
      simp only [bufferOf, mem_filter, aliases_true, shares, Bool.not_false, and_true]
      exact isUser
    | true =>
      rcases needed user shares with read | hm
      · obtain ⟨r, isReader⟩ := exists_mem_of_ne_nil _ read
        have hl := sound.consistent.mem_keys.mpr (contains_of_any shares)
        have next := reach_closed _ _ _ user isUser hl
        rw [aliases_true, shares, if_pos rfl] at next
        obtain ⟨later, placedReader⟩ :=
          sound.complete.exists_position (sound.consistent.users_live isReader)
        have behind := sound.complete.lt_of_dependsOn (.single (mem_users_iff.mp isReader)) placed
          placedReader
        have insideToo : later < p.order.size := (idxOf?_eq_some_iff.mp placedReader).1
        have reached := ih (p.order.size - later) (by omega) (next isReader) placedReader insideToo rfl
        omega
      · have kept : (p.bufferOf true place key n).isKept := by
          simp only [bufferOf, Bool.or_eq_true, List.any_eq_true, Bool.and_eq_true, aliases_true]
          exact .inr ⟨user, isUser, shares, hm⟩
        have stop : (p.bufferOf true place key n).stop = p.order.size := by
          simp only [bufferOf] at kept ⊢
          rw [if_pos kept]
        omega

theorem start_le_stop (inside : place ≤ p.order.size) (skipInPlace : Bool) (key : NodeKey) (n : Node) :
    place ≤ (p.bufferOf skipInPlace place key n).stop := by
  simp only [bufferOf]
  split
  · exact inside
  · exact (le_foldl_max _ place).1

/-- Counting readers behind nodes that run in place only makes ranges longer. -/
theorem Sound.stop_le_stop (sound : p.Sound) (needed : p.InPlaceNeeded) (inside : place ≤ p.order.size)
    (key : NodeKey) (n : Node) : (p.bufferOf false place key n).stop ≤ (p.bufferOf true place key n).stop
    := by
  have basic : (p.bufferOf false place key n).stop = if n.isOutput then p.order.size
      else ((p.bufferUsers false key).filterMap p.order.position?).foldl max place := by
    simp [bufferOf, aliases]
  rw [basic]
  by_cases hm : n.isOutput
  · rw [if_pos hm]
    simp [bufferOf, hm]
  · rw [if_neg hm]
    refine foldl_max_le (start_le_stop inside true key n) fun position mem => ?_
    obtain ⟨user, isUser, placed⟩ := mem_filterMap.mp mem
    have among : user ∈ p.bufferUsers true key := (subset_reach _ _ _ _).1 (mem_bufferUsers_false isUser)
    exact sound.position_le_stop_of_user needed place n among placed

/-- What overlaps without regard to nodes that run in place overlaps with regard to them. -/
theorem Sound.overlapping_of_basic (sound : p.Sound) (needed : p.InPlaceNeeded)
    (owns : p.ownsBuffer first) (ownsToo : p.ownsBuffer second) (ne : first ≠ second) :
    p.ConflictUnder .basic first second → p.ConflictUnder .skippedBranchAware first second := by
  apply sound.conflictUnder_mono owns ownsToo ne
  intro first second one another place position placed _ _ meets
  have inside : place < p.order.size := (idxOf?_eq_some_iff.mp placed).1
  have reached : position ≤ (p.bufferOf false place first one).stop := of_decide_eq_true meets
  have longer := sound.stop_le_stop needed (Nat.le_of_lt inside) first one
  exact decide_eq_true (Nat.le_trans reached longer)

/-- **Each strategy is at least as careful as the one before it.** Memory dependencies of two owners of
buffers can be computed with any strategy, in any complete order. If the ranges of their buffers meet in
some complete order, the out-of-order strategy sees a conflict too, in the order that the program
has. And when every node that runs in place is read or is an output, a conflict that the basic strategy
sees is seen by the strategy that looks behind such nodes. -/
theorem strategies_form_a_chain (program : Program) (sound : program.Sound) (first second : NodeKey)
    (owns : program.ownsBuffer first) (ownsToo : program.ownsBuffer second)
    (different : first ≠ second) :
    (∀ strategy order, { program with order }.HasCompleteOrder → ∃ computed,
        Edit.computeConflicts strategy { program with order } = .ok () computed) ∧
      (∀ order, { program with order }.HasCompleteOrder →
        { program with order }.ConflictUnder .skippedBranchAware first second →
        program.ConflictUnder .outOfOrderAware first second) ∧
      (program.InPlaceNeeded → program.ConflictUnder .basic first second →
        program.ConflictUnder .skippedBranchAware first second) := by
  have reordered : ∀ order, { program with order }.HasCompleteOrder →
      { program with order }.Sound := fun order complete =>
    ⟨sound.consistent.reordered complete.nodup fun key => (complete.complete key).mp, complete⟩
  refine ⟨fun strategy order complete => ?_, fun order complete conflict => ?_, fun needed =>
    sound.overlapping_of_basic needed owns ownsToo different⟩
  · obtain ⟨pairs, -, computes⟩ := (reordered order complete).exists_pairs strategy
    exact ⟨_, computes⟩
  · obtain ⟨one, foundFirst, -⟩ := exists_node_of_any owns
    obtain ⟨another, foundSecond, -⟩ := exists_node_of_any ownsToo
    have unordered := (reordered order complete).unordered_of_overlapping owns ownsToo different conflict
    rw [(reordered order complete).conflictUnder_outOfOrder_iff foundFirst foundSecond different]
      at unordered
    exact (sound.conflictUnder_outOfOrder_iff foundFirst foundSecond different).mpr unordered

/-! ## A conflict that is seen behind a reshape -/

instance : Decidable (p.InConflict first second) :=
  decidable_of_iff ((p.node? first).any fun one => (p.node? second).any fun other =>
      decide (other.id ∈ one.conflicts ∧ one.id ∈ other.conflicts)) (by
    simp only [Option.any_eq_true, decide_eq_true_eq, InConflict]
    exact ⟨fun ⟨one, foundOne, other, rest⟩ => ⟨one, other, foundOne, rest⟩,
      fun ⟨one, other, foundOne, rest⟩ => ⟨one, foundOne, other, rest⟩⟩)

instance : Decidable (p.ConflictUnder strategy first second) :=
  decidable_of_iff ((match Edit.computeConflicts strategy p with
    | .ok () computed => decide (computed.InConflict first second)
    | .error _ _ => false) = true) (by
    rw [ConflictUnder]
    cases Edit.computeConflicts strategy p with
    | ok value computed => simp
    | error fault computed => simp)

instance : Decidable p.InPlaceNeeded :=
  decidable_of_iff (∀ key < p.store.cells.length, p.runsInPlace key → p.users key ≠ [] ∨ p.isOutput key)
      ⟨fun given key shares => given key (lt_of_contains (contains_of_any shares)) shares, fun given key
      _ shares => given key shares⟩

/-- An input, a reshape of it, a layer that reads the reshape, and an output that reads the layer. -/
def reshapedInput : Topology where
  primitives := [
    .inputLayout "x" ⟨.bfyx, ⟨1, 1, 1, 1⟩, {}⟩,
    { id := "r", kind := .reshape ⟨1, 1, 1, 1⟩, inputs := ["x"] },
    { id := "s", kind := .softmax, inputs := ["r"] },
    { id := "t", kind := .softmax, inputs := ["s"] }]
  outputs := ["t"]

/-- The basic strategy misses that the layer reads what lies in the buffer of the input; the other two
strategies see it. -/
theorem strategies_form_a_chain_reshapedInput : ∃ finished : Program,
    (reshapedInput.build {} {} 0).outcome = .ok finished ∧ finished.Sound ∧
      finished.InPlaceNeeded ∧ ¬ finished.ConflictUnder .basic 0 2 ∧
      finished.ConflictUnder .skippedBranchAware 0 2 ∧
      finished.ConflictUnder .outOfOrderAware 0 2 ∧
      finished.ConflictUnder .basic 2 3 ∧ finished.ConflictUnder .skippedBranchAware 2 3 ∧
      finished.ConflictUnder .outOfOrderAware 2 3 := by
  obtain ⟨finished, built, needed, ownsInput, ownsLayer, ownsOutput, apart, meets, meetsLater⟩ :
      ∃ fin, (reshapedInput.build {} {} 0).outcome = .ok fin ∧ fin.InPlaceNeeded ∧
        fin.ownsBuffer 0 ∧ fin.ownsBuffer 2 ∧ fin.ownsBuffer 3 ∧ ¬ fin.ConflictUnder .basic 0 2 ∧
        fin.ConflictUnder .skippedBranchAware 0 2 ∧ fin.ConflictUnder .basic 2 3 :=
    Topology.exists_of_outcome (by decide +kernel)
  have sound : finished.Sound := Topology.sound_of_build rfl built
  obtain ⟨-, careful, -⟩ :=
    strategies_form_a_chain finished sound 0 2 ownsInput ownsLayer (by decide)
  obtain ⟨-, carefulLater, aware⟩ :=
    strategies_form_a_chain finished sound 2 3 ownsLayer ownsOutput (by decide)
  have meetsBehind := aware needed meetsLater
  exact ⟨finished, built, sound, needed, apart, meets, careful finished.order sound.complete meets,
    meetsLater, meetsBehind, carefulLater finished.order sound.complete meetsBehind⟩

end LayerGraph.Program
