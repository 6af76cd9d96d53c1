import LayerGraph.Proofs.Memory.Buffers

/-!
# Noted conflicts

Computing the memory dependencies changes nothing but the notes about conflicts (`Noted`). In the
end each two owners whose buffers are in conflict are noted with each other (`InConflict`), and so
an assignment of storage that respects the notes separates their buffers (`Separates`).

For two owners at known places this is a condition on their two buffers (`mem_ownersInConflict_iff`).
-/

namespace LayerGraph

open List Node

variable {α : Type}

/-- A pair of elements of a list is a later pair. -/
theorem mem_laterPairs {a b : α} {xs : List α} (sublist : [a, b].Sublist xs) : (a, b) ∈ laterPairs xs :=
    by
  induction xs with
  | nil => cases sublist
  | cons head tail ih =>
    rw [laterPairs, mem_append]
    cases sublist with
    | cons _ later => exact .inr (ih later)
    | cons_cons _ later =>
      exact .inl (List.mem_map_of_mem (singleton_sublist.mp later))

theorem mem_of_mem_laterPairs {a b : α} {xs : List α} (mem : (a, b) ∈ laterPairs xs) : a ∈ xs ∧ b ∈ xs :=
    by
  induction xs with
  | nil => cases mem
  | cons head tail ih =>
    rw [laterPairs, mem_append, List.mem_map] at mem
    rcases mem with ⟨later, inTail, e⟩ | inTail
    · cases e
      exact ⟨mem_cons_self, mem_cons_of_mem _ inTail⟩
    · obtain ⟨one, m⟩ := ih inTail
      exact ⟨mem_cons_of_mem _ one, mem_cons_of_mem _ m⟩

theorem pair_sublist_or_swap {a b : α} {xs : List α} (one : a ∈ xs) (m : b ∈ xs) (ne : a ≠ b) : [a,
    b].Sublist xs ∨ [b, a].Sublist xs := by
  obtain ⟨pre, after, rfl⟩ := append_of_mem one
  rcases mem_append.mp m with earlier | later
  · exact .inr ((singleton_sublist.mpr earlier).append (singleton_sublist.mpr mem_cons_self))
  · rcases mem_cons.mp later with e | behind
    · exact absurd e.symm ne
    · exact .inl ((nil_sublist pre).append ((singleton_sublist.mpr behind).cons_cons a))

theorem rel_of_mem_laterPairs {relation : α → α → Prop} {xs : List α} {one m : α} (pairwise : xs.Pairwise
    relation) (mem : (one, m) ∈ laterPairs xs) : relation one m := by
  induction xs with
  | nil => cases mem
  | cons head tail ih =>
    obtain ⟨fromHead, inTail⟩ := pairwise_cons.mp pairwise
    rw [laterPairs, mem_append, List.mem_map] at mem
    rcases mem with ⟨later, hl, e⟩ | hl
    · cases e
      exact fromHead _ hl
    · exact ih inTail hl

/-- A node without its notes about conflicts. -/
def Node.withoutConflicts (node : Node) : Node := { node with conflicts := [] }

namespace Node

theorem eq_of_withoutConflicts {α : Type} {a b : Node}
    (e : a.withoutConflicts = b.withoutConflicts) {property : Node → α}
    (blind : ∀ n, property n.withoutConflicts = property n) : property a = property b := by
  rw [← blind, e, blind]

theorem mem_insertId {id o : String} {ids : List String} :
    o ∈ insertId id ids ↔ o = id ∨ o ∈ ids := by
  induction ids with
  | nil => simp [insertId]
  | cons head tail ih =>
    rw [insertId]
    split
    · simp
    · split
      · next e => simp [e]
      · simp only [mem_cons, ih]
        exact or_left_comm

end Node

namespace Program

variable {p q : Program} {k a b : NodeKey}

/-- A program in which only notes about conflicts differ. -/
structure Noted (program edited : Program) : Prop where
  annotated : Annotated program edited
  nodes : ∀ key, (edited.node? key).map withoutConflicts =
    (program.node? key).map withoutConflicts

namespace Noted

theorem refl (p : Program) : Noted p p := ⟨.refl p, fun _ => rfl⟩

theorem trans {mid : Program} (a : Noted p mid) (b : Noted mid q) : Noted p q :=
  ⟨a.annotated.trans b.annotated, fun k => (b.nodes k).trans (a.nodes k)⟩

theorem modifyNode (p : Program) (k : NodeKey) {change : Node → Node} (keeps : ∀ n, (change
    n).withoutConflicts = n.withoutConflicts) : Noted p (p.modifyNode k change) where
  annotated := by
    refine .modifyNode p k fun n => ?_
    have e := congrArg core (keeps n)
    exact e
  nodes o := by
    rw [node?_modifyNode]
    split
    · rw [Option.map_map]
      exact congrArg (fun change => (p.node? o).map change) (funext keeps)
    · rfl

section

variable (noted : Noted p q)

include noted

/-- What is seen of nodes without regard to conflicts is the same. -/
theorem view {α : Type} (view : Node → α)
    (blind : ∀ n, view n.withoutConflicts = view n) : Alters view p q where
  rest := noted.annotated.rest
  wellFormed := noted.annotated.wellFormed
  same k := by
    have e := congrArg (Option.map view) (noted.nodes k)
    rwa [Option.map_map, Option.map_map, show view ∘ withoutConflicts = view from funext blind] at e

theorem marked : Marked p q := noted.view unmarked fun _ => rfl

theorem roles : Alters role p q := noted.view role fun _ => rfl

theorem runsInPlace (k : NodeKey) : q.runsInPlace k = p.runsInPlace k :=
  alters_role_any noted.roles (fun role => role.2.1) (fun _ => rfl) k

theorem ownsBuffer (k : NodeKey) : q.ownsBuffer k = p.ownsBuffer k :=
  alters_role_any noted.roles (fun role => !(role.1 == .data || role.2.1)) (fun _ => rfl) k

theorem isOutput (k : NodeKey) : q.isOutput k = p.isOutput k :=
  alters_role_any noted.roles (fun role => role.2.2) (fun _ => rfl) k

theorem order : q.order = p.order := by
  rw [noted.annotated.rest]

theorem inPlaceReadsOne (single : p.InPlaceReadsOne) : q.InPlaceReadsOne := fun k shares => by
  rw [noted.annotated.dependencies]
  exact single k (noted.runsInPlace k ▸ shares)

theorem registered (registered : p.Registered) : q.Registered := fun k hv => by
  have ks : q.keys = p.keys := by
    rw [noted.annotated.rest]
    rfl
  exact ks ▸ registered k ((noted.annotated.contains k).mp hv)

end

end Noted

/-! ## Noting conflicts -/

/-- Two nodes are noted with each other. -/
def InConflict (program : Program) (first second : NodeKey) : Prop :=
  ∃ one other, program.node? first = some one ∧ program.node? second = some other ∧
    other.id ∈ one.conflicts ∧ one.id ∈ other.conflicts

/-- Storage is given to nodes in such a way that owners that are noted with each other have
different places. -/
def Separates (program : Program) {Place : Type} (storage : NodeKey → Place) : Prop :=
  ∀ first second, program.ownsBuffer first → program.ownsBuffer second →
    program.InConflict first second → storage first ≠ storage second

theorem noted_clearConflicts (p : Program) : Noted p p.clearConflicts where
  annotated :=
    { rest := rfl
      wellFormed := fun h => h.map _
      same := fun k => by
        rw [clearConflicts, node?, NodeStore.get?_map, Option.map_map]
        rfl }
  nodes k := by
    rw [clearConflicts, node?, NodeStore.get?_map, Option.map_map]
    rfl

theorem noted_addConflict (p : Program) (a b : NodeKey) : Noted p (p.addConflict a b) := by
  rw [addConflict]
  split
  · exact .refl p
  · split
    · refine (Noted.modifyNode p a ?_).trans (Noted.modifyNode _ b ?_)
      · exact fun _ => rfl
      · exact fun _ => rfl
    · exact .refl p

/-- What is noted with a node stays noted. -/
def KeepsNotes (program edited : Program) : Prop :=
  ∀ key node, program.node? key = some node →
    ∃ after, edited.node? key = some after ∧ after.id = node.id ∧ node.conflicts ⊆ after.conflicts

theorem KeepsNotes.refl (p : Program) : KeepsNotes p p :=
  fun _ n hk => ⟨n, hk, rfl, fun _ mem => mem⟩

theorem KeepsNotes.trans {mid : Program} (a : KeepsNotes p mid)
    (b : KeepsNotes mid q) : KeepsNotes p q := by
  intro k n hk
  obtain ⟨between, foundBetween, sameId, kept⟩ := a k n hk
  obtain ⟨after, foundAfter, sameIdAfter, keptAfter⟩ := b k between foundBetween
  exact ⟨after, foundAfter, sameIdAfter.trans sameId, fun _ mem => keptAfter (kept mem)⟩

theorem KeepsNotes.withConflict (p : Program) (k : NodeKey) (id : String) :
    KeepsNotes p (p.modifyNode k (·.withConflict id)) := by
  intro o n hk
  rw [node?_modifyNode, hk]
  split
  · exact ⟨_, rfl, rfl, fun _ mem => mem_insertId.mpr (.inr mem)⟩
  · exact ⟨n, rfl, rfl, fun _ mem => mem⟩

theorem keepsNotes_addConflict (p : Program) (a b : NodeKey) :
    KeepsNotes p (p.addConflict a b) := by
  rw [addConflict]
  split
  · exact .refl p
  · split
    · exact (KeepsNotes.withConflict p a _).trans (KeepsNotes.withConflict _ b _)
    · exact .refl p

theorem InConflict.addConflict (noted : p.InConflict a b) (one o : NodeKey) :
    (p.addConflict one o).InConflict a b := by
  obtain ⟨firstNode, secondNode, foundFirst, foundSecond, inFirst, inSecond⟩ := noted
  have keeps := keepsNotes_addConflict p one o
  obtain ⟨firstAfter, foundFirst, firstId, firstKept⟩ := keeps a firstNode foundFirst
  obtain ⟨secondAfter, foundSecond, secondId, secondKept⟩ := keeps b secondNode foundSecond
  exact ⟨firstAfter, secondAfter, foundFirst, foundSecond, secondId ▸ firstKept inFirst,
    firstId ▸ secondKept inSecond⟩

theorem inConflict_addConflict (ne : a ≠ b) (firstLive : p.contains a) (secondLive : p.contains b) :
    (p.addConflict a b).InConflict a b := by
  obtain ⟨one, foundOne⟩ := contains_iff.mp firstLive
  obtain ⟨o, ho⟩ := contains_iff.mp secondLive
  refine ⟨one.withConflict o.id, o.withConflict one.id, ?_, ?_, ?_, ?_⟩
  · simp [addConflict, ne, foundOne, ho, node?_modifyNode]
  · simp [addConflict, ne, Ne.symm ne, foundOne, ho, node?_modifyNode]
  · exact mem_insertId.mpr (.inl rfl)
  · exact mem_insertId.mpr (.inl rfl)

/-- Notes a list of conflicts. -/
def noteConflicts (program : Program) (pairs : List (NodeKey × NodeKey)) : Program :=
  pairs.foldl (fun program pair => program.addConflict pair.1 pair.2) program

/-- Noting one pair after the other notes all of them, and nothing else changes. -/
theorem foldl_addConflict (pairs : List (NodeKey × NodeKey)) (p : Program) :
    Noted p (p.noteConflicts pairs) ∧ ∀ a b, p.InConflict a b ∨
        ((a, b) ∈ pairs ∧ a ≠ b ∧ p.contains a ∧ p.contains b) →
        (p.noteConflicts pairs).InConflict a b := by
  induction pairs generalizing p with
  | nil => exact ⟨.refl p, fun a b h => by simpa [noteConflicts] using h⟩
  | cons pair rest ih =>
    have step := noted_addConflict p pair.1 pair.2
    obtain ⟨noted, all⟩ := ih (p.addConflict pair.1 pair.2)
    refine ⟨step.trans noted, fun a b h => all a b ?_⟩
    rcases h with already | ⟨mem, ne, firstLive, secondLive⟩
    · exact .inl (already.addConflict pair.1 pair.2)
    · rcases mem_cons.mp mem with rfl | later
      · exact .inl (inConflict_addConflict ne firstLive secondLive)
      · exact .inr ⟨later, ne, (step.annotated.contains a).mpr firstLive,
          (step.annotated.contains b).mpr secondLive⟩

theorem noted_noteConflicts (p : Program) (pairs : List (NodeKey × NodeKey)) :
    Noted p (p.clearConflicts.noteConflicts pairs) :=
  (noted_clearConflicts p).trans (foldl_addConflict pairs p.clearConflicts).1

theorem computeConflicts_eq (strategy : MemoryStrategy) {pairs : List (NodeKey × NodeKey)}
    (hk : p.clearConflicts.conflictingPairs strategy = .ok pairs) :
    Edit.computeConflicts strategy p = .ok () (p.clearConflicts.noteConflicts pairs) := by
  rw [Edit.computeConflicts]
  show ((p.clearConflicts.conflictingPairs strategy).lift >>= _) p.clearConflicts = _
  rw [hk]
  rfl

/-! ## Buffers at their places -/

/-- A node counts as the owner of a buffer. -/
def countsAsOwner (program : Program) (skipInPlace : Bool) (key : NodeKey) : Bool :=
  (program.node? key).any fun node => !(node.tag == .data || (skipInPlace && node.runsInPlace))

/-- The buffers that are compared, in processing order. -/
def ownBuffers (program : Program) (skipInPlace : Bool) : List Buffer :=
  program.order.toList.zipIdx.filterMap (program.ownBuffer? skipInPlace)

/-- All buffers, in processing order. -/
def allBuffers (program : Program) : List Buffer :=
  program.order.toList.zipIdx.filterMap program.bufferAt?

theorem ownBuffers_true (p : Program) : p.ownBuffers true = p.allBuffers := by
  rw [ownBuffers, ownBuffer?_true, allBuffers]

variable {skipInPlace : Bool} {strategy : MemoryStrategy}

theorem ownBuffer?_eq_some {entry : NodeKey × Nat} {buffer : Buffer} : p.ownBuffer? skipInPlace entry =
    some buffer ↔ ∃ n, p.node? entry.1 = some n ∧ p.countsAsOwner skipInPlace entry.1 ∧ p.bufferOf
    skipInPlace entry.2 entry.1 n = buffer := by
  rw [ownBuffer?, countsAsOwner]
  cases p.node? entry.1 with
  | none => simp
  | some n => cases skipInPlace <;> simp

/-- Later buffers start later. -/
theorem pairwise_ownBuffers (p : Program) (skipInPlace : Bool) :
    (p.ownBuffers skipInPlace).Pairwise (·.start < ·.start) := by
  have places : p.order.toList.zipIdx.Pairwise fun one m => one.2 < m.2 := by
    have ascending := @pairwise_lt_range' 0 p.order.toList.length 1 Nat.one_pos
    rwa [← zipIdx_map_snd, pairwise_map] at ascending
  refine places.filterMap _ fun one m later buffer made o madeToo => ?_
  obtain ⟨n, -, -, rfl⟩ := ownBuffer?_eq_some.mp made
  obtain ⟨mate, -, -, rfl⟩ := ownBuffer?_eq_some.mp madeToo
  exact later

/-- The buffer of a node is the one that starts at its place. -/
theorem mem_ownBuffers_iff (skipInPlace : Bool) {place : Nat} {n : Node} (nd : p.order.toList.Nodup)
    (hk : p.node? k = some n) (placed : p.order.position? k = some place)
    (buffer : Buffer) : buffer ∈ p.ownBuffers skipInPlace ∧ buffer.owner = k ↔
      p.countsAsOwner skipInPlace k ∧ buffer = p.bufferOf skipInPlace place k n := by
  obtain ⟨inside, atPlace, -⟩ := idxOf?_eq_some_iff.mp placed
  rw [ownBuffers, mem_filterMap]
  constructor
  · rintro ⟨⟨entry, mem, made⟩, rfl⟩
    obtain ⟨e, foundSame, counts, rfl⟩ := ownBuffer?_eq_some.mp made
    obtain ⟨insideToo, atEntry⟩ := List.getElem?_eq_some_iff.mp (mem_zipIdx_iff_getElem?.mp mem)
    have owner : (p.bufferOf skipInPlace entry.2 entry.1 e).owner = entry.1 := rfl
    rw [owner] at hk atPlace ⊢
    cases hk.symm.trans foundSame
    have samePlace : entry.2 = place := (nd.getElem_inj_iff).mp (atEntry.trans atPlace.symm)
    exact ⟨counts, by rw [samePlace]⟩
  · rintro ⟨counts, rfl⟩
    refine ⟨⟨(k, place), mem_zipIdx_iff_getElem?.mpr ?_, ?_⟩, rfl⟩
    · exact List.getElem?_eq_some_iff.mpr ⟨inside, atPlace⟩
    · exact ownBuffer?_eq_some.mpr ⟨n, hk, counts, rfl⟩

/-- Of two buffers the one that starts later is the later one. -/
theorem mem_laterPairs_ownBuffers {one m : Buffer} : (one, m) ∈ laterPairs (p.ownBuffers skipInPlace) ↔
    one ∈ p.ownBuffers skipInPlace ∧ m ∈ p.ownBuffers skipInPlace ∧ one.start < m.start := by
  have ascending := p.pairwise_ownBuffers skipInPlace
  constructor
  · intro later
    obtain ⟨hl, listedToo⟩ := mem_of_mem_laterPairs later
    have earlier := rel_of_mem_laterPairs ascending later
    exact ⟨hl, listedToo, earlier⟩
  · rintro ⟨hl, listedToo, earlier⟩
    have ne : one ≠ m := by
      rintro rfl
      exact Nat.lt_irrefl _ earlier
    rcases pair_sublist_or_swap hl listedToo ne with pair | swapped
    · exact mem_laterPairs pair
    · have later := ascending.sublist swapped
      simp only [pairwise_cons, mem_singleton, forall_eq] at later
      exact absurd later.1 (Nat.lt_asymm earlier)

theorem HasCompleteOrder.exists_position (complete : p.HasCompleteOrder) (hv : p.contains k) :
    ∃ place, p.order.position? k = some place := by
  obtain ⟨pre, after, split, absent, -⟩ :=
    ProcessingOrder.exists_split complete.nodup ((complete.complete k).mpr hv)
  exact ⟨_, ProcessingOrder.position?_append absent split⟩

theorem mem_ownersInConflict {conflict : Buffer → Buffer → Bool} {buffers : List Buffer} :
    (a, b) ∈ ownersInConflict conflict buffers ↔ ∃ one m,
      (one, m) ∈ laterPairs buffers ∧ conflict one m ∧ one.owner = a ∧ m.owner = b := by
  simp only [ownersInConflict, List.mem_map, mem_filter, Prod.exists, Prod.mk.injEq, and_assoc]

section Places

variable {one m : Node} {place pos : Nat} (nd : p.order.toList.Nodup)
  (foundFirst : p.node? a = some one) (foundSecond : p.node? b = some m)
  (placed : p.order.position? a = some place)
  (placedToo : p.order.position? b = some pos)

include nd foundFirst foundSecond placed placedToo

/-- Owners are in conflict when their buffers are, that of the earlier one being asked about first. -/
theorem mem_ownersInConflict_iff {conflict : Buffer → Buffer → Bool} {skipInPlace : Bool} :
    (a, b) ∈ ownersInConflict conflict (p.ownBuffers skipInPlace) ↔
      (p.countsAsOwner skipInPlace a ∧ p.countsAsOwner skipInPlace b) ∧
        place < pos ∧ conflict (p.bufferOf skipInPlace place a one)
          (p.bufferOf skipInPlace pos b m) := by
  have firstBuffer := mem_ownBuffers_iff skipInPlace nd foundFirst placed
  have secondBuffer := mem_ownBuffers_iff skipInPlace nd foundSecond placedToo
  rw [mem_ownersInConflict]
  constructor
  · rintro ⟨left, right, later, conflicts, ofFirst, ofSecond⟩
    obtain ⟨hl, listedToo, earlier⟩ := mem_laterPairs_ownBuffers.mp later
    obtain ⟨counts, rfl⟩ := (firstBuffer left).mp ⟨hl, ofFirst⟩
    obtain ⟨countsToo, rfl⟩ := (secondBuffer right).mp ⟨listedToo, ofSecond⟩
    exact ⟨⟨counts, countsToo⟩, earlier, conflicts⟩
  · rintro ⟨⟨counts, countsToo⟩, earlier, conflicts⟩
    obtain ⟨hl, owner⟩ := (firstBuffer _).mpr ⟨counts, rfl⟩
    obtain ⟨listedToo, ownerToo⟩ := (secondBuffer _).mpr ⟨countsToo, rfl⟩
    exact ⟨_, _, mem_laterPairs_ownBuffers.mpr ⟨hl, listedToo, earlier⟩, conflicts, owner, ownerToo⟩

end Places

/-! ## What is computed -/

/-- When two buffers are in conflict, the first of which has the earlier owner. -/
def bufferConflict (program : Program) : MemoryStrategy → Buffer → Buffer → Bool
  | .outOfOrderAware => Buffer.isUnordered program.ancestors
  | _ => Buffer.overlaps

theorem Noted.bufferConflict (noted : Noted p q) (strategy : MemoryStrategy) :
    q.bufferConflict strategy = p.bufferConflict strategy := by
  cases strategy with
  | basic => rfl
  | skippedBranchAware => rfl
  | outOfOrderAware => simp only [Program.bufferConflict, alters_role_ancestors noted.roles]

theorem conflictingPairs_eq_ownBuffers (hv : ∀ k ∈ p.order.toList, p.contains k)
    (strategy : MemoryStrategy) :
    p.conflictingPairs strategy = .ok (ownersInConflict (p.bufferConflict strategy)
      (p.ownBuffers (strategy != .basic))) := by
  rw [conflictingPairs, buffers, buffersFrom_eq_filterMap _ hv]
  cases strategy with
  | basic => rfl
  | skippedBranchAware => rfl
  | outOfOrderAware => rfl

theorem conflictingPairs_eq (aware : strategy ≠ .basic) (hv : ∀ k ∈ p.order.toList, p.contains k) :
    p.conflictingPairs strategy = .ok (ownersInConflict (p.bufferConflict strategy) p.allBuffers) := by
  have skips : (strategy != .basic) = true := by simpa using aware
  rw [conflictingPairs_eq_ownBuffers hv, skips, ownBuffers_true]

/-- Each two owners whose buffers are in conflict are noted with each other. -/
def NotesConflicts (program : Program) (strategy : MemoryStrategy) : Prop :=
  ∀ before middle after first second, program.order.toList = before ++ first :: (middle ++ second ::
    after) → ∀ firstBuffer secondBuffer, program.bufferAt? (first, before.length) = some firstBuffer →
    program.bufferAt? (second, before.length + 1 + middle.length) = some secondBuffer →
    program.bufferConflict strategy firstBuffer secondBuffer → program.InConflict first second

/-- **The memory dependencies can be computed, and note every conflict.** -/
theorem exists_computed (complete : p.HasCompleteOrder) (aware : strategy ≠ .basic) : ∃ hc,
    Edit.computeConflicts strategy p = .ok () hc ∧ Noted p hc ∧ hc.NotesConflicts strategy := by
  have cleared := noted_clearConflicts p
  have completeCleared := complete.altered cleared.annotated
  have hv := fun k => (completeCleared.complete k).mp
  have pairs := conflictingPairs_eq aware hv
  obtain ⟨noted, all⟩ := foldl_addConflict (ownersInConflict (p.clearConflicts.bufferConflict strategy)
    p.clearConflicts.allBuffers) p.clearConflicts
  refine ⟨_, computeConflicts_eq strategy pairs, cleared.trans noted, ?_⟩
  intro pre mid after a b split firstBuffer secondBuffer ofFirst ofSecond conflict
  rw [noted.order] at split
  rw [alters_role_bufferAt? noted.roles] at ofFirst ofSecond
  rw [noted.bufferConflict] at conflict
  have ne : a ≠ b := by
    have nd := completeCleared.nodup
    rw [split] at nd
    rintro rfl
    simp [nodup_append] at nd
  refine all a b (.inr ⟨?_, ne, hv a (by simp [split]), hv b (by simp [split])⟩)
  have sublist := pair_sublist_buffers split ofFirst ofSecond
  have owners : (firstBuffer.owner, secondBuffer.owner) = (a, b) := by
    rw [owner_of_bufferAt? ofFirst, owner_of_bufferAt? ofSecond]
  rw [ownersInConflict, List.mem_map]
  exact ⟨(firstBuffer, secondBuffer), mem_filter.mpr ⟨mem_laterPairs sublist, conflict⟩, owners⟩

/-! ## A small program -/

/-- An input, a reshape of it that runs in place, a layer that reads the reshape, and an output
that reads the layer. -/
def inPlaceChain : Program where
  id := 0
  store := { cells := [
    some (.ofPrimitive { id := "in", kind := .inputLayout ⟨.bfyx, ⟨1, 1, 1, 1⟩, {}⟩ }),
    some { ofPrimitive { id := "flat", kind := .reshape ⟨1, 1, 1, 1⟩ } with runsInPlace := true },
    some (.ofPrimitive { id := "dense", kind := .fullyConnected 1 }),
    some { ofPrimitive { id := "out", kind := .softmax } with isOutput := true }] }
  edges := [⟨2, 3, 0⟩, ⟨1, 2, 0⟩, ⟨0, 1, 0⟩]
  names := [("in", 0), ("flat", 1), ("dense", 2), ("out", 3)]
  order := ⟨[0, 1, 2, 3]⟩
  inputs := [0]
  outputs := [3]

end Program

end LayerGraph
