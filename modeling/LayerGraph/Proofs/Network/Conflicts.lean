import LayerGraph.Proofs.Meaning.Retention
import LayerGraph.Proofs.Memory.OutOfOrder
import LayerGraph.Proofs.Network.Derivation

/-!
# Conflicts in networks

Without regard to an order of processing, two buffers are in conflict unless data flow puts one of them,
with all its readers, before the other. Data flow is part of the network, and so are conflicts
(`Network.Conflict`). The notes about them are lists in ascending order, which have nothing else to
tell than what is in them: two programs with the same network get the same notes
(`Network.Notes.unique`, `Program.Sound.computeConflicts`).
-/

namespace LayerGraph

open List Buffer

/-! ## Notes -/

theorem Node.pairwise_insertId (id : String) {ids : List String} (ascending : ids.Pairwise (· < ·)) :
    (Node.insertId id ids).Pairwise (· < ·) := by
  induction ids with
  | nil => exact pairwise_singleton _ _
  | cons head tail ih =>
    obtain ⟨below, ascendingTail⟩ := pairwise_cons.mp ascending
    rw [Node.insertId]
    split
    · next smaller =>
      refine pairwise_cons.mpr ⟨fun o mem => ?_, ascending⟩
      rcases mem_cons.mp mem with rfl | inTail
      · exact smaller
      · exact String.lt_trans smaller (below o inTail)
    · next notSmaller =>
      split
      · exact ascending
      · next ne =>
        refine pairwise_cons.mpr ⟨fun o mem => ?_, ih ascendingTail⟩
        rcases Node.mem_insertId.mp mem with rfl | inTail
        · exact Std.lt_of_le_of_ne (String.not_lt.mp notSmaller) (Ne.symm ne)
        · exact below o inTail

namespace Program

variable {p q : Program} {k : NodeKey} {n : Node}

/-- Two keys are listed as a pair, in one order or the other. -/
def Paired (pairs : List (NodeKey × NodeKey)) (first second : NodeKey) : Prop :=
  (first, second) ∈ pairs ∨ (second, first) ∈ pairs

/-- What is noted with a node, when the nodes of some pairs are noted with each other. -/
structure NotesPairs (program : Program) (pairs : List (NodeKey × NodeKey)) (key : NodeKey)
    (node noted : Node) : Prop where
  same : noted.withoutConflicts = node.withoutConflicts
  ascending : node.conflicts.Pairwise (· < ·) → noted.conflicts.Pairwise (· < ·)
  mem : ∀ id, id ∈ noted.conflicts ↔ id ∈ node.conflicts ∨ ∃ other, other ≠ key ∧
    Paired pairs key other ∧ (program.node? other).map Node.id = some id

variable {pairs : List (NodeKey × NodeKey)}

theorem NotesPairs.unchanged (unpaired : ∀ o, o ≠ k → Paired pairs k o → p.node? o = none) : NotesPairs p
    pairs k n n where
  same := rfl
  ascending := fun h => h
  mem := fun id => by
    constructor
    · exact .inl
    · intro h
      rcases h with old | ⟨o, ne, paired, hk⟩
      · exact old
      · rw [unpaired o ne paired] at hk
        cases hk

theorem notesPairs_withConflict {mate : Node} {o : NodeKey} (ne : o ≠ k) (ho : p.node? o = some mate)
    (only : ∀ m, Paired pairs k m ↔ m = o) : NotesPairs p pairs k n (n.withConflict mate.id) where
  same := rfl
  ascending := Node.pairwise_insertId mate.id
  mem := fun id => by
    rw [Node.withConflict, Node.mem_insertId, or_comm]
    apply or_congr_right
    constructor
    · intro isMate
      exact ⟨o, ne, (only o).mpr rfl, by rw [ho, isMate, Option.map_some]⟩
    · rintro ⟨m, -, paired, hk⟩
      rw [(only m).mp paired, ho] at hk
      exact (Option.some.inj hk).symm

/-- One pair is noted with both of its nodes. -/
theorem notesPairs_addConflict {a b : NodeKey} (hk : p.node? k = some n) :
    ∃ noted, (p.addConflict a b).node? k = some noted ∧ NotesPairs p [(a, b)] k n noted := by
  have paired : ∀ o, Paired [(a, b)] k o ↔ k = a ∧ o = b ∨ k = b ∧ o = a := by
    intro o
    simp [Paired, and_comm]
  rw [addConflict]
  by_cases e : a = b
  · rw [if_pos e]
    refine ⟨n, hk, .unchanged fun o ne h => ?_⟩
    rcases (paired o).mp h with both | both
    · exact absurd (both.2.trans (e.symm.trans both.1.symm)) ne
    · exact absurd (both.2.trans (e.trans both.1.symm)) ne
  rw [if_neg e]
  cases foundFirst : p.node? a with
  | none =>
    refine ⟨n, hk, .unchanged fun o ne h => ?_⟩
    rcases (paired o).mp h with both | both
    · rw [both.1, foundFirst] at hk
      cases hk
    · rw [both.2, foundFirst]
  | some one =>
    cases foundSecond : p.node? b with
    | none =>
      refine ⟨n, hk, .unchanged fun o ne h => ?_⟩
      rcases (paired o).mp h with both | both
      · rw [both.2, foundSecond]
      · rw [both.1, foundSecond] at hk
        cases hk
    | some m =>
      simp only [node?_modifyNode, hk]
      by_cases isFirst : k = a
      · have notSecond : k ≠ b := fun h => e (isFirst.symm.trans h)
        refine ⟨n.withConflict m.id, ?_, notesPairs_withConflict notSecond.symm foundSecond fun o => ?_⟩
        · rw [if_neg notSecond, if_pos isFirst, Option.map_some]
        · rw [paired]
          simp [isFirst, e]
      by_cases isSecond : k = b
      · refine ⟨n.withConflict one.id, ?_, notesPairs_withConflict (Ne.symm isFirst)
          foundFirst fun o => ?_⟩
        · rw [if_pos isSecond, if_neg isFirst, Option.map_some]
        · rw [paired]
          simp [isSecond, Ne.symm e]
      · refine ⟨n, by rw [if_neg isSecond, if_neg isFirst], .unchanged fun o _ h => ?_⟩
        rcases (paired o).mp h with both | both
        · exact absurd both.1 isFirst
        · exact absurd both.1 isSecond

/-- Noting one pair after the other notes all of them, and nothing else. -/
theorem notesPairs_foldl (hk : p.node? k = some n) : ∃ noted, (p.noteConflicts pairs).node? k = some noted ∧
    NotesPairs p pairs k n noted := by
  induction pairs generalizing p n with
  | nil => exact ⟨n, hk, .unchanged fun o _ h => by simp [Paired] at h⟩
  | cons pair rest ih =>
    have added : ∃ a, (p.addConflict pair.1 pair.2).node? k = some a ∧
        NotesPairs p [(pair.1, pair.2)] k n a := notesPairs_addConflict hk
    obtain ⟨a, foundFirst, notes⟩ := added
    obtain ⟨noted, foundNoted, more⟩ := ih foundFirst
    refine ⟨noted, foundNoted, more.same.trans notes.same,
      fun ascending => more.ascending (notes.ascending ascending), fun id => ?_⟩
    have ids : ∀ o, ((p.addConflict pair.1 pair.2).node? o).map Node.id =
        (p.node? o).map Node.id := fun o =>
      ((noted_addConflict p pair.1 pair.2).annotated.weaken (fun core => core.1.id) fun _ => rfl).same o
    rw [more.mem, notes.mem, or_assoc]
    apply or_congr_right
    rw [← exists_or]
    apply exists_congr
    intro o
    have either : Paired (pair :: rest) k o ↔ Paired [pair] k o ∨ Paired rest k o := by
      simp only [Paired, mem_cons, not_mem_nil, or_false]
      tauto
    rw [ids, either]
    tauto

end Program

/-! ## Conflicts of a network -/

namespace Network

variable {net : Network} {owner user a b : String}

/-- A node runs in place. -/
def InPlace (net : Network) (id : String) : Prop :=
  ∃ cell, net.cell? id = some cell ∧ cell.runsInPlace = true

/-- A node that runs in place hands the buffer that it lies in on to a reader. -/
def HandsOn (net : Network) (middle user : String) : Prop := net.InPlace middle ∧ net.Reads user middle

/-- A node reads the buffer of another one, or lies in it. -/
def UsesBuffer (net : Network) (owner user : String) : Prop :=
  ∃ start, net.Reads start owner ∧ Relation.ReflTransGen net.HandsOn start user

/-- A node has a buffer of its own. -/
def Owns (net : Network) (id : String) : Prop :=
  ∃ cell, net.cell? id = some cell ∧ cell.tag ≠ .data ∧ cell.runsInPlace = false

/-- An output lies in the buffer of a node. -/
def Keeps (net : Network) (owner : String) : Prop :=
  ∃ id cell, net.cell? id = some cell ∧ cell.isOutput = true ∧
    (id = owner ∨ net.UsesBuffer owner id ∧ cell.runsInPlace = true)

/-- Data flow puts a buffer and all its readers before a node. -/
structure Precedes (net : Network) (first second : String) : Prop where
  released : ¬ net.Keeps first
  owner : Relation.TransGen net.Reads second first
  readers : ∀ reader, net.UsesBuffer first reader → ¬ net.InPlace reader →
    Relation.TransGen net.Reads second reader

/-- Data flow leaves open which of two buffers is needed first. -/
structure Conflict (net : Network) (first second : String) : Prop where
  different : first ≠ second
  owns : net.Owns first
  ownsToo : net.Owns second
  unordered : ¬ net.Precedes first second
  unorderedToo : ¬ net.Precedes second first

end Network

namespace Program

variable {p q : Program} {k o user : NodeKey} {n : Node}

section Buffers

variable (wf : p.Consistent)
include wf

theorem Consistent.inPlace_iff (hv : p.contains k) :
    p.network.InPlace (p.idOf k) ↔ p.runsInPlace k := by
  obtain ⟨n, hk⟩ := contains_iff.mp hv
  rw [Network.InPlace, idOf_of_node? hk, wf.exists_cell_iff hk, runsInPlace, hk]
  exact Iff.rfl

/-- The readers of a node, as in the network. -/
theorem Consistent.reads_idOf (hv : p.contains k) {r : String} :
    p.network.Reads r (p.idOf k) ↔ ∃ user ∈ p.users k, p.idOf user = r := by
  obtain ⟨n, hk⟩ := contains_iff.mp hv
  rw [idOf_of_node? hk, wf.reads_id_iff hk]
  exact exists_congr fun user => and_congr_left fun _ => mem_users_iff.symm

/-- A reader of a node in a buffer, as far as the buffer is handed on. -/
def handsOn (program : Program) (middle user : NodeKey) : Prop :=
  user ∈ if program.aliases true middle then program.users middle else []

omit wf in
theorem handsOn_iff : p.handsOn k user ↔ p.runsInPlace k ∧ user ∈ p.users k := by
  rw [handsOn, aliases_true]
  split
  · next inPlace => simp [inPlace]
  · next apart => simp [apart]

theorem Consistent.mem_bufferUsers_iff : user ∈ p.bufferUsers true k ↔
    ∃ start ∈ p.users k, Relation.ReflTransGen p.handsOn start user := by
  constructor
  · intro mem
    obtain none | hk := path_of_mem_reach mem
    · cases none
    · exact hk
  · rintro ⟨start, mem, path⟩
    apply mem_reach_of_path _ mem path
    intro mid next handed
    obtain ⟨-, isUser⟩ := handsOn_iff.mp handed
    exact wf.mem_keys.mpr (wf.reads_live next mid (mem_users_iff.mp isUser)).1

/-- The users of a buffer, as in the network. -/
theorem Consistent.usesBuffer_iff (hv : p.contains k) {id : String} :
    p.network.UsesBuffer (p.idOf k) id ↔
      ∃ user ∈ p.bufferUsers true k, p.contains user ∧ p.idOf user = id := by
  constructor
  · rintro ⟨start, hr, path⟩
    induction path with
    | refl =>
      obtain ⟨user, mem, rfl⟩ := (wf.reads_idOf hv).mp hr
      exact ⟨user, wf.mem_bufferUsers_iff.mpr ⟨user, mem, .refl⟩, wf.users_live mem, rfl⟩
    | tail _ handed ih =>
      obtain ⟨mid, mem, middleLive, rfl⟩ := ih
      obtain ⟨inPlace, readsMiddle⟩ := handed
      obtain ⟨user, isUser, rfl⟩ := (wf.reads_idOf middleLive).mp readsMiddle
      obtain ⟨a, inFirst, path⟩ := wf.mem_bufferUsers_iff.mp mem
      refine ⟨user, wf.mem_bufferUsers_iff.mpr ⟨a, inFirst, path.tail (handsOn_iff.mpr ⟨(wf.inPlace_iff
        middleLive).mp inPlace, isUser⟩)⟩, wf.users_live isUser, rfl⟩
  · rintro ⟨user, mem, -, rfl⟩
    obtain ⟨start, inUsers, path⟩ := wf.mem_bufferUsers_iff.mp mem
    refine ⟨p.idOf start, (wf.reads_idOf hv).mpr ⟨start, inUsers, rfl⟩, ?_⟩
    apply path.lift p.idOf
    intro mid next handed
    obtain ⟨inPlace, isUser⟩ := handsOn_iff.mp handed
    have middleLive := (wf.reads_live next mid (mem_users_iff.mp isUser)).1
    exact ⟨(wf.inPlace_iff middleLive).mpr inPlace, (wf.reads_idOf middleLive).mpr ⟨next, isUser, rfl⟩⟩

end Buffers

/-! ## What nodes depend on -/

variable {kn : List (NodeKey × List NodeKey)} {place pos : Nat} {m : Node}

/-- What is collected for a node: what it reads, and what was collected for that. -/
theorem mem_foldl_ancestors {dependencies hk : List NodeKey} {ancestor : NodeKey} : ancestor ∈
    dependencies.foldl (fun hk dep => (dep :: (List.lookup dep kn).getD []).foldl (fun hk ancestor =>
    hk.insert ancestor) hk) hk ↔ ancestor ∈ hk ∨ ∃ dep ∈ dependencies, ancestor = dep ∨ ancestor ∈
    (List.lookup dep kn).getD [] := by
  induction dependencies generalizing hk with
  | nil => simp
  | cons dep rest ih =>
    rw [foldl_cons, ih, mem_foldl_insert, mem_cons, or_assoc]
    simp only [mem_cons, exists_eq_or_imp]

/-- Everything that some nodes depend on was collected for them. -/
def CollectedAll (program : Program) (known : List (NodeKey × List NodeKey)) (keys : List NodeKey) :
    Prop :=
  ∀ key ∈ keys, ∃ above, List.lookup key known = some above ∧
    ∀ ancestor, program.DependsOn key ancestor → ancestor ∈ above

theorem CollectedAll.collectAncestors {hl rest : List NodeKey} (collected : p.CollectedAll kn hl)
    (nodup : (hl ++ rest).Nodup) (pre : ∀ k, ∀ dep ∈ p.dependencies k, [dep, k].Sublist (hl ++ rest))
    : p.CollectedAll (p.collectAncestors kn rest) (hl ++ rest) := by
  induction rest generalizing kn hl with
  | nil =>
    rw [append_nil]
    exact collected
  | cons k rest ih =>
    have ha : k ∉ hl := fun mem =>
      (nodup_cons.mp (nodup_middle.mp nodup)).1 (mem_append_left rest mem)
    have shift : hl ++ k :: rest = (hl ++ [k]) ++ rest := by simp
    have here := fun dep hr =>
      mem_of_pair_sublist_append nodup (pre k dep hr)
    rw [shift] at nodup pre ⊢
    rw [Program.collectAncestors]
    refine ih (fun o mem => ?_) nodup pre
    rw [lookup_cons]
    rcases mem_append.mp mem with old | isKey
    · have differs : (o == k) = false := by
        rw [beq_eq_false_iff_ne]
        exact fun e => ha (e ▸ old)
      simp only [differs]
      exact collected o old
    · rw [mem_singleton.mp isKey, BEq.rfl]
      refine ⟨_, rfl, fun ancestor depends => mem_foldl_ancestors.mpr (.inr ?_)⟩
      obtain ⟨dep, path, hr⟩ := Relation.TransGen.tail'_iff.mp depends
      refine ⟨dep, hr, ?_⟩
      rcases Relation.reflTransGen_iff_eq_or_transGen.mp path with e | longer
      · exact .inl e.symm
      · obtain ⟨above, hc, all⟩ := collected dep (here dep hr)
        rw [hc, Option.getD_some]
        exact .inr (all ancestor longer)

/-- The ancestors of a node are exactly the nodes that it depends on. -/
theorem HasCompleteOrder.lookup_ancestors (complete : p.HasCompleteOrder)
    (hv : p.contains k) : ∃ above, List.lookup k p.ancestors = some above ∧
      ∀ ancestor, ancestor ∈ above ↔ p.DependsOn k ancestor := by
  have all : p.CollectedAll p.ancestors ([] ++ p.order.toList) := CollectedAll.collectAncestors (fun _
    mem => absurd mem not_mem_nil) complete.nodup complete.before
  obtain ⟨above, hc, collected⟩ := all k ((complete.complete k).mpr hv)
  exact ⟨above, hc, fun ancestor =>
    ⟨p.collected_ancestors k above hc ancestor, collected ancestor⟩⟩

theorem Consistent.dependsOn_iff (wf : p.Consistent) (hv : p.contains k)
    (otherLive : p.contains o) : p.DependsOn k o ↔
      Relation.TransGen p.network.Reads (p.idOf k) (p.idOf o) := by
  constructor
  · intro depends
    have step : ∀ dep r, dep ∈ p.dependencies r → Function.swap p.network.Reads (p.idOf dep) (p.idOf r)
        := fun _ _ hr => wf.reads_of_dependency hr
    exact Relation.transGen_swap.mp (Relation.TransGen.lift p.idOf step _ _ depends)
  · intro path
    obtain ⟨dep, dependencyLive, e, feeds⟩ := wf.exists_feeds hv path
    rw [wf.idOf_inj dependencyLive otherLive] at e
    subst e
    exact feeds

theorem Consistent.bufferUser_live (wf : p.Consistent)
    (mem : user ∈ p.bufferUsers true k) : p.contains user := by
  obtain ⟨start, isUser, path⟩ := wf.mem_bufferUsers_iff.mp mem
  rcases Relation.ReflTransGen.cases_tail path with e | ⟨mid, -, handed⟩
  · exact e ▸ wf.users_live isUser
  · exact wf.users_live (handsOn_iff.mp handed).2

/-- A buffer is kept as in the network. -/
theorem Consistent.keeps_iff (wf : p.Consistent) (hk : p.node? k = some n)
    (place : Nat) : p.network.Keeps n.id ↔ (p.bufferOf true place k n).isKept := by
  have hv := contains_of_node? hk
  have kept : (p.bufferOf true place k n).isKept = true ↔ n.isOutput = true ∨ ∃ user ∈ p.bufferUsers true
      k, ∃ st, p.node? user = some st ∧ st.runsInPlace = true ∧ st.isOutput = true := by
    simp only [bufferOf, Bool.or_eq_true, List.any_eq_true, Bool.and_eq_true, aliases_true,
      runsInPlace, Option.any_eq_true]
    apply or_congr_right
    refine exists_congr fun user => and_congr_right fun _ => ?_
    constructor
    · rintro ⟨⟨st, foundUser, inPlace⟩, again, foundAgain, output⟩
      cases foundUser.symm.trans foundAgain
      exact ⟨st, foundUser, inPlace, output⟩
    · rintro ⟨st, foundUser, inPlace, output⟩
      exact ⟨⟨st, foundUser, inPlace⟩, st, foundUser, output⟩
  rw [kept, ← idOf_of_node? hk]
  constructor
  · rintro ⟨id, c, hc, output, isOwner | ⟨uses, inPlace⟩⟩
    · rw [isOwner, idOf_of_node? hk, wf.cell?_of_node? hk] at hc
      cases hc
      exact .inl output
    · obtain ⟨user, mem, userLive, rfl⟩ := (wf.usesBuffer_iff hv).mp uses
      obtain ⟨st, foundUser⟩ := contains_iff.mp userLive
      rw [idOf_of_node? foundUser, wf.cell?_of_node? foundUser] at hc
      cases hc
      exact .inr ⟨user, mem, st, foundUser, inPlace, output⟩
  · intro h
    rcases h with output | ⟨user, mem, st, foundUser, inPlace, output⟩
    · exact ⟨_, _, wf.cell?_of_node? hk, output, .inl (idOf_of_node? hk).symm⟩
    · refine ⟨_, _, wf.cell?_of_node? foundUser, output, .inr ⟨?_, inPlace⟩⟩
      exact (wf.usesBuffer_iff hv).mpr
        ⟨user, mem, contains_of_node? foundUser, idOf_of_node? foundUser⟩

/-- Data flow puts one buffer before another one as in the network. -/
theorem Sound.precedes_iff (hs : p.Sound) (hk : p.node? k = some n) (foundToo : p.node? o = some m) :
    precedes p.ancestors (p.bufferOf true place k n) (p.bufferOf true pos o m) = true ↔
    p.network.Precedes n.id m.id := by
  have wf := hs.consistent
  have hv := contains_of_node? hk
  have liveToo := contains_of_node? foundToo
  obtain ⟨above, hc, mem⟩ := hs.complete.lookup_ancestors liveToo
  have owner : (p.bufferOf true pos o m).owner = o := rfl
  have depends := fun ancestor (ancestorLive : p.contains ancestor) =>
    (mem ancestor).trans (wf.dependsOn_iff liveToo ancestorLive)
  have readers : ∀ r, r ∈ (p.bufferOf true place k n).readers ↔
      r ∈ p.bufferUsers true k ∧ p.runsInPlace r = false := by
    intro r
    simp only [bufferOf, mem_filter, aliases_true, Bool.not_eq_true']
  rw [precedes, owner, hc]
  simp only [Bool.and_eq_true, Bool.not_eq_true', List.all_eq_true, contains_iff_mem]
  rw [← idOf_of_node? foundToo]
  constructor
  · rintro ⟨⟨released, isAbove⟩, all⟩
    refine ⟨?_, ?_, fun r uses apart => ?_⟩
    · rw [wf.keeps_iff hk place, released]
      exact Bool.false_ne_true
    · rw [← idOf_of_node? hk]
      exact (depends k hv).mp isAbove
    · rw [← idOf_of_node? hk] at uses
      obtain ⟨user, member, userLive, rfl⟩ := (wf.usesBuffer_iff hv).mp uses
      rw [wf.inPlace_iff userLive, Bool.not_eq_true] at apart
      exact (depends user userLive).mp (all user ((readers user).mpr ⟨member, apart⟩))
  · intro h
    refine ⟨⟨?_, ?_⟩, fun r member => ?_⟩
    · exact Bool.eq_false_iff.mpr fun kept =>
        h.released ((wf.keeps_iff hk place).mpr kept)
    · refine (depends k hv).mpr ?_
      rw [idOf_of_node? hk]
      exact h.owner
    · obtain ⟨isUser, apart⟩ := (readers r).mp member
      have readerLive := wf.bufferUser_live isUser
      refine (depends r readerLive).mpr (h.readers _ ?_ ?_)
      · rw [← idOf_of_node? hk]
        exact (wf.usesBuffer_iff hv).mpr ⟨r, isUser, readerLive, rfl⟩
      · rw [wf.inPlace_iff readerLive, apart]
        exact Bool.false_ne_true

/-! ## Pairs in conflict -/

theorem Consistent.owns_iff (wf : p.Consistent) (hk : p.node? k = some n) :
    p.network.Owns n.id ↔ n.tag ≠ .data ∧ n.runsInPlace = false := by
  rw [Network.Owns, wf.exists_cell_iff hk]
  exact Iff.rfl

theorem Sound.isUnordered_iff (hs : p.Sound) (hk : p.node? k = some n) (foundToo : p.node? o = some m)
    : isUnordered p.ancestors (p.bufferOf true place k n) (p.bufferOf true pos o m) = true ↔ ¬
    p.network.Precedes n.id m.id ∧ ¬ p.network.Precedes m.id n.id := by
  rw [isUnordered, Bool.and_eq_true, Bool.not_eq_true', Bool.not_eq_true', ← Bool.not_eq_true, ←
    Bool.not_eq_true, hs.precedes_iff hk foundToo, hs.precedes_iff foundToo hk]

theorem Consistent.counts_iff (wf : p.Consistent) (hk : p.node? k = some n) :
    p.countsAsOwner true k ↔ p.network.Owns n.id := by
  rw [wf.owns_iff hk, countsAsOwner, hk]
  simp

/-- The pairs in conflict are those of the network. -/
theorem Sound.paired_iff (hs : p.Sound) (hk : p.node? k = some n) (foundToo : p.node? o = some m) : o
    ≠ k ∧ Paired (ownersInConflict (isUnordered p.ancestors) p.allBuffers) k o ↔
    p.network.Conflict n.id m.id := by
  have wf := hs.consistent
  have nodup := hs.complete.nodup
  obtain ⟨place, placed⟩ := hs.complete.exists_position (contains_of_node? hk)
  obtain ⟨pos, placedToo⟩ := hs.complete.exists_position (contains_of_node? foundToo)
  rw [Paired, ← ownBuffers_true, mem_ownersInConflict_iff nodup hk foundToo placed placedToo,
    mem_ownersInConflict_iff nodup foundToo hk placedToo placed, wf.counts_iff hk, wf.counts_iff
    foundToo, hs.isUnordered_iff hk foundToo, hs.isUnordered_iff foundToo hk]
  constructor
  · rintro ⟨ne, h⟩
    have ids : n.id ≠ m.id := fun e =>
      ne (wf.key_eq_of_id_eq foundToo hk e.symm)
    rcases h with ⟨⟨owns, ownsToo⟩, -, one, two⟩ | ⟨⟨ownsToo, owns⟩, -, two, one⟩
    · exact ⟨ids, owns, ownsToo, one, two⟩
    · exact ⟨ids, owns, ownsToo, one, two⟩
  · rintro ⟨ids, owns, ownsToo, one, two⟩
    have ne : o ≠ k := by
      rintro rfl
      cases hk.symm.trans foundToo
      exact ids rfl
    have apart : place ≠ pos := by
      rintro rfl
      obtain ⟨_, here, -⟩ := idxOf?_eq_some_iff.mp placed
      obtain ⟨_, hereToo, -⟩ := idxOf?_eq_some_iff.mp placedToo
      exact ne (hereToo.symm.trans here)
    rcases Nat.lt_or_gt_of_ne apart with earlier | later
    · exact ⟨ne, .inl ⟨⟨owns, ownsToo⟩, earlier, one, two⟩⟩
    · exact ⟨ne, .inr ⟨⟨ownsToo, owns⟩, later, two, one⟩⟩

end Program

/-! ## Noted conflicts of a network -/

/-- A cell without notes about conflicts. -/
def Cell.unnoted (cell : Cell) : Cell := cell.withNode (·.noting [])

namespace Network

variable {net next last : Network}

/-- The notes about conflicts are those of a network, and everything else is as it was. -/
structure Notes (net next : Network) : Prop where
  dropped : next.dropped = net.dropped
  cells : ∀ id, (next.cell? id).map Cell.unnoted = (net.cell? id).map Cell.unnoted
  ascending : ∀ id cell, next.cell? id = some cell → cell.conflicts.Pairwise (· < ·)
  mem : ∀ id cell, next.cell? id = some cell → ∀ other, other ∈ cell.conflicts ↔ net.Conflict id other

theorem eq_of_ascending {a b : List String} (one : a.Pairwise (· < ·))
    (m : b.Pairwise (· < ·)) (e : ∀ id, id ∈ a ↔ id ∈ b) : a = b := by
  have nodup : ∀ ids : List String, ids.Pairwise (· < ·) → ids.Pairwise (· ≠ ·) := by
    intro ids ascending
    apply ascending.imp
    intro smaller larger below e
    exact String.lt_irrefl larger (e ▸ below)
  exact Perm.eq_of_pairwise (fun _ _ _ _ smaller larger => absurd (String.lt_trans smaller larger)
    (String.lt_irrefl _)) one m ((perm_ext_iff_of_nodup (nodup a one) (nodup b m)).mpr e)

theorem Cell.eq_of_unnoted {c o : Cell} (e : c.unnoted = o.unnoted)
    (notes : c.conflicts = o.conflicts) : c = o :=
  calc c = c.unnoted.withNode (·.noting c.conflicts) := rfl
    _ = o.unnoted.withNode (·.noting o.conflicts) := by rw [e, notes]
    _ = o := rfl

/-- **The notes about conflicts are determined.** -/
theorem Notes.unique (notes : net.Notes next) (notesToo : net.Notes last) : next = last := by
  apply Network.ext
  · funext id
    have cells := (notes.cells id).trans (notesToo.cells id).symm
    cases hk : next.cell? id with
    | none =>
      rw [hk, Option.map_none] at cells
      exact (Option.map_eq_none_iff.mp cells.symm).symm
    | some c =>
      rw [hk, Option.map_some] at cells
      obtain ⟨o, foundToo, e⟩ := Option.map_eq_some_iff.mp cells.symm
      rw [foundToo]
      refine congrArg some (Cell.eq_of_unnoted e.symm (eq_of_ascending
        (notes.ascending id c hk) (notesToo.ascending id o foundToo) fun noted => ?_))
      rw [notes.mem id c hk, notesToo.mem id o foundToo]
  · rw [notes.dropped, notesToo.dropped]

end Network

namespace Program

variable {p q : Program} {k : NodeKey}

theorem unnoted_cellAt (p : Program) (k : NodeKey) (n : Node) :
    (p.cellAt k n).unnoted = (p.cellAt k n.withoutConflicts).unnoted := rfl

/-- Notes about conflicts change nothing else in a network. -/
theorem Noted.cells (noted : Noted p q) (id : String) :
    (q.network.cell? id).map Cell.unnoted = (p.network.cell? id).map Cell.unnoted := by
  have names : q.keyOf? id = p.keyOf? id := by
    rw [keyOf?, keyOf?, noted.annotated.rest]
  have ids : ∀ k, q.idOf k = p.idOf k := by
    rw [idOf_of_alters noted.annotated.label]
    exact fun _ => rfl
  have e := SameSetting.of_alters noted.annotated
  have faces : ∀ st : Program, (∀ k n, st.cellAt k n = p.cellAt k n) → ∀ k, (st.face? k).map Cell.unnoted
      = ((st.node? k).map Node.withoutConflicts).map fun n => (p.cellAt k n).unnoted := by
    intro st cellsSame k
    rw [face?, Option.map_map, Option.map_map]
    congr 1
    funext n
    rw [Function.comp_apply, Function.comp_apply, cellsSame, unnoted_cellAt]
  show ((q.keyOf? id).bind q.face?).map Cell.unnoted = ((p.keyOf? id).bind p.face?).map Cell.unnoted
  rw [names]
  cases p.keyOf? id with
  | none => rfl
  | some k =>
    rw [Option.bind_some, Option.bind_some, faces q (e.cellAt ids), faces p fun _ _ => rfl, noted.nodes]

/-- When conflicts depend on the order of processing, they are not shown. -/
theorem Noted.network (noted : Noted p q)
    (hidden : p.options.memoryStrategy ≠ .outOfOrderAware) : q.network = p.network := by
  have e := SameSetting.of_alters noted.annotated
  have shown : ∀ st : Program, st.options = p.options → ∀ id,
      (st.network.cell? id).map Cell.unnoted = st.network.cell? id := by
    intro st opts id
    cases hk : st.network.cell? id with
    | none => rfl
    | some c =>
      obtain ⟨k, named, face⟩ := Option.bind_eq_some_iff.mp hk
      obtain ⟨n, -, rfl⟩ := exists_of_face? face
      rw [Option.map_some, cellAt, Program.shown, opts, if_neg hidden]
      rfl
  apply Network.ext
  · funext id
    rw [← shown q e.options, noted.cells, shown p rfl]
  · funext id
    simp only [Program.network, e.optimizedOut]

theorem Noted.allBuffers (noted : Noted p q) : q.allBuffers = p.allBuffers := by
  rw [Program.allBuffers, Program.allBuffers, noted.order, alters_role_bufferAt? noted.roles]

theorem node?_clearConflicts (p : Program) (k : NodeKey) :
    p.clearConflicts.node? k = (p.node? k).map Node.withoutConflicts := by
  rw [clearConflicts, node?, NodeStore.get?_map]
  rfl

/-- What is noted with a node are the ids of the nodes that it is paired with. -/
theorem exists_noted (pairs : List (NodeKey × NodeKey)) (hk : p.node? k = some n) :
    ∃ after, (p.clearConflicts.noteConflicts pairs).node? k = some after ∧
      after.withoutConflicts = n.withoutConflicts ∧ after.conflicts.Pairwise (· < ·) ∧
      ∀ id, id ∈ after.conflicts ↔
        ∃ o mate, p.node? o = some mate ∧ mate.id = id ∧ o ≠ k ∧ Paired pairs k o := by
  have cleared : p.clearConflicts.node? k = some n.withoutConflicts := by
    rw [node?_clearConflicts, hk, Option.map_some]
  obtain ⟨after, foundAfter, notes⟩ := notesPairs_foldl cleared
  refine ⟨after, foundAfter, notes.same, notes.ascending List.Pairwise.nil, fun id => ?_⟩
  rw [notes.mem]
  constructor
  · rintro (old | ⟨o, ne, paired, isMate⟩)
    · cases old
    · rw [node?_clearConflicts, Option.map_map] at isMate
      obtain ⟨mate, foundMate, rfl⟩ := Option.map_eq_some_iff.mp isMate
      exact ⟨o, mate, foundMate, rfl, ne, paired⟩
  · rintro ⟨o, mate, foundMate, rfl, ne, paired⟩
    refine .inr ⟨o, ne, paired, ?_⟩
    rw [node?_clearConflicts, foundMate]
    rfl

/-- When exactly the pairs in conflict are noted, the notes are those of the network. -/
theorem Sound.notes_of_pairs (hs : p.Sound)
    (aware : p.options.memoryStrategy = .outOfOrderAware) (noted : Noted p q)
    (made : p.clearConflicts.noteConflicts (ownersInConflict (isUnordered p.ancestors)
      p.allBuffers) = q) : p.network.Notes q.network := by
  have wf := hs.consistent
  have e := SameSetting.of_alters noted.annotated
  have told : ∀ id c, q.network.cell? id = some c → c.conflicts.Pairwise (· < ·) ∧
      ∀ o, o ∈ c.conflicts ↔ p.network.Conflict id o := by
    intro id c hc
    obtain ⟨k, n, hk, rfl, rfl⟩ :=
      (wf.annotated noted.annotated).exists_node_of_cell? hc
    obtain ⟨pre, hb, core⟩ := noted.annotated.node? hk
    obtain ⟨after, foundAfter, -, ascending, mem⟩ := exists_noted _ hb
    rw [made] at foundAfter
    cases hk.symm.trans foundAfter
    have sameId : n.id = pre.id := (congrArg (fun core => core.1.id) core).symm
    have shown : (q.cellAt k n).conflicts = n.conflicts := by
      rw [cellAt, Program.shown, e.options, if_pos aware]
      rfl
    rw [shown]
    refine ⟨ascending, fun o => ?_⟩
    rw [mem, sameId]
    constructor
    · rintro ⟨o, mate, foundMate, rfl, paired⟩
      exact (hs.paired_iff hb foundMate).mp paired
    · intro conflict
      obtain ⟨c, hc, -⟩ := conflict.ownsToo
      obtain ⟨o, mate, foundMate, rfl, -⟩ := wf.exists_node_of_cell? hc
      exact ⟨o, mate, foundMate, rfl, (hs.paired_iff hb foundMate).mpr conflict⟩
  exact
    { dropped := by
        funext id
        simp only [Program.network, e.optimizedOut]
      cells := noted.cells
      ascending := fun id c hc => (told id c hc).1
      mem := fun id c hc => (told id c hc).2 }

/-- The notes after conflicts are computed, when data flow alone decides about them. -/
theorem Sound.notes_computeConflicts (hs : p.Sound)
    (aware : p.options.memoryStrategy = .outOfOrderAware) :
    Ensures (Edit.computeConflicts .outOfOrderAware) p
      (fun _ next => p.network.Notes next.network) fun _ => False := by
  have cleared := noted_clearConflicts p
  have hv : ∀ k ∈ p.clearConflicts.order.toList, p.clearConflicts.contains k :=
    (hs.consistent.annotated cleared.annotated).order_live
  have pairs : p.clearConflicts.conflictingPairs .outOfOrderAware =
      .ok (ownersInConflict (isUnordered p.ancestors) p.allBuffers) := by
    rw [conflictingPairs_eq (by decide) hv, cleared.bufferConflict]
    exact congrArg _ (congrArg _ cleared.allBuffers)
  rw [Ensures, computeConflicts_eq _ pairs]
  exact hs.notes_of_pairs aware (noted_noteConflicts p _) rfl

/-- **Conflicts are noted as in the network,** or not shown at all. -/
theorem Sound.computeConflicts (hs : p.Sound) :
    Ensures (Edit.computeConflicts p.options.memoryStrategy) p
      (fun _ next => if p.options.memoryStrategy = .outOfOrderAware
        then p.network.Notes next.network else next.network = p.network)
      fun _ => False := by
  split
  · next aware =>
    rw [aware]
    exact hs.notes_computeConflicts aware
  · next unaware =>
    obtain ⟨pairs, hk⟩ := hs.consistent.exists_conflictingPairs p.options.memoryStrategy
    rw [Ensures, computeConflicts_eq _ hk]
    exact (noted_noteConflicts p pairs).network unaware

end Program

end LayerGraph
