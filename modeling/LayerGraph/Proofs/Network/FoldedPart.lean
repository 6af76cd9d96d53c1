import LayerGraph.Proofs.Network.Folding
import LayerGraph.Proofs.Network.Marks

/-!
# What is left of the constant part

When the layouts of all constant nodes are known and constant buffers read nothing
(`Network.Primed`), folding constants comes down to two runs. The first one puts a buffer in the place of
every node of the boundary (`Network.cell?_of_run_fold`). The second one goes through the constant part,
readers first, and removes exactly the nodes that are not kept (`Network.cell?_of_run_prune`): such a node
is read by others of the same kind at most, and they are gone when its turn comes. So nothing that stays
reads anything that is removed.

What the runs leave is described by `Network.Folded`.
-/

namespace LayerGraph

open List Option

namespace Cell

/-- The constant buffer for a cell whose layout is known. -/
def filled (cell : Cell) : Cell :=
  match cell.layout with
  | none => cell
  | some layout => cell.folded layout

theorem filled_of_layout {c : Cell} {lay : Layout} (kn : c.layout = some lay) :
    c.filled = c.folded lay := by
  rw [filled, kn]

/-- A constant buffer reads nothing, and a constant node has a known layout. -/
structure Primed (cell : Cell) : Prop where
  bare : cell.tag = .data → cell.reads = []
  known : cell.isConstant → cell.layout.isSome

end Cell

namespace Network

variable {net next last : Network} {id : String} {ids : List String} {change : Node → Node}

/-! ## The two runs -/

theorem cell?_of_fold (folded : fold id net = some next) (o : String) :
    next.cell? o = if o = id then (net.cell? id).map Cell.filled else net.cell? o := by
  obtain ⟨c, hc⟩ : net.has id := by
    obtain ⟨asked, answered, -⟩ := bind_eq_some_iff.mp folded
    exact isSome_iff_exists.mp (isSome_of_buffer? answered)
  rw [fold_of_cell? hc] at folded
  rw [hc, map_some, Cell.filled]
  cases kn : c.layout with
  | none =>
    rw [kn] at folded
    cases folded
    split
    · next isId => rw [isId, hc]
    · rfl
  | some lay =>
    rw [kn] at folded
    obtain ⟨-, e⟩ := ite_none_left_eq_some.mp folded
    rw [← some.inj e, cell?_put]

/-- **Buffers are put in the place of the nodes of a list, and nothing else changes.** -/
theorem cell?_of_run_fold (nd : ids.Nodup) (res : run fold ids net = some last) (id : String) :
    last.cell? id = if id ∈ ids then (net.cell? id).map Cell.filled else net.cell? id := by
  induction ids generalizing net with
  | nil =>
    cases res
    rfl
  | cons a rest ih =>
    obtain ⟨ha, nodupRest⟩ := nodup_cons.mp nd
    rw [run_cons, bind_eq_some_iff] at res
    obtain ⟨next, folded, later⟩ := res
    rw [ih nodupRest later, cell?_of_fold folded]
    by_cases isFirst : id = a
    · subst isFirst
      rw [if_neg ha, if_pos rfl, if_pos mem_cons_self]
    · rw [if_neg isFirst]
      simp only [mem_cons, isFirst, false_or]

open scoped Classical in
/-- Nothing reads what is removed, so nothing else changes. -/
theorem cell?_of_prune (pruned : prune id net = some next) (o : String) :
    next.cell? o = if o = id ∧ net.Prunable id then none else net.cell? o := by
  rw [← some.inj pruned]
  by_cases prunable : net.Prunable id
  · rw [if_pos prunable]
    by_cases isId : o = id
    · rw [if_pos ⟨isId, prunable⟩, strike, cell?_drop, cell?_put, if_pos isId]
    · rw [if_neg fun h => isId h.1, cell?_strike_of_ne isId]
      cases hc : net.cell? o with
      | none => rfl
      | some c =>
        have unread : c.reads.filter (· != id) = c.reads :=
          filter_eq_self.mpr fun src hr => bne_iff_ne.mpr fun e =>
            prunable.2 o ⟨c, hc, e ▸ hr⟩
        rw [map_some, Cell.withReads, unread]
  · rw [if_neg prunable, if_neg fun h => prunable h.2]

/-- What is kept when a node is removed was kept before. -/
theorem Kept.of_less (less : ∀ o c, next.cell? o = some c → net.cell? o = some c)
    (kept : next.Kept id) : net.Kept id := by
  rcases kept with ⟨c, hc, output⟩ | ⟨r, c, hc, hr, varies⟩
  · exact .inl ⟨c, less id c hc, output⟩
  · exact .inr ⟨r, c, less r c hc, hr, varies⟩

/-- A list of constant nodes, readers first. What is not kept is read only by others that are not. -/
structure Leftovers (net : Network) (ids : List String) : Prop where
  nodup : ids.Nodup
  readersFirst : ids.Pairwise fun earlier later => ¬ net.Reads later earlier
  irreflexive : ∀ id, ¬ net.Reads id id
  constant : ∀ id ∈ ids, ∀ cell, net.cell? id = some cell → cell.isConstant
  wasted : ∀ id ∈ ids, ¬ net.Kept id → ∀ reader, net.Reads reader id → reader ∈ ids ∧ ¬ net.Kept reader

variable {rest : List String} {c : Cell}

theorem Leftovers.prunable (leftovers : net.Leftovers (id :: rest)) (kept : ¬ net.Kept id) (hc :
    net.cell? id = some c) : net.Prunable id := by
  refine ⟨⟨c, hc, ?_⟩, fun r hr => ?_⟩
  · by_contra output
    exact kept (.inl ⟨c, hc, Bool.not_eq_false _ ▸ output⟩)
  · obtain ⟨hl, -⟩ := leftovers.wasted id mem_cons_self kept r hr
    rcases mem_cons.mp hl with rfl | later
    · exact leftovers.irreflexive r hr
    · exact (pairwise_cons.mp leftovers.readersFirst).1 r later hr

open scoped Classical in
/-- One round removes the first node unless it is kept. -/
theorem Leftovers.cell?_of_prune (leftovers : net.Leftovers (id :: rest)) (pruned : prune id net = some
    next) (o : String) : next.cell? o = if o = id ∧ ¬ net.Kept id then none else net.cell? o := by
  rw [Network.cell?_of_prune pruned]
  by_cases kept : net.Kept id
  · rw [if_neg fun h => kept.not_prunable h.2, if_neg fun h => h.2 kept]
  · by_cases isId : o = id
    · rw [if_pos (show o = id ∧ ¬ net.Kept id from ⟨isId, kept⟩), isId]
      cases hc : net.cell? id with
      | none => exact ite_self none
      | some c => exact if_pos ⟨rfl, leftovers.prunable kept hc⟩
    · rw [if_neg fun h => isId h.1, if_neg fun h => isId h.1]

theorem Leftovers.pruned (leftovers : net.Leftovers (id :: rest)) (pruned : prune id net = some next) :
    next.Leftovers rest ∧ ∀ o, next.Kept o ↔ net.Kept o := by
  obtain ⟨ha, nd⟩ := nodup_cons.mp leftovers.nodup
  have less : ∀ o c, next.cell? o = some c → net.cell? o = some c := by
    intro o c hc
    rw [leftovers.cell?_of_prune pruned] at hc
    split at hc
    · cases hc
    · exact hc
  have hr : ∀ {r src}, next.Reads r src → net.Reads r src := fun h => reads_of_prune pruned h
  have kept : ∀ o, next.Kept o ↔ net.Kept o := fun o =>
    ⟨.of_less less, fun kept => kept.prune (leftovers.constant id mem_cons_self) pruned⟩
  refine ⟨⟨nd, ?_, fun o h => leftovers.irreflexive o (hr h), ?_, ?_⟩, kept⟩
  · exact (pairwise_cons.mp leftovers.readersFirst).2.imp fun free h => free (hr h)
  · intro o mem c hc
    exact leftovers.constant o (mem_cons_of_mem _ mem) c (less o c hc)
  · intro o mem unkept r h
    rw [kept] at unkept
    obtain ⟨hl, unkeptReader⟩ := leftovers.wasted o (mem_cons_of_mem _ mem) unkept r (hr h)
    rw [kept]
    refine ⟨(mem_cons.mp hl).resolve_left fun e => ?_, unkeptReader⟩
    obtain ⟨c, hc, -⟩ := h
    rw [leftovers.cell?_of_prune pruned, if_pos ⟨e, e ▸ unkeptReader⟩] at hc
    cases hc

open scoped Classical in
/-- **What is not kept is removed, and nothing else changes.** -/
theorem cell?_of_run_prune (leftovers : net.Leftovers ids) (res : run prune ids net = some last)
    (id : String) :
    last.cell? id = if id ∈ ids ∧ ¬ net.Kept id then none else net.cell? id := by
  induction ids generalizing net with
  | nil =>
    cases res
    rw [if_neg fun h => not_mem_nil h.1]
  | cons a rest ih =>
    rw [run_cons, bind_eq_some_iff] at res
    obtain ⟨next, pruned, later⟩ := res
    obtain ⟨leftoversNext, kept⟩ := leftovers.pruned pruned
    rw [ih leftoversNext later, leftovers.cell?_of_prune pruned]
    by_cases isFirst : id = a
    · subst isFirst
      have ha := (nodup_cons.mp leftovers.nodup).1
      rw [if_neg fun h => ha h.1]
      simp only [true_and, mem_cons_self]
    · by_cases mem : id ∈ rest
      · simp only [mem, isFirst, kept id, mem_cons, or_true, true_and, false_and, if_false]
      · simp only [mem, isFirst, mem_cons, or_false, false_and, if_false]

/-! ## Folding all constants -/

/-- Constant buffers read nothing, and the layouts of constant nodes are known. -/
def Primed (net : Network) : Prop := ∀ id cell, net.cell? id = some cell → cell.Primed

/-- How a network looks when its constants have been folded. -/
structure Folded (net next : Network) : Prop where
  /-- A buffer has taken the place of each node of the boundary. -/
  boundary : ∀ id, net.Boundary id → ∃ cell layout buffer, net.cell? id = some cell ∧
    cell.layout = some layout ∧ next.cell? id = some buffer ∧ buffer.id = id ∧
    buffer.kind = .data layout ∧ buffer.reads = []
  /-- The readers of such a node that are not constant read it in the same slots, and nobody else
  does. -/
  readers : ∀ id, net.Boundary id → ∀ reader (slot : Nat),
    (∃ cell, next.cell? reader = some cell ∧ cell.reads[slot]? = some id) ↔
      ∃ cell, net.cell? reader = some cell ∧ cell.isConstant = false ∧ cell.reads[slot]? = some id
  removed : ∀ id, net.Computed id → ¬ net.Kept id → next.cell? id = none
  uncomputed : ∀ id cell, next.cell? id = some cell → cell.isConstant → cell.tag = .data
  /-- A buffer that was read by constant nodes only is gone. -/
  unread : ∀ id cell, net.cell? id = some cell → cell.tag = .data → cell.isOutput = false →
    (∃ reader, net.Reads reader id) →
    (∀ reader other, net.cell? reader = some other → id ∈ other.reads → other.isConstant) →
    next.cell? id = none
  varying : ∀ id cell, net.cell? id = some cell → cell.isConstant = false → next.cell? id = some cell

theorem Boundary.isConstant (bd : net.Boundary id) (hc : net.cell? id = some c) : c.isConstant :=
    by
  obtain ⟨e, lookedSame, computed⟩ := bd.1
  cases hc.symm.trans lookedSame
  exact (Bool.and_eq_true_iff.mp computed).1

/-- A constant node that reads something is no buffer. -/
theorem Primed.computed (primed : net.Primed) (hc : net.cell? id = some c) (con : c.isConstant)
    (hr : c.reads ≠ []) : net.Computed id :=
  ⟨c, hc, Bool.and_eq_true_iff.mpr
    ⟨con, bne_iff_ne.mpr fun isData => hr ((primed id c hc).bare isData)⟩⟩

theorem Primed.exists_boundary (primed : net.Primed) (bd : net.Boundary id) :
    ∃ c lay, net.cell? id = some c ∧ c.layout = some lay ∧ c.filled = c.folded lay := by
  obtain ⟨c, hc, -⟩ := bd.1
  obtain ⟨lay, kn⟩ := isSome_iff_exists.mp ((primed id c hc).known (bd.isConstant hc))
  exact ⟨c, lay, hc, kn, Cell.filled_of_layout kn⟩

section Runs

variable (primed : net.Primed)
include primed

open scoped Classical in
/-- The buffers are kept because of the same nodes as the nodes in whose place they are. -/
theorem Primed.kept_iff (filled : ∀ id, next.cell? id =
      if net.Boundary id then (net.cell? id).map Cell.filled else net.cell? id) :
    next.Kept id ↔ net.Kept id := by
  have output : (∃ c, next.cell? id = some c ∧ c.isOutput) ↔
      ∃ c, net.cell? id = some c ∧ c.isOutput := by
    rw [filled]
    split
    · next bd =>
      obtain ⟨c, lay, hc, -, isFolded⟩ := primed.exists_boundary bd
      rw [hc, map_some, isFolded]
      simp only [some.injEq, exists_eq_left']
      exact Iff.rfl
    · exact Iff.rfl
  refine or_congr output (exists_congr fun r => ?_)
  rw [filled]
  split
  · next bd =>
    obtain ⟨c, lay, hc, -, isFolded⟩ := primed.exists_boundary bd
    rw [hc, map_some, isFolded]
    simp only [some.injEq, exists_eq_left', bd.isConstant hc, Bool.true_eq_false,
      and_false, iff_false, not_and]
    exact fun isRead => absurd isRead not_mem_nil
  · exact Iff.rfl

open scoped Classical in
/-- **Folding constants fills the boundary and removes the rest of the constant part that is not
kept.** -/
theorem Primed.cell?_of_runs (regular : net.Regular) {bd constants : List String}
    (isBoundary : ∀ id, id ∈ bd ↔ net.Boundary id)
    (isSelected : ∀ id, id ∈ constants ↔ net.Selected id) (nd : bd.Nodup)
    (nodupToo : constants.Nodup)
    (readersFirst : constants.Pairwise fun earlier later => ¬ net.Reads later earlier)
    (irreflexive : ∀ id, ¬ net.Reads id id)
    (res : (run fold bd net).bind (run prune constants) = some last) (id : String) :
    last.cell? id =
      if net.Boundary id then (net.cell? id).map Cell.filled
      else if net.Selected id ∧ ¬ net.Kept id then none else net.cell? id := by
  obtain ⟨next, folds, prunes⟩ := bind_eq_some_iff.mp res
  have filled : ∀ id, next.cell? id =
      if net.Boundary id then (net.cell? id).map Cell.filled else net.cell? id := by
    intro id
    rw [cell?_of_run_fold nd folds]
    simp only [isBoundary]
  have kept : ∀ id, next.Kept id ↔ net.Kept id := fun _ => primed.kept_iff filled
  have hr : ∀ {r src}, next.Reads r src → ¬ net.Boundary r ∧ net.Reads r src := by
    rintro r src ⟨c, hc, isRead⟩
    rw [filled] at hc
    split at hc
    · next bd =>
      obtain ⟨pre, lay, lookedBefore, -, isFolded⟩ := primed.exists_boundary bd
      rw [lookedBefore, map_some, isFolded] at hc
      cases hc
      cases isRead
    · next outside => exact ⟨outside, c, hc, isRead⟩
  have leftovers : next.Leftovers constants := by
    refine ⟨nodupToo, readersFirst.imp fun free h => free (hr h).2,
      fun id h => irreflexive id (hr h).2, ?_, ?_⟩
    · intro id mem c hc
      rw [filled] at hc
      split at hc
      · next bd =>
        obtain ⟨pre, lay, lookedBefore, -, isFolded⟩ := primed.exists_boundary bd
        rw [lookedBefore, map_some, isFolded] at hc
        cases hc
        exact (bd.isConstant lookedBefore : pre.isConstant)
      · exact regular.isConstant ((isSelected id).mp mem) hc
    · -- A reader of what is not kept is constant and reads something, but has not been filled.
      intro id mem unkept r h
      obtain ⟨outside, c, hc, isRead⟩ := hr h
      have con : c.isConstant := by
        by_contra varies
        exact unkept ((kept id).mpr (.inr ⟨r, c, hc, isRead, Bool.eq_false_iff.mpr varies⟩))
      have computed := primed.computed hc con (ne_nil_of_mem isRead)
      rw [isSelected, kept]
      exact ⟨computed.selected, fun keptReader => outside ⟨computed, keptReader⟩⟩
  rw [cell?_of_run_prune leftovers prunes, filled]
  simp only [isSelected, kept]
  by_cases bd : net.Boundary id
  · rw [if_pos bd, if_pos bd, if_neg fun h => h.2 bd.2]
  · rw [if_neg bd, if_neg bd]

open scoped Classical in
theorem Primed.folded (regular : net.Regular)
    (named : ∀ id c, net.cell? id = some c → c.id = id) (cells : ∀ id, next.cell? id =
      if net.Boundary id then (net.cell? id).map Cell.filled
      else if net.Selected id ∧ ¬ net.Kept id then none else net.cell? id) : net.Folded next := by
  -- A cell that is there afterwards is a buffer that reads nothing, or it was there before.
  have origin : ∀ {id c}, next.cell? id = some c → c.reads = [] ∧ c.tag = .data ∨
      net.cell? id = some c ∧ ¬ net.Computed id := by
    intro id c hc
    rw [cells] at hc
    split at hc
    · next bd =>
      obtain ⟨pre, lay, lookedBefore, -, isFolded⟩ := primed.exists_boundary bd
      rw [lookedBefore, map_some, isFolded] at hc
      cases hc
      exact .inl ⟨rfl, rfl⟩
    · next outside =>
      split at hc
      · cases hc
      · next stays =>
        refine .inr ⟨hc, fun computed => stays ⟨computed.selected, fun kept => ?_⟩⟩
        exact outside ⟨computed, kept⟩
  have varying : ∀ id c, net.cell? id = some c → c.isConstant = false →
      next.cell? id = some c := by
    intro id c hc varies
    rw [cells, if_neg, if_neg, hc]
    · intro h
      rw [regular.isConstant h.1 hc] at varies
      cases varies
    · intro bd
      rw [bd.isConstant hc] at varies
      cases varies
  refine ⟨fun id bd => ?_, fun id bd r slot => ?_, fun id computed unkept => ?_,
    fun id c hc con => ?_, fun id c hc isData unmarked isRead con => ?_, varying⟩
  · obtain ⟨c, lay, hc, kn, isFolded⟩ := primed.exists_boundary bd
    refine ⟨c, lay, c.folded lay, hc, kn, ?_, named id c hc, rfl, rfl⟩
    rw [cells, if_pos bd, hc, map_some, isFolded]
  · constructor
    · rintro ⟨c, hc, isRead⟩
      have nonempty : c.reads ≠ [] := ne_nil_of_mem (mem_of_getElem? isRead)
      rcases origin hc with ⟨empty, -⟩ | ⟨lookedBefore, uncomputed⟩
      · exact absurd empty nonempty
      · refine ⟨c, lookedBefore, Bool.eq_false_iff.mpr fun con => ?_, isRead⟩
        exact uncomputed (primed.computed lookedBefore con nonempty)
    · rintro ⟨c, hc, varies, isRead⟩
      exact ⟨c, varying r c hc varies, isRead⟩
  · rw [cells, if_neg fun bd => unkept bd.2, if_pos ⟨computed.selected, unkept⟩]
  · rcases origin hc with ⟨-, isData⟩ | ⟨lookedBefore, uncomputed⟩
    · exact isData
    · by_contra o
      exact uncomputed ⟨c, lookedBefore, Bool.and_eq_true_iff.mpr ⟨con, bne_iff_ne.mpr o⟩⟩
  · have outside : ¬ net.Computed id := by
      rintro ⟨e, lookedSame, computed⟩
      cases hc.symm.trans lookedSame
      exact bne_iff_ne.mp (Bool.and_eq_true_iff.mp computed).2 isData
    have selected : net.Selected id := by
      obtain ⟨r, o, lookedReader, hr⟩ := isRead
      refine .inr ⟨⟨c, hc, isData⟩, r, ?_, o, lookedReader, hr⟩
      exact primed.computed lookedReader (con r o lookedReader hr) (ne_nil_of_mem hr)
    have unkept : ¬ net.Kept id := by
      rintro (⟨e, lookedSame, output⟩ | ⟨r, o, lookedReader, hr, varies⟩)
      · cases hc.symm.trans lookedSame
        rw [unmarked] at output
        cases output
      · rw [con r o lookedReader hr] at varies
        cases varies
    rw [cells, if_neg fun bd => outside bd.1, if_pos ⟨selected, unkept⟩]

end Runs

end Network

end LayerGraph
