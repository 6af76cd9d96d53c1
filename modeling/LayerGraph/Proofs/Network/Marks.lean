import LayerGraph.Proofs.Network.Borders
import LayerGraph.Proofs.Network.ConstantPart
import LayerGraph.Proofs.Network.Removal

/-!
# Marks in networks

When nodes are marked in processing order, everything that a node reads has its final mark before the
node gets its own (`Network.settled_of_run`). So a node that is marked constant reads only constant
nodes, and this stays so when nodes are removed, bypassed or inserted (`Network.Regular`).
-/

namespace LayerGraph.Network

open List Option

variable {net next last : Network} {id : String} {rule : Rule} {change : Node → Node}

/-- Computed constants read only constant nodes. -/
def Regular (net : Network) : Prop :=
  ∀ id cell, net.cell? id = some cell → cell.isComputedConstant →
    ∀ source ∈ cell.reads, ∀ other, net.cell? source = some other → other.isConstant

variable {c : Cell} {i : String} {ids : List String}

/-- The constant part consists of constant nodes. -/
theorem Regular.isConstant (regular : net.Regular) (selected : net.Selected id) (hc : net.cell? id = some
    c) : c.isConstant := by
  rcases selected with ⟨e, lookedSame, computed⟩ | ⟨-, r, computed, hr⟩
  · cases hc.symm.trans lookedSame
    exact (Bool.and_eq_true_iff.mp computed).1
  · obtain ⟨user, lookedUser, isComputed⟩ := computed
    obtain ⟨e, lookedSame, isRead⟩ := hr
    cases lookedUser.symm.trans lookedSame
    exact regular r user lookedUser isComputed id isRead c hc

/-! ## What keeps a network regular -/

/-- A node keeps its kind and whether it is constant. -/
def SameMark (before after : Node) : Prop :=
  after.tag = before.tag ∧ after.isConstant = before.isConstant

theorem SameMark.computed {pre after : Node} (e : SameMark pre after) :
    after.isComputedConstant = pre.isComputedConstant := by
  rw [Node.isComputedConstant, Node.isComputedConstant, e.1, e.2]

/-- When cells keep their marks and read less, nothing becomes irregular. -/
theorem Regular.of_less (regular : net.Regular)
    (cells : ∀ id c, next.cell? id = some c → ∃ pre, net.cell? id = some pre ∧
      SameMark pre.toNode c.toNode ∧ c.reads ⊆ pre.reads) : next.Regular := by
  intro id c hc computed src hr o lookedOther
  obtain ⟨pre, lookedBefore, e, fewer⟩ := cells id c hc
  obtain ⟨origin, lookedOrigin, sameOrigin, -⟩ := cells src o lookedOther
  rw [e.computed] at computed
  rw [sameOrigin.2]
  exact regular id pre lookedBefore computed src (fewer hr) origin lookedOrigin

theorem Regular.strike (regular : net.Regular) (id : String) : (net.strike id).Regular := by
  apply regular.of_less
  intro o c hc
  by_cases e : o = id
  · rw [Network.strike, cell?_drop, cell?_put, if_pos e] at hc
    cases hc
  · rw [cell?_strike_of_ne e] at hc
    obtain ⟨pre, lookedBefore, rfl⟩ := map_eq_some_iff.mp hc
    exact ⟨pre, lookedBefore, ⟨rfl, rfl⟩, filter_subset_self _⟩

/-- A change of one node that keeps its mark. -/
theorem Regular.put (regular : net.Regular) (hc : net.cell? id = some c) (e : SameMark c.toNode (change
    c.toNode)) : (net.put id (some (c.withNode change))).Regular := by
  apply regular.of_less
  intro o after lookedAfter
  rw [cell?_put] at lookedAfter
  split at lookedAfter
  · next isId =>
    cases lookedAfter
    exact ⟨c, isId ▸ hc, e, List.Subset.refl _⟩
  · exact ⟨after, lookedAfter, ⟨rfl, rfl⟩, List.Subset.refl _⟩

/-- A node that is bypassed is no constant buffer, so it is constant only if what it reads is. -/
theorem Regular.shortcut (regular : net.Regular) (hc : net.cell? id = some c) (hr : c.reads = [i])
    (tag : c.tag ≠ .data) (e : ∀ n, SameMark n (change n)) : (net.shortcut id i change).Regular := by
  have origin : ∀ {o after}, (net.shortcut id i change).cell? o = some after →
      ∃ pre, net.cell? o = some pre ∧ SameMark pre.toNode after.toNode ∧
        after.reads = pre.reads.map (rerouted id i) := by
    intro o after lookedAfter
    rw [cell?_shortcut] at lookedAfter
    split at lookedAfter
    · cases lookedAfter
    · obtain ⟨pre, lookedBefore, rfl⟩ := map_eq_some_iff.mp lookedAfter
      refine ⟨pre, lookedBefore, ?_, rfl⟩
      show SameMark pre.toNode (touched i change o pre.toNode)
      rw [touched]
      split
      · exact e pre.toNode
      · exact ⟨rfl, rfl⟩
  intro o after lookedAfter computed src isRead read lookedRead
  obtain ⟨pre, lookedBefore, sameMark, readsAfter⟩ := origin lookedAfter
  obtain ⟨readBefore, lookedReadBefore, sameRead, -⟩ := origin lookedRead
  rw [sameMark.computed] at computed
  rw [sameRead.2]
  rw [readsAfter] at isRead
  obtain ⟨mid, isMiddle, rfl⟩ := List.mem_map.mp isRead
  rw [rerouted] at lookedReadBefore
  split at lookedReadBefore
  · next isBypassed =>
    have isConstant : c.isConstant :=
      regular o pre lookedBefore computed mid isMiddle c (isBypassed ▸ hc)
    have isComputed : c.isComputedConstant := Bool.and_eq_true_iff.mpr ⟨isConstant, bne_iff_ne.mpr tag⟩
    refine regular id c hc isComputed i ?_ readBefore lookedReadBefore
    rw [hr]
    exact mem_singleton_self i
  · exact regular o pre lookedBefore computed mid isMiddle readBefore lookedReadBefore

theorem Regular.shorten (regular : net.Regular) {rule : Shortening}
    (keeps : ∀ net id c i change, rule net id c i = some change →
      c.tag ≠ .data ∧ ∀ n, SameMark n (change n))
    (shortened : shorten rule id net = some next) : next.Regular := by
  obtain ⟨c, hc, rfl⟩ := map_eq_some_iff.mp shortened
  cases asked : rule.request net id c with
  | none => exact regular
  | some req =>
    obtain ⟨i, change⟩ := req
    obtain ⟨hr, answered⟩ := request_eq_some.mp asked
    obtain ⟨tag, e⟩ := keeps net id c i change answered
    exact regular.shortcut hc hr tag e

theorem keepsMarks_redundantReorder (answered : redundantReorder net id c i = some change) : c.tag ≠
    .data ∧ ∀ n, SameMark n (change n) := by
  rw [redundantReorder_unchanged answered]
  refine ⟨fun isData => ?_, fun n => ⟨rfl, rfl⟩⟩
  rw [redundantReorder, ite_none_right_eq_some] at answered
  obtain ⟨redundant, -⟩ := answered
  rw [changesNothing] at redundant
  split at redundant
  · next fmt isReorder =>
    have tag : c.tag = .reorder := congrArg Kind.tag isReorder
    rw [tag] at isData
    cases isData
  · cases redundant

theorem keepsMarks_fusedActivation (answered : fusedActivation net id c i = some change) : c.tag ≠ .data
    ∧ ∀ n, SameMark n (change n) := by
  rw [fusedActivation, ite_none_right_eq_some] at answered
  obtain ⟨fn, isActivation, rfl⟩ := map_eq_some_iff.mp answered.2
  refine ⟨fun isData => ?_, fun n => ⟨rfl, rfl⟩⟩
  unfold activation? at isActivation
  split at isActivation
  · next fn isKind =>
    have tag : c.tag = .activation := congrArg Kind.tag isKind
    rw [tag] at isData
    cases isData
  · cases isActivation

/-- A node that is put behind another one is as constant as the other one. -/
theorem Regular.insert (regular : net.Regular) (closed : net.Closed) {fr read : Cell}
    {src : String} {change : String → List String → List String}
    (free : net.cell? fr.id = none) (hr : fr.reads = [src])
    (hc : net.cell? src = some read) (mark : fr.isConstant = read.isConstant)
    (rewired : ∀ id c, net.cell? id = some c → ∀ o ∈ change id c.reads,
      o ∈ c.reads ∨ o = fr.id ∧ src ∈ c.reads) : (net.insert fr change).Regular := by
  have origin : ∀ {id after}, (net.insert fr change).cell? id = some after → (id = fr.id ∧ after =
      fr) ∨ ∃ pre, net.cell? id = some pre ∧ after = pre.withReads (change id) := by
    intro id after lookedAfter
    rw [cell?_insert] at lookedAfter
    split at lookedAfter
    · next isFresh => exact .inl ⟨isFresh, (some.inj lookedAfter).symm⟩
    · obtain ⟨pre, lookedBefore, e⟩ := map_eq_some_iff.mp lookedAfter
      exact .inr ⟨pre, lookedBefore, e.symm⟩
  have old : ∀ {id pre after}, net.cell? id = some pre →
      (net.insert fr change).cell? id = some after → after.isConstant = pre.isConstant := by
    intro id pre after lookedBefore lookedAfter
    rcases origin lookedAfter with ⟨rfl, -⟩ | ⟨e, lookedSame, rfl⟩
    · rw [free] at lookedBefore
      cases lookedBefore
    · cases lookedBefore.symm.trans lookedSame
      rfl
  intro id after lookedAfter computed o isRead m lookedAnother
  rcases origin lookedAfter with ⟨-, rfl⟩ | ⟨pre, lookedBefore, rfl⟩
  · rw [hr, mem_singleton] at isRead
    rw [isRead] at lookedAnother
    rw [old hc lookedAnother, ← mark]
    exact (Bool.and_eq_true_iff.mp computed).1
  · have isConstant := regular id pre lookedBefore computed
    rcases rewired id pre lookedBefore o isRead with isOld | ⟨rfl, readsSource⟩
    · obtain ⟨there, lookedThere⟩ := closed.there id o ⟨pre, lookedBefore, isOld⟩
      rw [old lookedThere lookedAnother]
      exact isConstant o isOld there lookedThere
    · rcases origin lookedAnother with ⟨-, rfl⟩ | ⟨ha, lookedAbsent, -⟩
      · rw [mark]
        exact isConstant src readsSource read hc
      · rw [free] at lookedAbsent
        cases lookedAbsent

/-- Room for a window is made without a change of marks. -/
theorem Regular.makeRoom {handling : Bool} (regular : net.Regular) (closed : net.Closed)
    (made : net.makeRoom handling id = some next) : next.Regular := by
  obtain ⟨room, asked, h⟩ := bind_eq_some_iff.mp made
  cases room with
  | idle =>
    cases h
    exact regular
  | merged i pad =>
    cases h
    cases hc : net.cell? i with
    | none =>
      refine regular.of_less fun o c hk => ?_
      rw [cell?_modify, hc, map_none] at hk
      split at hk
      · cases hk
      · exact ⟨c, hk, ⟨rfl, rfl⟩, List.Subset.refl _⟩
    | some c =>
      rw [modify, hc, map_some]
      exact regular.put hc ⟨rfl, rfl⟩
  | inserted fr =>
    obtain ⟨free, rfl⟩ := tryInsert_eq_some.mp h
    obtain ⟨r, read, lay, pad, lookedReader, head, lookedRead, -, -, rfl⟩ :=
      exists_of_inserted closed asked
    have mark : (paddedCell read.toNode.borderless id lay pad).isConstant = read.isConstant := rfl
    apply regular.insert closed free rfl lookedRead mark
    intro o c lookedOther src isRead
    split at isRead
    · next isReader =>
      rw [isReader, lookedReader] at lookedOther
      cases lookedOther
      rcases mem_or_eq_of_mem_set isRead with old | new
      · exact .inl old
      · exact .inr ⟨new, mem_of_mem_head? head⟩
    · exact .inl isRead

/-! ## Marking nodes -/

/-- A rule changes no other node. -/
theorem cell?_of_run (ha : id ∉ ids) (res : run (derive rule) ids net = some last) : last.cell? id =
    net.cell? id := by
  induction ids generalizing net with
  | nil =>
    cases res
    rfl
  | cons a rest ih =>
    rw [mem_cons, not_or] at ha
    rw [run_cons, bind_eq_some_iff] at res
    obtain ⟨next, derived, later⟩ := res
    obtain ⟨c, change, -, -, rfl⟩ := derive_eq_some.mp derived
    rw [ih ha.2 later, cell?_put, if_neg ha.1]

/-- **Along a list that puts what is read before its readers, a rule sees what is read as it is in the
end.** -/
theorem settled_of_run (nd : ids.Nodup) (respects : ids.Pairwise fun earlier later => ¬ net.Reads
    earlier later) (irreflexive : ∀ id, ¬ net.Reads id id) (res : run (derive rule) ids net = some last)
    (mem : id ∈ ids) : ∃ c change, net.cell? id = some c ∧ rule c.toNode (last.sources c) = some change ∧
    last.cell? id = some (c.withNode change) := by
  induction ids generalizing net with
  | nil => cases mem
  | cons a rest ih =>
    obtain ⟨ha, nodupRest⟩ := nodup_cons.mp nd
    obtain ⟨unread, respectsRest⟩ := pairwise_cons.mp respects
    have derived := res
    rw [run_cons, bind_eq_some_iff] at derived
    obtain ⟨next, derived, later⟩ := derived
    have sameReads : ∀ r src, next.Reads r src ↔ net.Reads r src := fun _ _ => reads_of_derive derived
    obtain ⟨c, change, hc, answered, put⟩ := derive_eq_some.mp derived
    by_cases isFirst : id = a
    · -- What the first node reads is not changed any more.
      subst isFirst
      refine ⟨c, change, hc, ?_, ?_⟩
      · rw [sources_congr fun src isRead => ?_, answered]
        have hr : net.Reads id src := ⟨c, hc, isRead⟩
        apply cell?_of_run _ res
        rw [mem_cons, not_or]
        exact ⟨fun e => irreflexive id (e ▸ hr), fun hl => unread src hl hr⟩
      · rw [cell?_of_run ha later, ← put, cell?_put, if_pos rfl]
    · have inRest : id ∈ rest := (mem_cons.mp mem).resolve_left isFirst
      have hs := ih nodupRest (respectsRest.imp fun free hr => free ((sameReads _ _).mp hr))
        (fun o hr => irreflexive o ((sameReads _ _).mp hr)) later inRest
      obtain ⟨o, changeOther, lookedOther, answeredOther, done⟩ := hs
      rw [← put, cell?_put, if_neg isFirst] at lookedOther
      exact ⟨o, changeOther, lookedOther, answeredOther, done⟩

end LayerGraph.Network
