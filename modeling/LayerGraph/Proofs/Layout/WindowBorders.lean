import LayerGraph.Proofs.Build.Marks
import LayerGraph.Proofs.Layout.Room

/-!
# Making room for windows, and nothing else

Room is made for a window by widening the border of what is read first, or by a new reorder with the
border in front of the reader. Either way other nodes keep what they read, and no border gets smaller
(`Program.PreparedAt`). So the windows that have room (`Program.HasRoomAt`) keep it while room is made for
the next one, and in the end there is room for all of them (`Build.windows_have_room`).
-/

namespace LayerGraph

open List Layout

/-- The border that a window needs around what it is moved over, for the kinds that need one: a convolution
of natural size over the format `bfyx`, and where output sizes are honoured everything that has one. -/
inductive Kind.Needs (handling : Bool) (layout : Layout) : Kind → Checked Padding → Prop
  | natural {features : UInt32} {window : Window} (format : layout.format = .bfyx) :
      Needs handling layout (.convolution features window none)
        (window.outputSize layout.shape.spatial >>= window.neededPadding layout.shape.spatial)
  | convolution {features : UInt32} {window : Window} {size : Spatial UInt32} (honoured : handling) :
      Needs handling layout (.convolution features window (some size))
        (window.neededPadding layout.shape.spatial size)
  | pooling {mode : PoolingMode} {window : Window} {size : Spatial UInt32} (honoured : handling) :
      Needs handling layout (.pooling mode window (some size))
        (window.neededPadding layout.shape.spatial size)

/-- A node may have got a wider border, unless it is a network input or a constant buffer. Its layout is
the same apart from the border. -/
structure Node.Grown (node now : Node) : Prop where
  primitive : now.primitive = node.primitive
  layout : now.layout.map bare = node.layout.map bare
  padding : now.padding.Covers node.padding
  fixed : node.tag = .inputLayout ∨ node.tag = .data → now.padding = node.padding

/-- Layouts that differ in their borders only have the same format and the same shape. -/
theorem Layout.eq_of_bare {a b : Layout} (e : a.bare = b.bare) :
    a.format = b.format ∧ a.shape = b.shape := by
  have fmt : a.bare.format = b.bare.format := by rw [e]
  have shape : a.bare.shape = b.bare.shape := by rw [e]
  exact ⟨fmt, shape⟩

namespace Kind

variable {kind : Kind} {handling : Bool} {layout other : Layout} {border : Checked Padding}
  {padding : Padding}

theorem Needs.neededBorder (needs : kind.Needs handling layout border) :
    kind.neededBorder handling layout = some <$> border := by
  cases needs with
  | natural fmt => rw [Kind.neededBorder, if_pos fmt, map_bind]
  | convolution honoured => rw [Kind.neededBorder, if_pos honoured]
  | pooling honoured => rw [Kind.neededBorder, if_pos honoured]

/-- A border that is asked for is needed. -/
theorem needs_of_neededBorder (asks : kind.neededBorder handling layout = .ok (some padding)) :
    kind.Needs handling layout (.ok padding) := by
  have exists_needs : ∃ border, kind.Needs handling layout border := by
    unfold Kind.neededBorder at asks
    split at asks
    · split at asks
      · next honoured => exact ⟨_, .convolution honoured⟩
      · cases asks
    · split at asks
      · next honoured => exact ⟨_, .pooling honoured⟩
      · cases asks
    · split at asks
      · next fmt => exact ⟨_, .natural fmt⟩
      · cases asks
    · cases asks
  obtain ⟨border, needs⟩ := exists_needs
  rw [needs.neededBorder] at asks
  cases border with
  | error cause => cases asks
  | ok e =>
    cases asks
    exact needs

/-- What is needed does not depend on the border that is there. -/
theorem neededBorder_of_bare (e : other.bare = layout.bare) :
    kind.neededBorder handling other = kind.neededBorder handling layout := by
  obtain ⟨fmt, shape⟩ := eq_of_bare e
  simp only [neededBorder, fmt, shape]

theorem Needs.of_bare (e : other.bare = layout.bare) (needs : kind.Needs handling layout border) :
    kind.Needs handling other border := by
  obtain ⟨fmt, shape⟩ := eq_of_bare e
  cases needs with
  | natural isBfyx =>
    rw [← shape]
    exact .natural (fmt.trans isBfyx)
  | convolution honoured =>
    rw [← shape]
    exact .convolution honoured
  | pooling honoured =>
    rw [← shape]
    exact .pooling honoured

end Kind

namespace Node.Grown

variable {node now last : Node}

theorem refl (node : Node) : node.Grown node := ⟨rfl, rfl, .refl _, fun _ => rfl⟩

theorem trans (a : node.Grown now) (b : now.Grown last) : node.Grown last where
  primitive := b.primitive.trans a.primitive
  layout := b.layout.trans a.layout
  padding := b.padding.trans a.padding
  fixed tag := by
    have tagNow : now.tag = .inputLayout ∨ now.tag = .data := by
      rwa [Node.tag, a.primitive]
    exact (b.fixed tagNow).trans (a.fixed tag)

theorem mergePadding (padding : Padding) (tag : ¬ (node.tag = .inputLayout ∨ node.tag = .data)) :
    node.Grown (node.mergePadding padding) where
  primitive := rfl
  layout := by
    rw [Node.mergePadding, Node.withPadding, Option.map_map]
    rfl
  padding := Padding.covers_merge_left _ _
  fixed := fun isSource => absurd isSource tag

theorem exists_layout {layout : Layout} (grown : node.Grown now) (known : now.layout = some layout) :
    ∃ was, node.layout = some was ∧ was.bare = layout.bare := by
  have lays := grown.layout
  rw [known, Option.map_some, eq_comm, Option.map_eq_some_iff] at lays
  exact lays

end Node.Grown

namespace Program

variable {p q st next : Program} {k key i : NodeKey} {n node : Node} {handling : Bool}
  {rest : List NodeKey}

/-- What a node reads first has the border that its window needs. -/
def RoomAt (handling : Bool) (before after : Program) (key : NodeKey) (node : Node) : Prop :=
  ∀ input source layout border, before.dependency? key 0 = some input → before.node? input = some source
    → source.layout = some layout → node.kind.Needs handling layout border → ∃ needed read now, border =
    .ok needed ∧ after.dependency? key 0 = some read ∧ after.node? read = some now ∧ now.layout.map
    bare = some layout.bare ∧ now.padding.Covers needed

/-- A node reads what it read, or there is a new reorder between the node and the network input or
constant buffer that it read first, with the border that its window needs. -/
inductive ReadsAt (handling : Bool) (before after : Program) (key : NodeKey) (node : Node) : Prop
  | directly (reads : after.dependencies key = before.dependencies key)
  | through {input inserted : NodeKey} {source reorder : Node} {layout : Layout} {needed : Padding}
      (reads : before.dependency? key 0 = some input) (found : before.node? input = some source)
      (tag : source.tag = .inputLayout ∨ source.tag = .data) (known : source.layout = some layout)
      (needs : node.kind.Needs handling layout (.ok needed)) (wide : ¬ needed.isZero)
      (vacant : ¬ before.contains inserted) (made : after.node? inserted = some reorder)
      (primitive : reorder.primitive = windowReorder source node needed)
      (readsSource : after.dependencies inserted = [input])
      (instead : after.dependencies key = (before.dependencies key).set 0 inserted)

/-- What a node reads first has the border that its window needs. Where it cannot get a border, none is
needed. -/
def HasRoomAt (handling : Bool) (program : Program) (key : NodeKey) : Prop :=
  ∀ node input source layout, program.node? key = some node → program.dependency? key 0 = some input →
    program.node? input = some source → source.layout = some layout →
    ∃ border, node.kind.neededBorder handling layout = .ok border ∧ ∀ needed, border = some needed →
      needed.isZero ∨ ¬ (source.tag = .inputLayout ∨ source.tag = .data) ∧
        source.padding.Covers needed

/-- What making room for the window of one node has done. -/
structure PreparedAt (handling : Bool) (before after : Program) (key : NodeKey) (node : Node) :
    Prop where
  nodes : ∀ other stored, before.node? other = some stored →
    ∃ now, after.node? other = some now ∧ stored.Grown now
  new : ∀ other now, after.node? other = some now → before.contains other ∨ now.tag = .reorder
  others : ∀ other, before.contains other → other ≠ key →
    after.dependencies other = before.dependencies other
  first : (after.firstInputLayout? key).map bare = (before.firstInputLayout? key).map bare
  room : after.HasRoomAt handling key
  reads : ReadsAt handling before after key node

/-- What making room for windows has done as long as the given nodes have not been looked at. -/
structure PreparedExcept (handling : Bool) (before : Program) (rest : List NodeKey)
    (after : Program) : Prop where
  nodes : ∀ key node, before.node? key = some node → ∃ now, after.node? key = some now ∧ node.Grown now
  waiting : ∀ key ∈ rest, before.contains key ∧ after.dependencies key = before.dependencies key
  first : ∀ key, before.contains key →
    (after.firstInputLayout? key).map bare = (before.firstInputLayout? key).map bare
  room : ∀ key, after.contains key → key ∉ rest → after.HasRoomAt handling key
  reads : ∀ key node, before.node? key = some node → key ∉ rest →
    ReadsAt handling before after key node

/-! ## One window -/

variable {layout : Layout} {padding : Padding}

section

variable (nodes : ∀ other stored, p.node? other = some stored →
    ∃ now, q.node? other = some now ∧ stored.Grown now) (wf : p.Consistent)
  (reads : q.dependencies k = p.dependencies k)

include nodes wf reads

/-- What is read first has the same layout when only borders have grown. -/
theorem first_of_grown : (q.firstInputLayout? k).map bare = (p.firstInputLayout? k).map bare := by
  cases hr : p.dependency? k 0 with
  | none =>
    rw [firstInputLayout?, firstInputLayout?, dependency?, reads, ← dependency?, hr]
    rfl
  | some i =>
    obtain ⟨src, hf⟩ := contains_iff.mp (wf.reads_live k i (mem_of_getElem? hr)).1
    obtain ⟨now, foundNow, grown⟩ := nodes i src hf
    have readsNow : q.dependency? k 0 = some i := by rwa [dependency?, reads]
    rw [firstInputLayout?_eq readsNow foundNow, firstInputLayout?_eq hr hf]
    exact grown.layout

/-- Where there is room, it stays when borders grow. -/
theorem HasRoomAt.grown (room : p.HasRoomAt handling k) (hk : p.node? k = some n) :
    q.HasRoomAt handling k := by
  intro node i now layout found readsNow foundNow kn
  rw [dependency?, reads] at readsNow
  obtain ⟨src, hf⟩ := contains_iff.mp (wf.reads_live k i (mem_of_getElem? readsNow)).1
  obtain ⟨_, there, grownNode⟩ := nodes k n hk
  cases found.symm.trans there
  obtain ⟨_, there, grown⟩ := nodes i src hf
  cases foundNow.symm.trans there
  obtain ⟨was, known, e⟩ := grown.exists_layout kn
  obtain ⟨border, asks, enough⟩ := room n i src was hk readsNow hf known
  refine ⟨border, ?_, fun needed same => (enough needed same).imp_right fun h => ⟨?_,
    grown.padding.trans h.2⟩⟩
  · rw [Node.kind, grownNode.primitive, Kind.neededBorder_of_bare e.symm]
    exact asks
  · rw [Node.tag, grown.primitive]
    exact h.1

end

/-- There is room when what is read first covers the border that follows from its layout. -/
theorem HasRoomAt.of_needed {read : NodeKey} {src : Node}
    (hk : ∀ node, q.node? k = some node → node.kind = n.kind) (hr : q.dependency? k 0 = some read)
    (hf : q.node? read = some src) (lays : src.layout.map bare = some layout.bare)
    (asks : n.kind.neededBorder handling layout = .ok (some padding))
    (tag : ¬ (src.tag = .inputLayout ∨ src.tag = .data)) (covers : src.padding.Covers padding) :
    q.HasRoomAt handling k := by
  intro node _ _ cached found reads foundSrc kn
  cases hr.symm.trans reads
  cases hf.symm.trans foundSrc
  rw [kn, Option.map_some, Option.some.injEq] at lays
  refine ⟨some padding, ?_, fun needed same => ?_⟩
  · rw [hk node found, Kind.neededBorder_of_bare lays, asks]
  · cases same
    exact .inr ⟨tag, covers⟩

theorem Widens.preparedAt (wf : p.Consistent) (hk : p.node? k = some n) (hr : p.dependency? k 0 =
    some i) (asks : n.kind.neededBorder handling layout = .ok (some padding)) (wide : ¬ padding.isZero)
    (widens : Widens p k n i layout padding q) : PreparedAt handling p q k n := by
  cases widens with
  | @merged src hf isKnown tag =>
    have grown := Node.Grown.mergePadding padding tag
    have made : (p.modifyNode i (·.mergePadding padding)).node? i = some (src.mergePadding padding) := by
      rw [node?_modifyNode, if_pos rfl, hf, Option.map_some]
    have nodes : ∀ other st, p.node? other = some st → ∃ now, (p.modifyNode i (·.mergePadding
        padding)).node? other = some now ∧ st.Grown now := by
      intro other st ho
      by_cases isInput : other = i
      · subst isInput
        cases hf.symm.trans ho
        exact ⟨_, made, grown⟩
      · exact ⟨st, by rw [node?_modifyNode, if_neg isInput, ho], .refl st⟩
    have alters : Alters Node.core p (p.modifyNode i (·.mergePadding padding)) :=
      .modifyNode p i fun _ => rfl
    refine ⟨nodes, fun other now ho => .inl ((alters.contains other).mp (contains_of_node? ho)),
      fun _ _ _ => rfl, first_of_grown nodes wf rfl, .of_needed (fun node found => ?_) hr made
        (grown.layout.trans (by rw [isKnown]; rfl)) asks tag (Padding.covers_merge_right _ _),
      .directly rfl⟩
    obtain ⟨_, there, same⟩ := nodes k n hk
    cases found.symm.trans there
    exact congrArg Primitive.kind same.primitive
  | @inserted src mid inserted hf isKnown tag hs ins takes =>
    generalize cached : some (⟨layout.format, layout.shape, padding⟩ : Layout) = lay
    have made : (mid.modifyNode inserted (·.withLayout lay)).node? inserted = some
        (((Node.ofPrimitive (windowReorder src n padding)).markedLike src).withLayout lay) := by
      rw [node?_modifyNode, if_pos rfl, takes.nodes, if_pos rfl, Option.map_some]
    have others : ∀ other, other ≠ inserted → (mid.modifyNode inserted
        (·.withLayout lay)).node? other = p.node? other := by
      intro other apart
      rw [node?_modifyNode, if_neg apart, takes.nodes, if_neg apart]
    have hv := contains_of_node? hk
    have instead : (mid.modifyNode inserted (·.withLayout lay)).dependencies k =
        (p.dependencies k).set 0 inserted := by
      change mid.dependencies k = _
      rw [ins.lists, if_neg (ins.different hv), if_neg Bool.false_ne_true, if_pos rfl]
    have reads : (mid.modifyNode inserted (·.withLayout lay)).dependency? k 0 = some inserted := by
      rw [dependency?, instead, getElem?_set_self (List.getElem?_eq_some_iff.mp hr).1]
    refine ⟨fun other st ho => ⟨st, ?_, .refl st⟩, fun other now ho => ?_, fun other liveOther apart =>
      ?_, ?_, .of_needed (fun node found => ?_) reads made (by rw [← cached]; rfl) asks ?_
        (.refl padding), .through hr hf tag isKnown (Kind.needs_of_neededBorder asks)
        wide ?_ made rfl ?_ instead⟩
    · rw [others other (ins.different (contains_of_node? ho)), ho]
    · by_cases isNew : other = inserted
      · subst isNew
        cases made.symm.trans ho
        exact .inr rfl
      · rw [others other isNew] at ho
        exact .inl (contains_of_node? ho)
    · change mid.dependencies other = _
      rw [ins.lists, if_neg (ins.different liveOther), if_neg Bool.false_ne_true, if_neg apart]
    · rw [firstInputLayout?_eq reads made, firstInputLayout?_eq hr hf, isKnown, ← cached]
      rfl
    · rw [others k (ins.different hv), hk] at found
      cases found
      rfl
    · rintro (isInput | isData)
      · cases isInput
      · cases isData
    · rw [contains_iff, ins.vacant]
      rintro ⟨_, there⟩
      cases there
    · change mid.dependencies inserted = _
      exact ins.reads

theorem PreparesWindow.preparedAt (wf : p.Consistent) (hk : p.node? k = some n)
    (prep : PreparesWindow handling p k n q) : PreparedAt handling p q k n := by
  have e : ∀ other st, p.node? other = some st → ∃ now, p.node? other = some now ∧ st.Grown
      now := fun _ st hf => ⟨st, hf, .refl st⟩
  have old : ∀ other now, p.node? other = some now → p.contains other ∨ now.tag = .reorder :=
    fun _ _ ho => .inl (contains_of_node? ho)
  cases prep with
  | unknown missing =>
    refine ⟨e, old, fun _ _ _ => rfl, rfl, ?_, .directly rfl⟩
    intro node i src layout _ hr hf kn
    rw [firstInputLayout?_eq hr hf, kn] at missing
    cases missing
  | @enough layout asked kn asks small =>
    refine ⟨e, old, fun _ _ _ => rfl, rfl, ?_, .directly rfl⟩
    intro node i src layout found hr hf isKnown
    cases hk.symm.trans found
    rw [firstInputLayout?_eq hr hf, isKnown] at kn
    cases kn
    exact ⟨asked, asks, fun needed same => .inl (small needed same)⟩
  | widened hr kn asks wide widens => exact widens.preparedAt wf hk hr asks wide

/-! ## One window after the other -/

/-- What stands in front of a node stays there. -/
theorem ReadsAt.prepared (hr : ReadsAt handling p st key node) (hv : st.contains key)
    (prepared : PreparedAt handling st next k n) (apart : key ≠ k) (liveBefore : p.contains k) :
    ReadsAt handling p next key node := by
  have kept := prepared.others key hv apart
  cases hr with
  | directly e => exact .directly (kept.trans e)
  | @through i ins src reorder _ _ hr hf tag kn needs wide vacant made prim
      readsSource instead =>
    obtain ⟨last, foundLast, grown⟩ := prepared.nodes ins reorder made
    have notKey : ins ≠ k := fun isKey => vacant (isKey ▸ liveBefore)
    refine .through hr hf tag kn needs wide vacant foundLast (grown.primitive.trans prim) ?_
      (kept.trans instead)
    rw [prepared.others ins (contains_of_node? made) notKey, readsSource]

namespace PreparedExcept

variable (except : PreparedExcept handling p (k :: rest) st)
include except

/-- What stands in front of the next node is what had to be put there from the beginning. -/
theorem readsAt (wf : p.Consistent) (prepared : PreparedAt handling st next k n)
    (e : n.primitive = node.primitive) : ReadsAt handling p next k node := by
  have waits := (except.waiting k mem_cons_self).2
  cases prepared.reads with
  | directly unchanged => exact .directly (unchanged.trans waits)
  | @through i ins src reorder layout needed hr hf tag kn needs wide vacant made
      prim readsSource instead =>
    have readsBefore : p.dependency? k 0 = some i := by
      rw [dependency?, ← waits]
      exact hr
    obtain ⟨origin, foundOrigin⟩ := contains_iff.mp (wf.reads_live k i (mem_of_getElem? readsBefore)).1
    obtain ⟨now, foundNow, grown⟩ := except.nodes i origin foundOrigin
    cases hf.symm.trans foundNow
    obtain ⟨cached, isCached, bare⟩ := grown.exists_layout kn
    have fmt := (eq_of_bare bare).1
    have sameReorder : windowReorder src n needed = windowReorder origin node needed := by
      rw [windowReorder, windowReorder, kn, isCached, Option.map_some, Option.map_some, fmt,
        Node.id, Node.id, Node.id, Node.id, grown.primitive, e]
    have ha : ¬ p.contains ins := by
      intro hv
      obtain ⟨stored, foundStored⟩ := contains_iff.mp hv
      obtain ⟨_, there, -⟩ := except.nodes ins stored foundStored
      exact vacant (contains_of_node? there)
    refine .through readsBefore foundOrigin ?_ isCached ?_ wide ha made (prim.trans sameReorder)
      readsSource (instead.trans (by rw [waits]))
    · rwa [Node.tag, grown.primitive] at tag
    · rw [Node.kind, e] at needs
      exact needs.of_bare bare

/-- **Making room for the next window.** -/
theorem prepared (wf : p.Consistent) (hs : st.Consistent) (ha : k ∉ rest) (hf : st.node? k =
    some n) (prepared : PreparedAt handling st next k n) : PreparedExcept handling p rest next where
  nodes key node foundKey := by
    obtain ⟨now, foundNow, grown⟩ := except.nodes key node foundKey
    obtain ⟨last, foundLast, grownLast⟩ := prepared.nodes key now foundNow
    exact ⟨last, foundLast, grown.trans grownLast⟩
  waiting key mem := by
    obtain ⟨hv, waits⟩ := except.waiting key (mem_cons_of_mem k mem)
    obtain ⟨stored, foundKey⟩ := contains_iff.mp hv
    obtain ⟨now, foundNow, -⟩ := except.nodes key stored foundKey
    refine ⟨hv, (prepared.others key (contains_of_node? foundNow) ?_).trans waits⟩
    rintro rfl
    exact ha mem
  first key hv := by
    refine Eq.trans ?_ (except.first key hv)
    by_cases isKey : key = k
    · exact isKey ▸ prepared.first
    · obtain ⟨stored, foundKey⟩ := contains_iff.mp hv
      obtain ⟨now, foundNow, -⟩ := except.nodes key stored foundKey
      exact first_of_grown prepared.nodes hs (prepared.others key (contains_of_node? foundNow) isKey)
  room key hv notWaiting := by
    by_cases isKey : key = k
    · exact isKey ▸ prepared.room
    obtain ⟨now, foundNow⟩ := contains_iff.mp hv
    rcases prepared.new key now foundNow with old | tag
    · obtain ⟨stored, foundKey⟩ := contains_iff.mp old
      exact (except.room key old (by simp [isKey, notWaiting])).grown prepared.nodes hs
        (prepared.others key old isKey) foundKey
    · intro node i src layout found _ _ _
      cases foundNow.symm.trans found
      refine ⟨none, ?_, fun _ isNone => by cases isNone⟩
      cases kind : now.kind with
      | reorder fmt => rfl
      | _ => cases (congrArg Kind.tag kind).symm.trans tag
  reads key node foundKey notWaiting := by
    obtain ⟨now, foundNow, grown⟩ := except.nodes key node foundKey
    by_cases isKey : key = k
    · subst isKey
      cases hf.symm.trans foundNow
      exact except.readsAt wf prepared grown.primitive
    · exact (except.reads key node foundKey (by simp [isKey, notWaiting])).prepared
        (contains_of_node? foundNow) prepared isKey (except.waiting k mem_cons_self).1

end PreparedExcept

/-- When all nodes have been looked at, there is room for their windows. -/
theorem PreparedExcept.roomAt (except : PreparedExcept handling p [] q) (hk : p.node? key = some node) :
    RoomAt handling p q key node := by
  intro i src layout border hr hf kn needs
  have first := except.first key (contains_of_node? hk)
  rw [firstInputLayout?_eq hr hf, kn, Option.map_some, Option.map_eq_some_iff] at first
  obtain ⟨cached, isCached, bare⟩ := first
  obtain ⟨now, found, known⟩ := Option.bind_eq_some_iff.mp isCached
  obtain ⟨read, reads, foundNow⟩ := Option.bind_eq_some_iff.mp found
  obtain ⟨last, foundLast, grown⟩ := except.nodes key node hk
  obtain ⟨asked, asks, enough⟩ := except.room key (contains_of_node? foundLast) not_mem_nil last read
    now cached foundLast reads foundNow known
  rw [Node.kind, grown.primitive, ← Node.kind, (needs.of_bare bare).neededBorder] at asks
  cases border with
  | error cause => cases asks
  | ok needed =>
    cases asks
    refine ⟨needed, read, now, rfl, reads, foundNow, by rw [known, ← bare]; rfl, ?_⟩
    rcases enough needed rfl with none | ⟨-, covers⟩
    · exact Padding.covers_of_isZero none
    · exact covers

end Program

namespace Build

open Program

/-- Room is made for one window after the other. -/
theorem ensures_prepareWindows_prepared {s : Session} (hs : s.program.Sound) : Ensures prepareWindows s
    (fun _ next => next.outputSizeHandling = s.outputSizeHandling ∧
      PreparedExcept s.outputSizeHandling s.program [] next.program)
    Fault.SparesProgram := by
  have wf := hs.consistent
  have start : PreparedExcept s.outputSizeHandling s.program s.program.order.toList s.program := by
    refine ⟨fun _ node found => ⟨node, found, .refl node⟩, fun key mem => ⟨wf.order_live key mem, rfl⟩,
      fun _ _ => rfl, fun key hv absent => ?_, fun key node found absent => ?_⟩
    · exact absurd ((hs.complete.complete key).mpr hv) absent
    · exact absurd (hs.complete.mem_of_node? found) absent
  simp only [prepareWindows, ensures_bind, ensures_get, ensures_edit]
  refine (ensures_forM_sound (fun rest st => rest.Nodup ∧
    PreparedExcept s.outputSizeHandling s.program rest st) ?_ hs hs.complete.nodup
    wf.order_live ⟨hs.complete.nodup, start⟩).weaken fun _ _ kept => ⟨trivial, kept.2⟩
  rintro k rest st kept live ⟨distinct, except⟩
  obtain ⟨n, found⟩ := contains_iff.mp live
  obtain ⟨absent, distinct⟩ := nodup_cons.mp distinct
  refine ((ensures_prepareWindow _ kept live).and (ensures_prepareWindow_cases _ kept found)).weaken ?_
  rintro _ after ⟨⟨steps, stays⟩, prepares⟩
  exact ⟨⟨steps, fun other _ => stays other⟩, distinct,
    except.prepared wf kept.consistent absent found (prepares.preparedAt kept.consistent found)⟩

/-- **Room is made for every window, and nothing else changes.** -/
theorem windows_have_room (s next : Session) (sound : s.program.Sound)
    (ran : prepareWindows s = .ok () next) : ∀ key node, s.program.node? key = some node →
      (∃ now, next.program.node? key = some now ∧ node.Grown now) ∧
      RoomAt s.outputSizeHandling s.program next.program key node ∧
      ReadsAt s.outputSizeHandling s.program next.program key node := by
  obtain ⟨-, prepared⟩ := (ensures_prepareWindows_prepared sound).of_ok ran
  exact fun key node found => ⟨prepared.nodes key node found, prepared.roomAt found,
    prepared.reads key node found not_mem_nil⟩

end Build

namespace Topology

/-- A window that reaches one element over every edge. -/
def overEdges : Window where
  kernel := ⟨3, 3⟩
  inputOffset := ⟨-1, -1⟩

/-- The layout of an image, in the format that convolutions need a border for. -/
def image : Layout := ⟨.bfyx, ⟨1, 1, 4, 4⟩, {}⟩

/-- Two convolutions of natural size, one over the activation of an input and one over the input. -/
def windowedPicture : Topology where
  primitives := [
    .inputLayout "x" image,
    { id := "r", kind := .activation .relu, inputs := ["x"] },
    { id := "y", kind := .convolution 1 overEdges none, inputs := ["r"] },
    { id := "z", kind := .convolution 1 overEdges none, inputs := ["x", "x"] }]

theorem windows_have_room_windowedPicture : ∃ s next : Session,
    windowedPicture.after? Build.prepareWindows = some (s, next) ∧ s.program.Sound ∧
      Build.prepareWindows s = .ok () next ∧
      next.program.ids = ["x", "r", "y", "x_padding_reorder_z", "z"] ∧
      next.program.dependencies 3 = [4, 0] ∧
      ∀ key node, s.program.node? key = some node →
        (∃ now, next.program.node? key = some now ∧ node.Grown now) ∧
        Program.RoomAt s.outputSizeHandling s.program next.program key node ∧
        Program.ReadsAt s.outputSizeHandling s.program next.program key node := by
  obtain ⟨⟨s, next⟩, found, ids, reads⟩ : ∃ pair ∈ windowedPicture.after? Build.prepareWindows,
      pair.2.program.ids = ["x", "r", "y", "x_padding_reorder_z", "z"] ∧
        pair.2.program.dependencies 3 = [4, 0] := by decide +kernel
  obtain ⟨sound, ran⟩ := exists_of_after? found
  exact ⟨s, next, found, sound, ran, ids, reads, Build.windows_have_room s next sound ran⟩

end Topology

end LayerGraph
