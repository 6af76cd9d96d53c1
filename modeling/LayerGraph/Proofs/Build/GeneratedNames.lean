import LayerGraph.Proofs.Build.Unset
import LayerGraph.Proofs.Meaning.Rewriting
import LayerGraph.Proofs.Network.Borders
import LayerGraph.Proofs.Program.Declaration
import Mathlib.Data.List.ProdSigma

/-!
# Generated names

A build makes ids of its own: for the reorders in front of windows, for those behind network inputs, and
for the constant buffers that replace computed constants. A topology keeps its names apart from these
(`Topology.NamesApart`) when they are different from each other and from the declared ones.

Then the id of the reorder for a window is never taken. For if there is a node with this id, it is the
first that the window reads (`Program.NamedBy.padded`), and the window reads no network input or constant
buffer. Removing and bypassing nodes keep it so, because they let a node go on reading first what it has
read first (`Program.Narrows`), and so does the program of a constant part.
-/

namespace LayerGraph

open List Option

/-- Layers that read their input through a window. -/
def KindTag.takesWindow (tag : KindTag) : Bool := tag == .convolution || tag == .pooling

/-- Layers whose borders cannot be widened. -/
def KindTag.isSource (tag : KindTag) : Bool := tag == .inputLayout || tag == .data

theorem Kind.takesWindow_of_neededBorder {kind : Kind} {handling : Bool} {lay : Layout}
    {pad : Padding} (needs : kind.neededBorder handling lay = .ok (some pad)) :
    kind.tag.takesWindow := by
  cases kind with
  | convolution => rfl
  | pooling => rfl
  | _ => cases needs

/-! ## The names of a topology -/

namespace Topology

/-- The ids of network inputs and constant buffers. -/
def sourceIds (topology : Topology) : List String :=
  (topology.primitives.filter (·.tag.isSource)).map (·.id)

/-- The ids of layers that take windows. -/
def windowIds (topology : Topology) : List String :=
  (topology.primitives.filter (·.tag.takesWindow)).map (·.id)

/-- The ids of the reorders that can be put in front of windows. -/
def paddedIds (topology : Topology) : List String :=
  (topology.sourceIds.product topology.windowIds).map fun pair => paddedId pair.1 pair.2

/-- The ids of the reorders that can be put behind network inputs. -/
def reorderIds (topology : Topology) : List String :=
  (topology.sourceIds.product [Format.bfyx, .yxfb]).map fun pair => reorderId pair.1 pair.2

/-- The ids that a build generates are new. -/
structure NamesApart (topology : Topology) : Prop where
  distinct : (topology.nodeIds ++ topology.paddedIds ++ topology.reorderIds).Nodup
  /-- No node has the id under which the buffer of another node is registered. -/
  folded : ∀ id ∈ topology.nodeIds ++ topology.paddedIds,
    foldedId id ∉ topology.nodeIds ++ topology.paddedIds

variable {topo : Topology} {source r : String}

variable {prim : Primitive}

theorem mem_sourceIds (hd : prim ∈ topo.primitives) (isSource : prim.tag.isSource) : prim.id ∈
    topo.sourceIds :=
  List.mem_map_of_mem (mem_filter.mpr ⟨hd, isSource⟩)

theorem mem_windowIds (hd : prim ∈ topo.primitives) (takesWindow : prim.tag.takesWindow) : prim.id
    ∈ topo.windowIds :=
  List.mem_map_of_mem (mem_filter.mpr ⟨hd, takesWindow⟩)

theorem mem_nodeIds_of_source (isSource : source ∈ topo.sourceIds) : source ∈ topo.nodeIds := by
  obtain ⟨prim, mem, rfl⟩ := List.mem_map.mp isSource
  exact mem_nodeIds.mpr (.inl (List.mem_map_of_mem (mem_of_mem_filter mem)))

theorem mem_paddedIds (isSource : source ∈ topo.sourceIds)
    (takesWindow : r ∈ topo.windowIds) : paddedId source r ∈ topo.paddedIds :=
  List.mem_map.mpr ⟨(source, r), mem_product.mpr ⟨isSource, takesWindow⟩, rfl⟩

theorem mem_reorderIds {fmt : Format} (isSource : source ∈ topo.sourceIds)
    (preferred : fmt ∈ [Format.bfyx, .yxfb]) : reorderId source fmt ∈ topo.reorderIds :=
  List.mem_map.mpr ⟨(source, fmt), mem_product.mpr ⟨isSource, preferred⟩, rfl⟩

namespace NamesApart

variable (apart : topo.NamesApart)
include apart

section

variable (isSource : source ∈ topo.sourceIds)

include isSource

/-- The id of a reorder for a window is not declared. -/
theorem paddedId_not_mem (takesWindow : r ∈ topo.windowIds) : paddedId source r ∉ topo.nodeIds :=
  fun hd => disjoint_of_nodup_append apart.distinct.of_append_left hd
    (mem_paddedIds isSource takesWindow)

variable {o : String} {fmt : Format}

/-- The id of a reorder for a window tells which window it is for. -/
theorem reader_eq {m : String} (takesWindow : r ∈ topo.windowIds) (isSourceToo : o ∈ topo.sourceIds)
    (takesWindowToo : m ∈ topo.windowIds) (e : paddedId source r = paddedId o m) : r = m := by
  have nd : topo.paddedIds.Nodup := apart.distinct.of_append_left.of_append_right
  have pairs := inj_on_of_nodup_map nd (mem_product.mpr ⟨isSource, takesWindow⟩)
    (mem_product.mpr ⟨isSourceToo, takesWindowToo⟩) e
  exact congrArg Prod.snd pairs

/-- The id of a reorder behind an input is no other id. -/
theorem reorderId_not_mem (preferred : fmt ∈ [Format.bfyx, .yxfb]) : reorderId source fmt ∉
    topo.nodeIds ++ topo.paddedIds :=
  fun taken => disjoint_of_nodup_append apart.distinct taken (mem_reorderIds isSource preferred)

/-- The id of a reorder behind an input tells which input it is. -/
theorem source_eq {m : Format} (preferred : fmt ∈ [Format.bfyx, .yxfb]) (isSourceToo : o ∈
    topo.sourceIds) (preferredToo : m ∈ [Format.bfyx, .yxfb]) (e : reorderId source fmt = reorderId o
    m) : source = o := by
  have nd : topo.reorderIds.Nodup := apart.distinct.of_append_right
  have pairs := inj_on_of_nodup_map nd (mem_product.mpr ⟨isSource, preferred⟩)
    (mem_product.mpr ⟨isSourceToo, preferredToo⟩) e
  exact congrArg Prod.fst pairs

end

end NamesApart

end Topology

namespace Program

variable {p q : Program} {k : NodeKey} {n : Node} {topo : Topology}

/-! ## Programs that lose nodes -/

/-- No node is new, and a node goes on reading first what it has read first, if that is still there. -/
structure Narrows (program edited : Program) : Prop where
  nodes : ∀ key node, edited.node? key = some node → ∃ original,
    program.node? key = some original ∧ original.primitive = node.primitive
  first : ∀ key input, program.dependency? key 0 = some input → edited.contains key →
    edited.contains input → edited.dependency? key 0 = some input
  bare : ∀ key, program.dependencies key = [] → edited.contains key → edited.dependencies key = []

namespace Narrows

theorem of_alters (alters : Alters Node.primitive p q) : Narrows p q where
  nodes _ _ hk := alters.node? hk
  first k i hr _ _ := by rwa [dependency?, alters.dependencies]
  bare k empty _ := by rwa [alters.dependencies]

theorem orderBreadthFirst (p : Program) : Narrows p p.orderBreadthFirst where
  nodes _ n hk := ⟨n, hk, rfl⟩
  first _ _ hr _ _ := hr
  bare _ empty _ := empty

theorem of_annotated (ann : Annotated p q) : Narrows p q :=
  of_alters (ann.weaken (·.1) fun _ => rfl)

theorem of_prepares (prep : Prepares p q) : Narrows p q where
  nodes k n hk := by
    obtain ⟨orig, foundOriginal, e, -⟩ := prep.nodes k n hk
    exact ⟨orig, foundOriginal, e⟩
  first k i hr hv _ := by rwa [dependency?, prep.reads k hv]
  bare k empty hv := by rwa [prep.reads k hv]

theorem of_removes {ks : List NodeKey} (removes : Removes p q ks) : Narrows p q := by
  have kept : ∀ {k}, q.contains k → k ∉ ks := by
    intro k hv removed
    obtain ⟨n, hk⟩ := contains_iff.mp hv
    rw [removes.node?, if_pos removed] at hk
    cases hk
  refine ⟨fun k n hk => ?_, fun k i hr hv inputLive => ?_, fun k empty hv => ?_⟩
  · have hv := kept (contains_of_node? hk)
    rw [removes.node?, if_neg hv] at hk
    exact ⟨n, hk, rfl⟩
  · rw [dependency?, ← head?_eq_getElem?] at hr ⊢
    obtain ⟨rest, split⟩ := head?_eq_some_iff.mp hr
    rw [removes.dependencies, if_neg (kept hv), split,
      filter_cons_of_pos (by simpa using kept inputLive), head?_cons]
  · rw [removes.dependencies, if_neg (kept hv), empty, filter_nil]

theorem of_bypasses {i : NodeKey} (bypasses : Bypasses p q k i n) : Narrows p q := by
  have kept : ∀ {o}, q.contains o → o ≠ k := by
    intro o hv
    obtain ⟨m, hk⟩ := contains_iff.mp hv
    exact (bypasses.node?_eq_some hk).1
  refine ⟨fun o m hk => ?_, fun o a hr hv inputLive => ?_, fun o empty hv => ?_⟩
  · exact ⟨m, (bypasses.node?_eq_some hk).2, rfl⟩
  · rw [dependency?] at hr ⊢
    rw [bypasses.dependencies, if_neg (kept hv), getElem?_map, hr, map_some,
      redirected, if_neg (kept inputLive)]
  · rw [bypasses.dependencies, if_neg (kept hv), empty, map_nil]

end Narrows

/-! ## Programs that use the generated names as they are meant -/

theorem tag_copiedPrimitive (n : Node) : (copiedPrimitive n).tag =
    if n.tag = .data then .inputLayout else n.tag := by
  obtain ⟨⟨id, kind, inputs, pad⟩⟩ := n
  cases kind <;> rfl

/-- The nodes have ids of the topology or ids of reorders for its windows. -/
structure NamedBy (topology : Topology) (program : Program) : Prop where
  source : ∀ key node, program.node? key = some node → node.tag.isSource → node.id ∈ topology.sourceIds
  window : ∀ key node, program.node? key = some node → node.tag.takesWindow →
    node.id ∈ topology.windowIds
  ids : ∀ key node, program.node? key = some node → node.id ∈ topology.nodeIds ++ topology.paddedIds
  /-- The reorder for a window is the first that the window reads. -/
  padded : ∀ key node other reorder source, program.node? key = some node → node.tag.takesWindow →
    program.node? other = some reorder → source ∈ topology.sourceIds →
      reorder.id = paddedId source node.id → program.dependency? key 0 = some other
  /-- Constant buffers read nothing. -/
  bare : ∀ key node, program.node? key = some node → node.tag = .data → program.dependencies key = []

namespace NamedBy

/-- A program that loses nodes keeps its names. -/
theorem narrows (named : p.NamedBy topo) (narrows : Narrows p q) : q.NamedBy topo where
  source k n hk isSource := by
    obtain ⟨orig, foundOriginal, e⟩ := narrows.nodes k n hk
    have h := named.source k orig foundOriginal
    rw [Node.tag, Node.id, e] at h
    exact h isSource
  window k n hk takesWindow := by
    obtain ⟨orig, foundOriginal, e⟩ := narrows.nodes k n hk
    have h := named.window k orig foundOriginal
    rw [Node.tag, Node.id, e] at h
    exact h takesWindow
  ids k n hk := by
    obtain ⟨orig, foundOriginal, e⟩ := narrows.nodes k n hk
    have h := named.ids k orig foundOriginal
    rwa [Node.id, e] at h
  padded k n o reorder source hk takesWindow foundReorder isSource sameId := by
    obtain ⟨orig, foundOriginal, e⟩ := narrows.nodes k n hk
    obtain ⟨pre, hb, sameBefore⟩ := narrows.nodes o reorder foundReorder
    have h := named.padded k orig o pre source foundOriginal
    rw [Node.tag, Node.id, Node.id, e, sameBefore] at h
    exact narrows.first k o (h takesWindow hb isSource sameId)
      (contains_of_node? hk) (contains_of_node? foundReorder)
  bare k n hk isBuffer := by
    obtain ⟨orig, foundOriginal, e⟩ := narrows.nodes k n hk
    have h := named.bare k orig foundOriginal
    rw [Node.tag, e] at h
    exact narrows.bare k (h isBuffer) (contains_of_node? hk)

variable {i : NodeKey} {a : Node}

/-- A node that a reorder has been put in front of does not read a network input or a constant buffer
first. -/
theorem padded_unused (named : p.NamedBy topo) (apart : topo.NamesApart) {o : NodeKey} {reorder : Node}
    {source : String} (hk : p.node? k = some n) (takesWindow : n.tag.takesWindow) (hr : p.dependency?
    k 0 = some i) (foundInput : p.node? i = some a) (isSource : a.tag.isSource) (foundReorder : p.node? o
    = some reorder) (fromSource : source ∈ topo.sourceIds) : reorder.id ≠ paddedId source n.id := by
  intro sameId
  have isFirst := named.padded k n o reorder source hk takesWindow foundReorder fromSource sameId
  cases hr.symm.trans isFirst
  cases foundInput.symm.trans foundReorder
  have hd := Topology.mem_nodeIds_of_source (named.source i a foundInput isSource)
  rw [sameId] at hd
  exact apart.paddedId_not_mem fromSource (named.window k n hk takesWindow) hd

/-- A reorder is put in front of a window. -/
theorem inserts (named : p.NamedBy topo) (apart : topo.NamesApart) (wf : p.Consistent) {ins : NodeKey}
    {fmt : Format} {pad : Padding} (hk : p.node? k = some n) (takesWindow : n.tag.takesWindow)
    (foundInput : p.node? i = some a) (isSource : a.tag.isSource) (inserts : InsertsAt p q ins i
    (.paddedReorder a.id n.id fmt pad) k 0 false) (takes : TakesMarks p q ins (.paddedReorder a.id
    n.id fmt pad) a) : q.NamedBy topo := by
  have fromSource := named.source i a foundInput isSource
  have toWindow := named.window k n hk takesWindow
  refine ⟨fun o m ho sourceTag => ?_, fun o m ho windowTag => ?_,
    fun o m ho => ?_, ?_, fun o m ho isBuffer => ?_⟩
  · obtain ⟨-, made⟩ | ⟨-, hb⟩ := takes.cases ho
    · rw [Node.tag, made] at sourceTag
      cases sourceTag
    · exact named.source o m hb sourceTag
  · obtain ⟨-, made⟩ | ⟨-, hb⟩ := takes.cases ho
    · rw [Node.tag, made] at windowTag
      cases windowTag
    · exact named.window o m hb windowTag
  · obtain ⟨-, made⟩ | ⟨-, hb⟩ := takes.cases ho
    · rw [Node.id, made]
      exact mem_append_right _ (Topology.mem_paddedIds fromSource toWindow)
    · exact named.ids o m hb
  · intro r m o reorder source foundReader windowTag foundReorder isSourceId sameId
    obtain ⟨-, made⟩ | ⟨notNew, hb⟩ := takes.cases foundReader
    · rw [Node.tag, made] at windowTag
      cases windowTag
    obtain ⟨rfl, made⟩ | ⟨-, foundReorderBefore⟩ := takes.cases foundReorder
    · -- The id of the new reorder tells which window it is for.
      rw [Node.id, made] at sameId
      have sameReader := apart.reader_eq fromSource toWindow isSourceId
        (named.window r m hb windowTag) sameId
      obtain rfl := wf.key_eq_of_id_eq hk hb sameReader
      have hl := inserts.lists k
      rw [if_neg notNew, if_neg Bool.false_ne_true, if_pos rfl] at hl
      rw [dependency?, hl, getElem?_set_self]
      exact (List.getElem?_eq_some_iff.mp inserts.readAt).choose
    · have hr := named.padded r m o reorder source hb windowTag foundReorderBefore isSourceId sameId
      have apartFromKey : r ≠ k := by
        rintro rfl
        cases hk.symm.trans hb
        exact named.padded_unused apart hk takesWindow inserts.readAt foundInput isSource
          foundReorderBefore isSourceId sameId
      rwa [dependency?, inserts.lists, if_neg notNew, if_neg Bool.false_ne_true, if_neg apartFromKey]
  · obtain ⟨-, made⟩ | ⟨notNew, hb⟩ := takes.cases ho
    · rw [Node.tag, made] at isBuffer
      cases isBuffer
    have notReader : o ≠ k := by
      rintro rfl
      cases hk.symm.trans hb
      rw [isBuffer] at takesWindow
      cases takesWindow
    rw [inserts.lists, if_neg notNew, if_neg Bool.false_ne_true, if_neg notReader]
    exact named.bare o m hb isBuffer

/-- The program of a topology has its names. -/
theorem of_declares (declares : p.Declares topo) (wf : p.Consistent) (apart : topo.NamesApart)
    (buffers : ∀ prim ∈ topo.primitives, prim.tag = .data → prim.inputs = []) : p.NamedBy topo := by
  have ids : ∀ k n, p.node? k = some n → n.id ∈ topo.nodeIds := by
    intro k n hk
    rw [← declares.ids]
    exact List.mem_map.mpr ⟨_, (wf.mem_names n.id k).mpr ⟨n, hk, rfl⟩, rfl⟩
  have hd : ∀ k n, p.node? k = some n → n.tag ≠ .crop → n.primitive ∈ topo.primitives := by
    intro k n hk notCrop
    rcases declares.origin k n hk with h | ⟨split, -, mem⟩
    · exact h
    · obtain ⟨_, _, _, -, isCrop⟩ := cases_of_mem_cropsOf mem
      exact absurd (congrArg Kind.tag isCrop) notCrop
  have win : ∀ k n, p.node? k = some n → n.tag.takesWindow → n.id ∈ topo.windowIds := by
    intro k n hk takesWindow
    refine Topology.mem_windowIds (hd k n hk fun isCrop => ?_) takesWindow
    rw [isCrop] at takesWindow
    cases takesWindow
  refine ⟨fun k n hk isSource => ?_, win, fun k n hk => ?_, ?_, fun k n hk isBuffer => ?_⟩
  · refine Topology.mem_sourceIds (hd k n hk fun isCrop => ?_) isSource
    rw [isCrop] at isSource
    cases isSource
  · exact mem_append_left _ (ids k n hk)
  · intro k n o reorder source hk takesWindow foundReorder isSource sameId
    have taken := ids o reorder foundReorder
    rw [sameId] at taken
    exact absurd taken (apart.paddedId_not_mem isSource (win k n hk takesWindow))
  · have notCrop : n.tag ≠ .crop := by
      rw [isBuffer]
      exact KindTag.noConfusion
    have hr := declares.reads k n hk
    rw [buffers n.primitive (hd k n hk notCrop) isBuffer] at hr
    exact map_eq_nil_iff.mp hr

/-- The program of a part of another program has its names. In it, constant buffers are network inputs. -/
theorem copied {models : List NodeKey} {start inner : Program} (named : p.NamedBy topo)
    (isCopy : IsCopy start p models inner) : inner.NamedBy topo := by
  have origin : ∀ k n, inner.node? k = some n → ∃ model orig, p.node? model = some orig ∧
      orig.id = n.id ∧ n.tag = (if orig.tag = .data then .inputLayout else orig.tag) ∧
      (inner.dependencies k).map inner.idOf = (p.dependencies model).map p.idOf := by
    intro k n hk
    obtain ⟨model, -, ⟨orig, foundOriginal, rfl⟩, hr⟩ := isCopy.copies k n hk
    exact ⟨model, orig, foundOriginal, (id_copiedPrimitive orig).symm, tag_copiedPrimitive orig, hr⟩
  have win : ∀ {n orig : Node}, n.tag.takesWindow → n.tag = (if orig.tag = .data then
      .inputLayout else orig.tag) → orig.tag.takesWindow := by
    intro n orig takesWindow tag
    split at tag
    · rw [tag] at takesWindow
      cases takesWindow
    · rwa [← tag]
  refine ⟨fun k n hk isSource => ?_, fun k n hk takesWindow => ?_,
    fun k n hk => ?_, ?_, fun k n hk isBuffer => ?_⟩
  · obtain ⟨model, orig, foundOriginal, sameId, tag, -⟩ := origin k n hk
    rw [← sameId]
    refine named.source model orig foundOriginal ?_
    split at tag
    · next isBuffer =>
      rw [isBuffer]
      rfl
    · rwa [← tag]
  · obtain ⟨model, orig, foundOriginal, sameId, tag, -⟩ := origin k n hk
    rw [← sameId]
    exact named.window model orig foundOriginal (win takesWindow tag)
  · obtain ⟨model, orig, foundOriginal, sameId, -⟩ := origin k n hk
    rw [← sameId]
    exact named.ids model orig foundOriginal
  · intro k n o reorder source hk takesWindow foundReorder isSource sameId
    obtain ⟨model, orig, foundOriginal, sameNode, tag, hr⟩ := origin k n hk
    obtain ⟨place, pre, hb, sameReorder, -⟩ := origin o reorder foundReorder
    have a := named.padded model orig place pre source foundOriginal
      (win takesWindow tag) hb isSource (by rw [sameReorder, sameId, sameNode])
    have firstId : ((inner.dependencies k).map inner.idOf)[0]? = some reorder.id := by
      rw [dependency?] at a
      rw [hr, getElem?_map, a, map_some, idOf_of_node? hb, sameReorder]
    rw [getElem?_map] at firstId
    obtain ⟨i, isFirst, isReorder⟩ := map_eq_some_iff.mp firstId
    obtain ⟨st, foundInput⟩ := contains_iff.mp
      (isCopy.consistent.reads_live k i (mem_of_getElem? isFirst)).1
    rw [idOf_of_node? foundInput] at isReorder
    rwa [← isCopy.consistent.key_eq_of_id_eq foundInput foundReorder isReorder]
  · obtain ⟨model, orig, -, -, tag, -⟩ := origin k n hk
    rw [isBuffer] at tag
    split at tag
    · cases tag
    · next notBuffer => exact absurd tag.symm notBuffer

end NamedBy

end Program

end LayerGraph
