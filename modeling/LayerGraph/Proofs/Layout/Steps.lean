import LayerGraph.Proofs.Layout.WindowBorders
import LayerGraph.Proofs.Meaning.Folding

/-!
# Steps of a build and layouts

The steps of a build keep layouts settled. Trimming keeps everything that the outputs depend on, and an
activation that is fused or a reorder that is dropped has the layout of what it reads.

Making room for the window of a node changes borders only, or inserts a reorder that has the layout of
what it reads. A constant buffer in the place of a node has its layout, but no border.
-/

namespace LayerGraph

open List Option KindTag

namespace Program

open Layering

variable {p q : Program} {k i inserted : NodeKey} {n : Node}

variable {counts : Layer → Prop} {prev next : NodeKey}
  {slot : Nat} {prim : Primitive} {moveUsers : Bool}

/-- The settled layout of a node is its cached one. -/
theorem settled_eq_cached {lays : NodeKey → Option Layout} {inside : NodeKey → Prop} {cached : Layout}
    (settled : Settled counts p.layering lays inside) (hi : inside k) (hk : p.node? k =
    some n) (counted : counts n.layer) (known : n.layout = some cached) : lays k = some cached.bare :=
    by
  have e := settled.cached k _ hi (layer?_of_node? hk) counted
  rw [Node.layer, known] at e
  exact e.symm

theorem not_mem_reads_of_vacant (wf : p.Consistent) (vacant : p.node? k = none)
    (r : NodeKey) : k ∉ p.layering.reads r := by
  intro mem
  obtain ⟨n, hk⟩ := contains_iff.mp (wf.reads_live r k mem).1
  rw [vacant] at hk
  cases hk

/-! ## Removing and bypassing nodes -/

theorem Sound.isSettled_trimmed (hs : p.Sound) {dead : List NodeKey}
    (hk : p.deadKeys = .ok dead) (settled : p.layering.IsSettled) :
    (p.removeAll dead).layering.IsSettled := by
  obtain ⟨lays, inside, settled⟩ := settled
  obtain ⟨removes, -⟩ := removes_removeAll hs.consistent dead
  have alive : ∀ k, p.ServesOutput k → k ∉ dead := fun _ => hs.not_dead_of_servesOutput hk
  refine ⟨lays, _, settled.removed (fun k layer hl => ?_) (fun k needed => ?_)
    (fun k layer hl tag => ?_) (fun _ needed _ hr => ServesOutput.reads needed hr) fun k needed => ?_⟩
  · obtain ⟨n, hn, rfl⟩ := layer?_eq_some.mp hl
    exact layer?_of_node? (hs.node?_trimmed hn).2
  · simp only [layering, removes.node?, if_neg (alive k needed)]
  · obtain ⟨n, hn, rfl⟩ := layer?_eq_some.mp hl
    obtain ⟨notDead, hn⟩ := hs.node?_trimmed hn
    by_contra outside
    exact notDead ((hs.mem_dead_iff hk).mpr ⟨outside, n, hn, tag⟩)
  · simp only [layering, removes.dependencies, if_neg (alive k needed)]
    refine filter_eq_self.mpr fun dependency hr => ?_
    simpa using alive dependency (needed.reads hr)

/-- Nodes are removed that nothing reads. -/
theorem isRoomy_pruned (wf : q.Consistent) (nodes : ∀ k n, q.node? k = some n → p.node? k = some n)
    (hr : ∀ k, q.contains k → q.dependencies k = p.dependencies k) (roomy : p.layering.IsRoomy
    counts) : q.layering.IsRoomy counts := by
  obtain ⟨lays, inside, settled, fits⟩ := roomy
  have layers : ∀ k layer, q.layering.layer? k = some layer → p.layering.layer? k = some layer := by
    intro k layer hl
    obtain ⟨n, hk, rfl⟩ := layer?_eq_some.mp hl
    exact layer?_of_node? (nodes k n hk)
  have lacks : ∀ k layer, q.layering.layer? k = some layer →
      layer.kind.tag ≠ .inputLayout → q.contains k := by
    intro k layer hl _
    obtain ⟨n, hk, -⟩ := layer?_eq_some.mp hl
    exact contains_of_node? hk
  refine ⟨lays, _, settled.removed layers (fun k hv => ?_) lacks
    (fun k hv dependency mem => ?_) hr, fits.removed layers lacks hr⟩
  · obtain ⟨n, hk⟩ := contains_iff.mp hv
    rw [layer?_of_node? hk, layer?_of_node? (nodes k n hk)]
  · have mem : dependency ∈ q.dependencies k := hr k hv ▸ mem
    exact (wf.reads_live k dependency mem).1

namespace Bypasses

variable {o : NodeKey} (bypasses : Bypasses p q k i n)

include bypasses

theorem layer? (o : NodeKey) :
    q.layering.layer? o = if o = k then none else p.layering.layer? o := by
  simp only [layering, bypasses.nodes]
  split
  · rfl
  · rfl

theorem layering_reads (apart : o ≠ k) :
    q.layering.reads o = (p.layering.reads o).map (redirected k i) :=
  (bypasses.dependencies o).trans (if_neg apart)

theorem input_mem : i ∈ p.layering.reads k := by
  show i ∈ p.dependencies k
  rw [bypasses.reads]
  exact mem_cons_self

end Bypasses

theorem Fuses.isSettled {into : Node} {fn : Activation}
    (fuses : Fuses p q k i n into fn) (settled : p.layering.IsSettled) :
    (q.modifyNode i fun tgt =>
      { tgt with fused := some fn }).layering.IsSettled := by
  obtain ⟨lays, inside, settled⟩ := settled
  have hk := layer?_of_node? fuses.found
  have tag : n.kind.tag ≠ .inputLayout := by
    rw [fuses.kind]
    exact noConfusion
  have passes : ∀ lay, lays i = some lay →
      n.layer.kind.outputLayout [lay] = .ok (some lay.bare) := by
    intro lay _
    show n.kind.outputLayout [lay] = _
    rw [fuses.kind]
    rfl
  have e := settled.eq_input hk (settled.covers k _ hk tag) fuses.reads passes
  have alters : Alters Node.layer q (q.modifyNode i fun tgt =>
    { tgt with fused := some fn }) := .modifyNode q i fun _ => rfl
  rw [alters.layering]
  exact ⟨lays, _, settled.bypassed fuses.layer? (fun _ => fuses.layering_reads)
    fuses.input_mem fuses.different e⟩

/-- A redundant reorder has the layout of what it reads. -/
theorem Bypasses.isRoomy (bypasses : Bypasses p q k i n)
    (redundant : p.isRedundantReorder k n) (roomy : p.layering.IsRoomy fun _ => True) :
    q.layering.IsRoomy fun _ => True := by
  obtain ⟨lays, inside, settled, fits⟩ := roomy
  obtain ⟨a, src, lay, kind, borderless, readsFirst, foundSource, known⟩ :=
    isRedundantReorder_cases redundant
  rw [dependency?, bypasses.reads] at readsFirst
  cases readsFirst
  have hk := layer?_of_node? bypasses.found
  have hi : inside k := settled.covers k _ hk (by
    show n.kind.tag ≠ _
    rw [kind]
    exact noConfusion)
  have cached : some lay.bare = lays i := by
    have inputInside := settled.closed k hi i bypasses.input_mem
    have cached := settled.cached i _ inputInside (layer?_of_node? foundSource) trivial
    rwa [Node.layer, known, map_some] at cached
  have passes : ∀ lay, lays i = some lay →
      n.layer.kind.outputLayout [lay] = .ok (some lay.bare) := by
    intro o isOther
    cases cached.trans isOther
    show n.kind.outputLayout [lay.bare] = _
    rw [kind]
    rfl
  have e := settled.eq_input hk hi bypasses.reads passes
  refine ⟨lays, _, settled.bypassed bypasses.layer? (fun _ => bypasses.layering_reads)
    bypasses.input_mem bypasses.different e, fits.bypassed hk borderless ?_ bypasses.layer?
    (fun _ => bypasses.layering_reads) e⟩
  show n.kind.tag ≠ _
  rw [kind]
  exact noConfusion

/-! ## Inserting nodes -/

theorem InsertsAt.layering (ins : InsertsAt p q inserted prev prim next slot moveUsers) :
    Layering.Inserts p.layering q.layering inserted prev (Node.ofPrimitive prim).layer := by
  have layers : ∀ k, q.layering.layer? k = if k = inserted then some (Node.ofPrimitive prim).layer
      else p.layering.layer? k := by
    intro k
    have e := congrArg (Option.map Node.layer) (ins.nodes k)
    rw [Option.map_map] at e
    refine e.trans ?_
    split
    · rfl
    · rw [Option.map_map]
      rfl
  refine ⟨?_, by rw [layers, if_pos rfl], fun k apart => by rw [layers, if_neg apart],
    ins.reads, ins.collapse⟩
  simp only [Program.layering, ins.vacant, map_none]

/-- The layout of the new node may be brought up to date. -/
theorem InsertsAt.layering_withLayout {fr : Node} (ins : InsertsAt p q inserted prev prim next
    slot moveUsers) (foundFresh : q.node? inserted = some fr) (lay : Option Layout) :
    Layering.Inserts p.layering (q.modifyNode inserted (·.withLayout lay)).layering inserted prev {
    fr.layer with layout := lay.map (·.withPadding fr.layer.padding) } := by
  refine ins.layering.recached (fun o => ?_) rfl
  rw [layer?_withLayout]
  split
  · next isNew =>
    rw [isNew, layer?_of_node? foundFresh]
    rfl
  · rfl

/-! ## Making room for windows -/

section Windows

variable {lays : NodeKey → Option Layout} {inside : NodeKey → Prop} {pad : Padding}
  {features : UInt32} {win : Window} {handling : Bool} {cached : Layout} {border : Option Padding}

/-- Borders do not matter for layouts. -/
theorem settled_of_alters (settled : Settled (fun _ => True) p.layering lays inside)
    (alters : Alters (fun n : Node => (n.kind, n.layout.map Layout.bare)) p q) :
    Settled (fun _ => True) q.layering lays inside := by
  have origin : ∀ k layer, q.layering.layer? k = some layer → ∃ was, p.layering.layer? k = some was ∧
      was.kind = layer.kind ∧ was.layout.map Layout.bare = layer.layout.map Layout.bare := by
    intro k layer hl
    obtain ⟨n, hk, rfl⟩ := layer?_eq_some.mp hl
    have same := alters.same k
    rw [hk, map_some, eq_comm, map_eq_some_iff] at same
    obtain ⟨was, found, e⟩ := same
    exact ⟨was.layer, layer?_of_node? found, congrArg Prod.fst e, congrArg Prod.snd e⟩
  have reads : q.layering.reads = p.layering.reads := funext alters.dependencies
  refine ⟨fun k hi => ?_, fun k layer hl tag => ?_, fun k hi => ?_, fun k hi layer hl => ?_,
    fun k layer hi hl _ => ?_⟩
  · obtain ⟨_, hl⟩ := settled.live k hi
    obtain ⟨n, hk, -⟩ := layer?_eq_some.mp hl
    obtain ⟨now, found⟩ := contains_iff.mp ((alters.contains k).mpr (contains_of_node? hk))
    exact ⟨_, layer?_of_node? found⟩
  · obtain ⟨was, found, kind, -⟩ := origin k layer hl
    exact settled.covers k was found (kind ▸ tag)
  · rw [reads]
    exact settled.closed k hi
  · obtain ⟨was, found, kind, -⟩ := origin k layer hl
    rw [reads, ← kind]
    exact settled.follows k hi was found
  · obtain ⟨was, found, -, e⟩ := origin k layer hl
    exact e.symm.trans (settled.cached k was hi found trivial)

theorem tag_of_neededBorder {kind : Kind}
    (needs : kind.neededBorder handling cached = .ok (some pad)) : kind.tag ≠ .inputLayout := by
  intro tag
  cases kind with
  | inputLayout lay => cases needs
  | _ => cases tag

/-- Making room for the window of a node keeps layouts settled. -/
theorem PreparesWindow.isSettled (hk : p.node? k = some n) (prep : PreparesWindow handling p k n q)
    (settled : p.layering.IsSettled) : q.layering.IsSettled := by
  cases prep with
  | unknown => exact settled
  | enough => exact settled
  | @widened i cached pad _ hr known needs _ widens =>
    obtain ⟨lays, inside, settled⟩ := settled
    cases widens with
    | merged =>
      refine ⟨lays, inside, settled_of_alters settled (.modifyNode p i fun n => ?_)⟩
      rw [Node.mergePadding, Node.withPadding, Option.map_map]
      rfl
    | @inserted src mid inserted foundSource cachedSource _ _ ins takes =>
      -- The new layer is a reorder to the format of what it reads, with the border.
      have insertsLast : Layering.Inserts p.layering (mid.modifyNode inserted
          (·.withLayout (some ⟨cached.format, cached.shape, pad⟩))).layering inserted i
          ⟨.reorder cached.format, pad, some ⟨cached.format, cached.shape, pad⟩⟩ := by
        have foundFresh := takes.nodes inserted
        rw [if_pos rfl, windowReorder, cachedSource] at foundFresh
        exact ins.layering_withLayout foundFresh _
      have inputInside := settled.closed k (settled.covers k _ (layer?_of_node? hk)
        (tag_of_neededBorder needs)) i (mem_of_getElem? hr)
      have cachedInput := settled_eq_cached settled inputInside foundSource trivial cachedSource
      have gives : (Kind.reorder cached.format).Gives [some cached.bare] (some cached.bare) :=
        .known (rfl : _ = [cached.bare].map some) rfl
      exact ⟨_, _, settled.inserted insertsLast inputInside (cachedInput ▸ gives)
        fun _ => cachedInput.symm⟩

/-- A convolution of natural size asks for the border that its window needs around a layout of the
format `bfyx`. -/
theorem neededBorder_natural (fmt : cached.format = .bfyx)
    (needs : (Kind.convolution features win none).neededBorder handling cached = .ok border) :
    ∃ size needed, win.outputSize cached.shape.spatial = .ok size ∧
      win.neededPadding cached.shape.spatial size = .ok needed ∧ border = some needed := by
  rw [(Kind.Needs.natural fmt).neededBorder] at needs
  cases sized : win.outputSize cached.shape.spatial with
  | error cause =>
    rw [sized] at needs
    cases needs
  | ok size =>
    rw [sized] at needs
    cases needed : win.neededPadding cached.shape.spatial size with
    | error cause =>
      simp only [bind, Except.bind, needed] at needs
      cases needs
    | ok pad =>
      simp only [bind, Except.bind, needed] at needs
      cases needs
      exact ⟨size, pad, rfl, needed, rfl⟩

/-- Convolutions fit when what they read has the borders that they need, going by cached layouts. -/
theorem fits_of_hasRoomAt (settled : Settled (fun _ => True) p.layering lays inside)
    (room : ∀ k, p.contains k → p.HasRoomAt handling k) : p.layering.Fits lays := by
  intro k layer features win i src lay hl kind hr foundSrc known fmt
  have hi := settled.closed k (settled.covers k layer hl (by rw [kind]; exact noConfusion)) i
    (mem_of_getElem? hr)
  have cached := settled.cached i src hi foundSrc trivial
  rw [known, map_eq_some_iff] at cached
  obtain ⟨cached, isCached, rfl⟩ := cached
  obtain ⟨n, hk, rfl⟩ := layer?_eq_some.mp hl
  obtain ⟨source, found, rfl⟩ := layer?_eq_some.mp foundSrc
  obtain ⟨border, needs, enough⟩ := room k (contains_of_node? hk) n i source cached hk hr found isCached
  rw [show n.kind = _ from kind] at needs
  have isBfyx : cached.format = .bfyx := fmt
  obtain ⟨size, needed, sized, padded, rfl⟩ := neededBorder_natural isBfyx needs
  refine ⟨size, needed, sized, padded, ?_⟩
  rcases enough needed rfl with none | ⟨tag, covers⟩
  · exact .of_isZero none
  · exact .of_covers (not_or.mp tag).2 covers

end Windows

/-! ## Constant buffers in the place of nodes -/

/-- A constant buffer in the place of a node has the layout of the node. -/
theorem FoldsNode.isRoomy {new : NodeKey} {lay : Layout} (wf : p.Consistent)
    (folds : FoldsNode p q k new n lay) (tag : n.tag ≠ .data)
    (roomy : p.layering.IsRoomy Layer.Filled) : q.layering.IsRoomy Layer.Filled := by
  obtain ⟨lays, inside, settled, fits⟩ := roomy
  have hk := layer?_of_node? folds.found
  have ne : new ≠ k := Ne.symm (folds.ne_new folds.found)
  have vacant : p.layering.layer? new = none := by
    simp only [layering, folds.vacant, map_none]
  have layers : ∀ o, q.layering.layer? o = if o = k then none
      else if o = new then
        some ((Node.ofPrimitive (.data (foldedId n.id) lay)).inPlaceOf n).layer
      else p.layering.layer? o := by
    intro o
    simp only [layering, folds.nodes]
    split
    · rfl
    · split
      · rfl
      · rfl
  have e : inside k → lays k = some lay.bare := fun hi =>
    settled_eq_cached settled hi folds.found (fun isData => absurd isData tag) folds.known
  refine ⟨_, _, settled.replaced vacant ne layers folds.dependencies rfl (fun counted =>
    counted rfl rfl) e, fits.replaced layers folds.dependencies ⟨_, hk⟩ (not_mem_reads_of_vacant wf
    folds.vacant) rfl rfl fun r layer foundReader tagReader mem => e ?_⟩
  exact settled.closed r (settled.covers r layer foundReader tagReader) k mem

end Program

end LayerGraph
