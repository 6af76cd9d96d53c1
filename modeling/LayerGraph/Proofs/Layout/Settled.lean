import LayerGraph.Proofs.Layout.Inference

/-!
# Settled layouts

While a program is rewritten, its cached layouts are not all up to date: a new constant buffer has no
layout yet. What stays is an assignment of layouts to nodes such that the layout of each node follows
from those of what it reads (`Settled`). The layers that count have it as their cached layout.

A network input that no output depends on may lose what it reads, so that nothing can be said about it.
The assignment is therefore about a part of the nodes, which is closed under reading and lacks network
inputs only.

After a change each layer is a new one whose layout follows, or an old one that reads the same layouts as
before (`Settles`). So layouts stay settled when layers are removed that nothing else reads
(`Settled.removed`), when a layer is bypassed that has the layout of what it reads (`Settled.bypassed`),
when a layer with the same layout is put behind another one (`Settled.inserted`) and when a constant
buffer with the same layout takes the place of a layer (`Settled.replaced`).
-/

namespace LayerGraph.Layering

open List Option Function

open Program (redirected)

variable {counts : Layer → Prop} {pre after : Layering} {lays : NodeKey → Option Layout}
  {inside : NodeKey → Prop} {k i new prev : NodeKey} {layer : Layer}

/-- Layouts that follow from each other, for a part of the nodes that lacks network inputs only. The
layers that count have them cached. -/
structure Settled (counts : Layer → Prop) (layering : Layering) (layouts : NodeKey → Option Layout)
    (inside : NodeKey → Prop) : Prop where
  live : ∀ key, inside key → ∃ layer, layering.layer? key = some layer
  covers : ∀ key layer, layering.layer? key = some layer → layer.kind.tag ≠ .inputLayout → inside key
  closed : ∀ key, inside key → ∀ dependency ∈ layering.reads key, inside dependency
  follows : ∀ key, inside key → ∀ layer, layering.layer? key = some layer →
    layer.kind.Gives ((layering.reads key).map layouts) (layouts key)
  cached : ∀ key layer, inside key → layering.layer? key = some layer → counts layer →
    layer.layout.map Layout.bare = layouts key

/-- What a layer has to do with settled layouts from before a change. -/
inductive Settles (counts : Layer → Prop) (before after : Layering)
    (layouts now : NodeKey → Option Layout) (inside : NodeKey → Prop) (key : NodeKey) : Prop
  | kept (old : inside key) (same : after.layer? key = before.layer? key)
      (own : now key = layouts key)
      (reads : (after.reads key).map now = (before.reads key).map layouts)
  | made {layer : Layer} (found : after.layer? key = some layer)
      (follows : layer.kind.Gives ((after.reads key).map now) (now key))
      (cached : counts layer → layer.layout.map Layout.bare = now key)

namespace Settled

/-- Solved layouts are settled. -/
theorem of_solved (closed : ∀ k, ∀ dep ∈ pre.reads k, ∃ layer, pre.layer? dep = some layer) (solved
    : ∀ k, pre.SolvedAt k) : Settled counts pre pre.known fun k => ∃ layer, pre.layer? k =
    some layer where
  live _ h := h
  covers _ layer hk _ := ⟨layer, hk⟩
  closed k _ := closed k
  follows k _ := solved k
  cached k layer _ hk _ := by
    rw [known, hk]
    rfl

variable (hs : Settled counts pre lays inside)

include hs

theorem bare (hi : inside k) : (lays k).map Layout.bare = lays k := by
  obtain ⟨layer, hk⟩ := hs.live k hi
  exact (hs.follows k hi layer hk).bare

/-- A layer that passes on the layout of the only thing that it reads has this layout. -/
theorem eq_input (hk : pre.layer? k = some layer) (hi : inside k) (hr : pre.reads k = [i])
    (passes : ∀ lay, lays i = some lay → layer.kind.outputLayout [lay] = .ok (some lay.bare)) :
    lays i = lays k := by
  have gives := hs.follows k hi layer hk
  rw [hr, map_singleton] at gives
  rw [gives.eq_input passes, hs.bare (hs.closed k hi i (hr ▸ mem_cons_self))]

theorem weaken {fewer : Layer → Prop} (less : ∀ layer, fewer layer → counts layer) :
    Settled fewer pre lays inside :=
  { hs with cached := fun k layer hi hk h => hs.cached k layer hi hk (less _ h) }

/-- **Layouts stay settled when each layer is a new one or reads the same layouts as before.** -/
theorem changed {now : NodeKey → Option Layout} {within : NodeKey → Prop}
    (covers : ∀ k layer, after.layer? k = some layer → layer.kind.tag ≠ .inputLayout → within k)
    (closed : ∀ k, within k → ∀ dep ∈ after.reads k, within dep)
    (settles : ∀ k, within k → Settles counts pre after lays now inside k) :
    Settled counts after now within where
  live k h := by
    cases settles k h with
    | kept old same =>
      rw [same]
      exact hs.live k old
    | made found => exact ⟨_, found⟩
  covers := covers
  closed := closed
  follows k h layer hk := by
    cases settles k h with
    | kept old same own hr =>
      rw [hr, own]
      exact hs.follows k old layer (same ▸ hk)
    | made found follows =>
      cases found.symm.trans hk
      exact follows
  cached k layer h hk counted := by
    cases settles k h with
    | kept old same own =>
      rw [own]
      exact hs.cached k layer old (same ▸ hk) counted
    | made found _ cached =>
      cases found.symm.trans hk
      exact cached counted

/-- Layers are removed that no other layer reads. -/
theorem removed {kept : NodeKey → Prop} (layers : ∀ k layer, after.layer? k = some layer → pre.layer?
    k = some layer) (stays : ∀ k, kept k → after.layer? k = pre.layer? k) (lacks : ∀ k layer,
    after.layer? k = some layer → layer.kind.tag ≠ .inputLayout → kept k) (closed : ∀ k, kept k → ∀ dep ∈
    pre.reads k, kept dep) (hr : ∀ k, kept k → after.reads k = pre.reads k) : Settled
    counts after lays fun k => inside k ∧ kept k := by
  refine hs.changed (fun k layer hk tag => ⟨hs.covers k layer (layers k layer hk) tag,
    lacks k layer hk tag⟩) (fun k h dep mem => ?_) fun k h =>
      .kept h.1 (stays k h.2) rfl (by rw [hr k h.2])
  rw [hr k h.2] at mem
  exact ⟨hs.closed k h.1 dep mem, closed k h.2 dep mem⟩

/-- A layer is bypassed that has the layout of what it reads. -/
theorem bypassed (layers : ∀ o, after.layer? o = if o = k then none else pre.layer? o) (hr : ∀ o, o
    ≠ k → after.reads o = (pre.reads o).map (redirected k i)) (mem : i ∈ pre.reads k) (ne : i ≠ k)
    (e : lays i = lays k) : Settled counts after lays fun o => inside o ∧ o ≠ k := by
  refine hs.changed (fun o layer hk tag => ?_) (fun o h dep reading => ?_) fun o h =>
    .kept h.1 (by rw [layers, if_neg h.2]) rfl ?_
  · rw [layers] at hk
    split at hk
    · cases hk
    · next apart => exact ⟨hs.covers o layer hk tag, apart⟩
  · rw [hr o h.2, List.mem_map] at reading
    obtain ⟨src, sourceRead, rfl⟩ := reading
    have sourceInside := hs.closed o h.1 src sourceRead
    rw [redirected]
    split
    · next isKey => exact ⟨hs.closed k (isKey ▸ sourceInside) i mem, ne⟩
    · next apart => exact ⟨sourceInside, apart⟩
  · rw [hr o h.2, List.map_map]
    refine map_congr_left fun src _ => ?_
    rw [comp_apply, redirected]
    split
    · next isKey => rw [isKey, e]
    · rfl

/-- A node that was not there has no settled layout. -/
theorem ne_new (vacant : pre.layer? new = none) (hi : inside k) : k ≠ new := by
  rintro rfl
  obtain ⟨layer, hk⟩ := hs.live k hi
  rw [vacant] at hk
  cases hk

end Settled

/-- A new layer has been put behind another one, in front of some of its readers. -/
structure Inserts (before after : Layering) (new prev : NodeKey) (layer : Layer) : Prop where
  vacant : before.layer? new = none
  made : after.layer? new = some layer
  others : ∀ key, key ≠ new → after.layer? key = before.layer? key
  reads : after.reads new = [prev]
  collapse : ∀ key, key ≠ new → (after.reads key).map (redirected new prev) = before.reads key

/-- The cached layout of the new layer may be brought up to date. -/
theorem Inserts.recached {last : Layering} {fr : Layer} (ins : Inserts pre after new prev
    layer) (layers : ∀ k, last.layer? k = if k = new then some fr else after.layer? k) (hr :
    last.reads = after.reads) : Inserts pre last new prev fr where
  vacant := ins.vacant
  made := by rw [layers, if_pos rfl]
  others k apart := by rw [layers, if_neg apart, ins.others k apart]
  reads := by rw [hr, ins.reads]
  collapse k apart := by rw [hr, ins.collapse k apart]

namespace Settled

variable (hs : Settled counts pre lays inside)

include hs

/-- A layer is put behind another one and has the layout of the other. -/
theorem inserted (ins : Inserts pre after new prev layer) (prevInside : inside prev)
    (gives : layer.kind.Gives [lays prev] (lays prev))
    (cachedNew : counts layer → layer.layout.map Layout.bare = lays prev) :
    Settled counts after (update lays new (lays prev)) fun k => k = new ∨ inside k := by
  have apart : ∀ {k}, inside k → k ≠ new := hs.ne_new ins.vacant
  refine hs.changed (fun k o hk tag => ?_) ?_ ?_
  · by_cases isNew : k = new
    · exact .inl isNew
    · rw [ins.others k isNew] at hk
      exact .inr (hs.covers k o hk tag)
  · rintro k (rfl | hi) dep mem
    · rw [ins.reads, mem_singleton] at mem
      exact .inr (mem ▸ prevInside)
    · by_cases isNew : dep = new
      · exact .inl isNew
      · have moved := List.mem_map_of_mem (f := redirected new prev) mem
        rw [ins.collapse k (apart hi), redirected, if_neg isNew] at moved
        exact .inr (hs.closed k hi dep moved)
  · rintro k (rfl | hi)
    · refine .made ins.made ?_ ?_
      · rwa [ins.reads, map_singleton, update_of_ne (apart prevInside), update_self]
      · rwa [update_self]
    · refine .kept hi (ins.others k (apart hi)) (update_of_ne (apart hi) _ _) ?_
      -- What is read is the new layer in some places, and it has the layout of the old one.
      rw [← ins.collapse k (apart hi), List.map_map]
      refine map_congr_left fun dep _ => ?_
      rw [comp_apply, redirected]
      split
      · next isNew => rw [isNew, update_self]
      · next notNew => rw [update_of_ne notNew]

/-- A constant buffer takes the place of a layer and has its layout. -/
theorem replaced {lay : Layout} (vacant : pre.layer? new = none)
    (ne : new ≠ k) (layers : ∀ o, after.layer? o =
      if o = k then none else if o = new then some layer else pre.layer? o)
    (hr : ∀ o, after.reads o = if o = k ∨ o = new then []
      else (pre.reads o).map (redirected k new))
    (kind : layer.kind = .data lay) (uncounted : ¬ counts layer)
    (e : inside k → lays k = some lay.bare) :
    Settled counts after (update lays new (some lay.bare))
      fun o => o = new ∨ inside o ∧ o ≠ k := by
  have apart : ∀ {o}, inside o → o ≠ new := hs.ne_new vacant
  have lists : ∀ o, inside o → o ≠ k → after.reads o = (pre.reads o).map (redirected k new) := by
    intro o hi notKey
    rw [hr, if_neg (not_or.mpr ⟨notKey, apart hi⟩)]
  refine hs.changed (fun o hk hl tag => ?_) ?_ ?_
  · rw [layers] at hl
    split at hl
    · cases hl
    · next notKey =>
      split at hl
      · next isNew => exact .inl isNew
      · exact .inr ⟨hs.covers o hk hl tag, notKey⟩
  · rintro o (rfl | ⟨hi, notKey⟩) dep mem
    · rw [hr, if_pos (.inr rfl)] at mem
      cases mem
    · rw [lists o hi notKey, List.mem_map] at mem
      obtain ⟨src, sourceRead, rfl⟩ := mem
      rw [redirected]
      split
      · exact .inl rfl
      · next other => exact .inr ⟨hs.closed o hi src sourceRead, other⟩
  · rintro o (rfl | ⟨hi, notKey⟩)
    · refine .made (by rw [layers, if_neg ne, if_pos rfl]) ?_ fun counted => absurd counted uncounted
      rw [hr, if_pos (.inr rfl), kind, update_self]
      have none : ([] : List (Option Layout)) = ([] : List Layout).map some := rfl
      exact .known none rfl
    · refine .kept hi (by rw [layers, if_neg notKey, if_neg (apart hi)])
        (update_of_ne (apart hi) _ _) ?_
      rw [lists o hi notKey, List.map_map]
      refine map_congr_left fun src sourceRead => ?_
      have sourceInside := hs.closed o hi src sourceRead
      rw [comp_apply, redirected]
      split
      · next isKey => rw [update_self, isKey, e (isKey ▸ sourceInside)]
      · exact update_of_ne (apart sourceInside) _ _

end Settled

end LayerGraph.Layering
