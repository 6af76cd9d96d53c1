import LayerGraph.Proofs.Layout.Settled

/-!
# Room for windows

A convolution that takes the size which its window has naturally needs a border around what it reads
first, if that is in the format `bfyx`. What it reads has room for the window when the border is wide
enough; of a constant buffer nothing is asked but that it needs no border or has none
(`Layer.HasRoom`). So the border of what is read covers the needed one unless a constant buffer is
read, and the border of a constant buffer only covers it when none is needed
(`Layer.HasRoom.covers_iff`).

When everything that is read has room (`Layering.Fits`), this stays so when borders grow and whenever
layers are removed, bypassed, inserted or replaced in a way that keeps their layouts.
-/

namespace LayerGraph

open List Option Function

namespace Padding

variable {outer inner pad : Padding}

/-- A border is at least as wide as another one on every side. -/
def Covers (outer inner : Padding) : Prop :=
  inner.lower.x ≤ outer.lower.x ∧ inner.lower.y ≤ outer.lower.y ∧
    inner.upper.x ≤ outer.upper.x ∧ inner.upper.y ≤ outer.upper.y

instance (outer inner : Padding) : Decidable (outer.Covers inner) := by
  unfold Covers
  infer_instance

theorem Covers.refl (pad : Padding) : pad.Covers pad :=
  ⟨UInt32.le_refl _, UInt32.le_refl _, UInt32.le_refl _, UInt32.le_refl _⟩

theorem Covers.trans (first : outer.Covers pad) (b : pad.Covers inner) : outer.Covers inner :=
  ⟨UInt32.le_trans b.1 first.1, UInt32.le_trans b.2.1 first.2.1,
    UInt32.le_trans b.2.2.1 first.2.2.1, UInt32.le_trans b.2.2.2 first.2.2.2⟩

theorem isZero_iff : pad.isZero ↔ pad = zero := by
  rw [isZero, beq_iff_eq]

theorem covers_of_isZero (borderless : inner.isZero) : outer.Covers inner := by
  rw [isZero_iff.mp borderless]
  exact ⟨UInt32.zero_le, UInt32.zero_le, UInt32.zero_le, UInt32.zero_le⟩

/-- Without a border nothing is covered but no border. -/
theorem Covers.isZero (covers : outer.Covers inner) (borderless : outer.isZero) : inner.isZero := by
  rw [isZero_iff.mp borderless] at covers
  obtain ⟨lowerX, lowerY, upperX, upperY⟩ := covers
  obtain ⟨⟨a, b⟩, ⟨c, d⟩⟩ := inner
  cases UInt32.le_zero_iff.mp lowerX
  cases UInt32.le_zero_iff.mp lowerY
  cases UInt32.le_zero_iff.mp upperX
  cases UInt32.le_zero_iff.mp upperY
  rfl

theorem le_max_word (first b : UInt32) : first ≤ max first b ∧ b ≤ max first b := by
  show first ≤ (if first ≤ b then b else first) ∧ b ≤ if first ≤ b then b else first
  split
  · next smaller => exact ⟨smaller, UInt32.le_refl _⟩
  · next larger => exact ⟨UInt32.le_refl _, UInt32.le_of_lt (UInt32.not_le.mp larger)⟩

/-- Merging in a border that is covered changes nothing. -/
theorem Covers.merge_eq (covers : outer.Covers inner) : outer.merge inner = outer := by
  have max_eq : ∀ first b : UInt32, b ≤ first → max first b = first := by
    intro first b smaller
    show (if first ≤ b then b else first) = first
    split
    · next larger => exact UInt32.le_antisymm smaller larger
    · rfl
  rw [merge, max_eq _ _ covers.1, max_eq _ _ covers.2.1, max_eq _ _ covers.2.2.1,
    max_eq _ _ covers.2.2.2]

theorem covers_merge_left (first b : Padding) : (first.merge b).Covers first :=
  ⟨(le_max_word _ _).1, (le_max_word _ _).1, (le_max_word _ _).1, (le_max_word _ _).1⟩

theorem covers_merge_right (first b : Padding) : (first.merge b).Covers b :=
  ⟨(le_max_word _ _).2, (le_max_word _ _).2, (le_max_word _ _).2, (le_max_word _ _).2⟩

end Padding

/-- The border of a layer is wide enough. Of a constant buffer nothing is asked but that it needs no
border or has none. -/
def Layer.HasRoom (source : Layer) (needed : Padding) : Prop :=
  if source.kind.tag = .data then needed.isZero ∨ source.padding.isZero
  else source.padding.Covers needed

namespace Layer.HasRoom

variable {src : Layer} {needed : Padding}

theorem of_isZero (none : needed.isZero) : src.HasRoom needed := by
  rw [HasRoom]
  split
  · exact .inl none
  · exact Padding.covers_of_isZero none

theorem of_covers (tag : src.kind.tag ≠ .data) (covers : src.padding.Covers needed) :
    src.HasRoom needed := by
  rwa [HasRoom, if_neg tag]

/-- **Room is there unless a constant buffer is read that needs a border.** -/
theorem covers_iff (room : src.HasRoom needed) :
    src.padding.Covers needed ↔ src.kind.tag ≠ .data ∨ needed.isZero := by
  rw [HasRoom] at room
  split at room
  · next tag =>
    constructor
    · intro covers
      exact .inr (room.elim id covers.isZero)
    · rintro (o | none)
      · exact absurd tag o
      · exact Padding.covers_of_isZero none
  · next tag => exact ⟨fun _ => .inl tag, fun _ => room⟩

end Layer.HasRoom

namespace Layering

open Program (redirected)

variable {pre after : Layering} {lays now : NodeKey → Option Layout}
  {k i new : NodeKey} {layer : Layer}

/-- Everything that convolutions of natural size read first in the format `bfyx` has room for their
windows. -/
def Fits (layering : Layering) (layouts : NodeKey → Option Layout) : Prop :=
  ∀ key layer features window input source layout, layering.layer? key = some layer →
    layer.kind = .convolution features window none → (layering.reads key)[0]? = some input →
    layering.layer? input = some source → layouts input = some layout → layout.format = .bfyx →
    ∃ size needed, window.outputSize layout.shape.spatial = .ok size ∧
      window.neededPadding layout.shape.spatial size = .ok needed ∧ source.HasRoom needed

/-- Everything that such convolutions read first has room, going by the cached layouts. -/
def FitsCached (layering : Layering) : Prop := layering.Fits layering.known

/-- There are settled layouts. -/
def IsSettled (layering : Layering) : Prop :=
  ∃ layouts inside, Settled (fun _ => True) layering layouts inside

/-- There are settled layouts for which everything has room that such convolutions read first. -/
def IsRoomy (counts : Layer → Prop) (layering : Layering) : Prop :=
  ∃ layouts inside, Settled counts layering layouts inside ∧ layering.Fits layouts

/-- What is read first now has room when what was read first had. -/
theorem Fits.of_before (fits : pre.Fits lays) (sources : ∀ k layer i src lay,
    after.layer? k = some layer → layer.kind.tag = .convolution → (after.reads k)[0]? = some i →
    after.layer? i = some src → now i = some lay → lay.format = .bfyx → ∃ orig earlier was,
      pre.layer? k = some orig ∧ orig.kind = layer.kind ∧ (pre.reads k)[0]? = some earlier ∧
      pre.layer? earlier = some was ∧ lays earlier = some lay ∧
      ∀ needed, was.HasRoom needed → src.HasRoom needed) : after.Fits now := by
  intro k layer features win i src lay hk kind hr foundSrc kn fmt
  obtain ⟨orig, earlier, was, foundOrig, sameKind, readsBefore, hb, knownBefore, room⟩ :=
    sources k layer i src lay hk (by rw [kind]; rfl) hr foundSrc kn fmt
  obtain ⟨size, needed, sized, needs, h⟩ := fits k orig features win earlier was lay foundOrig
    (sameKind.trans kind) readsBefore hb knownBefore fmt
  exact ⟨size, needed, sized, needs, room needed h⟩

/-- Layers may go, as long as those that stay read the same. -/
theorem Fits.removed {kept : NodeKey → Prop} (fits : pre.Fits lays)
    (layers : ∀ k layer, after.layer? k = some layer → pre.layer? k = some layer)
    (lacks : ∀ k layer, after.layer? k = some layer → layer.kind.tag ≠ .inputLayout → kept k)
    (hr : ∀ k, kept k → after.reads k = pre.reads k) : after.Fits lays := by
  refine fits.of_before fun k layer i src lay hk tag reading foundSrc kn _ => ?_
  rw [hr k (lacks k layer hk (by rw [tag]; exact KindTag.noConfusion))] at reading
  exact ⟨layer, i, src, layers k layer hk, rfl, reading, layers i src foundSrc, kn, fun _ room => room⟩

theorem IsRoomy.weaken {counts fewer : Layer → Prop} (roomy : pre.IsRoomy counts)
    (less : ∀ layer, fewer layer → counts layer) : pre.IsRoomy fewer := by
  obtain ⟨lays, inside, hs, fits⟩ := roomy
  exact ⟨lays, inside, hs.weaken less, fits⟩

/-- A layer without a border is bypassed that has the layout of what it reads. -/
theorem Fits.bypassed (fits : pre.Fits lays) (hk : pre.layer? k = some layer)
    (borderless : layer.padding.isZero) (tag : layer.kind.tag ≠ .data)
    (layers : ∀ o, after.layer? o = if o = k then none else pre.layer? o)
    (hr : ∀ o, o ≠ k →
      after.reads o = (pre.reads o).map (redirected k i))
    (e : lays i = lays k) : after.Fits lays := by
  have stays : ∀ o layer, after.layer? o = some layer → o ≠ k ∧ pre.layer? o = some layer := by
    intro o layer hl
    rw [layers] at hl
    split at hl
    · cases hl
    · next apart => exact ⟨apart, hl⟩
  refine fits.of_before fun o r read src lay hl _ reading foundSrc kn _ => ?_
  obtain ⟨notKey, hl⟩ := stays o r hl
  rw [hr o notKey, getElem?_map] at reading
  obtain ⟨earlier, readBefore, rfl⟩ := map_eq_some_iff.mp reading
  rw [redirected] at foundSrc kn
  split at foundSrc
  · next earlierIsKey =>
    subst earlierIsKey
    rw [if_pos rfl, e] at kn
    refine ⟨r, earlier, layer, hl, rfl, readBefore, hk, kn, fun needed room => ?_⟩
    -- A layer without a border has room only for a window that needs none.
    rw [Layer.HasRoom, if_neg tag] at room
    exact .of_isZero (room.isZero borderless)
  · next other =>
    rw [if_neg other] at kn
    exact ⟨r, earlier, src, hl, rfl, readBefore, (stays earlier src foundSrc).2, kn,
      fun _ room => room⟩

/-- A constant buffer without a border takes the place of a layer and has its layout. -/
theorem Fits.replaced {lay : Layout} (fits : pre.Fits lays)
    (layers : ∀ o, after.layer? o =
      if o = k then none else if o = new then some layer else pre.layer? o)
    (hr : ∀ o, after.reads o = if o = k ∨ o = new then []
      else (pre.reads o).map (redirected k new))
    (hk : ∃ orig, pre.layer? k = some orig)
    (unread : ∀ o, new ∉ pre.reads o)
    (kind : layer.kind = .data lay) (borderless : layer.padding.isZero)
    (e : ∀ r layer, pre.layer? r = some layer → layer.kind.tag ≠ .inputLayout →
      k ∈ pre.reads r → lays k = some lay.bare) :
    after.Fits (update lays new (some lay.bare)) := by
  refine fits.of_before fun o r read src layoutRead foundReader tag reading foundSrc kn _ => ?_
  rw [hr] at reading
  split at reading
  · cases reading
  next stays =>
  obtain ⟨notKey, notNew⟩ := not_or.mp stays
  rw [layers, if_neg notKey, if_neg notNew] at foundReader
  rw [getElem?_map] at reading
  obtain ⟨earlier, readBefore, rfl⟩ := map_eq_some_iff.mp reading
  have mem := mem_of_getElem? readBefore
  rw [redirected] at foundSrc kn
  split at foundSrc
  · next isKey =>
    subst isKey
    have hi := e o r foundReader (by rw [tag]; exact KindTag.noConfusion) mem
    obtain ⟨orig, foundOrig⟩ := hk
    have isBuffer : src = layer := by
      rw [layers] at foundSrc
      split at foundSrc
      · cases foundSrc
      · rw [if_pos rfl] at foundSrc
        exact (some.inj foundSrc).symm
    have isData : layer.kind.tag = .data := by rw [kind]; rfl
    rw [if_pos rfl, update_self, ← hi] at kn
    refine ⟨r, earlier, orig, foundReader, rfl, readBefore, foundOrig, kn, fun _ _ => ?_⟩
    rw [isBuffer, Layer.HasRoom, if_pos isData]
    exact .inr borderless
  · next apart =>
    have notFresh : earlier ≠ new := fun isNew => unread o (isNew ▸ mem)
    rw [if_neg apart, update_of_ne notFresh] at kn
    rw [layers, if_neg apart, if_neg notFresh] at foundSrc
    exact ⟨r, earlier, src, foundReader, rfl, readBefore, foundSrc, kn, fun _ room => room⟩

end Layering

end LayerGraph
