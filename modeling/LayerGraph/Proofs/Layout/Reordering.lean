import LayerGraph.Proofs.Layout.Passes
import LayerGraph.Proofs.Network.Insertion

/-!
# Reorders behind network inputs

A reorder that is put behind a network input takes over all its readers; no other layer changes
(`Layering.Reordered`). When the layouts are brought up to date after that, all shapes are as before. A
format is as before too, unless it comes from one of the reorders: then each layer from there on has the
format of what it reads first (`Layering.Reordered.explains`). Room for windows is left when no reorder
brings a network input to the format `bfyx` (`Layering.Reordered.fits`).
-/

namespace LayerGraph

open List Option

/-- Two layouts have the same shape, or both are unknown. -/
def SameShape (first second : Option Layout) : Prop :=
  first.map (·.shape) = second.map (·.shape)

variable {others : List (Option Layout)}

/-- Layouts of the same shapes as known ones are known. -/
theorem SameShape.of_known {lays : List Layout} (e : Forall₂ SameShape (lays.map some) others) : ∃
    after : List Layout, others = after.map some ∧ after.map (·.shape) = lays.map (·.shape) := by
  induction lays generalizing others with
  | nil =>
    cases e
    exact ⟨[], rfl, rfl⟩
  | cons lay rest ih =>
    obtain ⟨o, more, a, later, rfl⟩ := List.forall₂_cons_left_iff.mp e
    obtain ⟨after, rfl, shapes⟩ := ih later
    obtain ⟨known, rfl, shape⟩ := map_eq_some_iff.mp a.symm
    exact ⟨known :: after, rfl, by rw [map_cons, map_cons, shape, shapes]⟩

theorem SameShape.none_mem {lays : List (Option Layout)} (e : Forall₂ SameShape lays others)
    (missing : none ∈ lays) : none ∈ others := by
  induction e with
  | nil => cases missing
  | @cons lay o _ _ a later ih =>
    rcases mem_cons.mp missing with rfl | inRest
    · have unknown : o = none := map_eq_none_iff.mp a.symm
      exact unknown ▸ mem_cons_self
    · exact mem_cons_of_mem o (ih inRest)

namespace Kind

variable {kind : Kind} {inputs others : List (Option Layout)} {output o : Option Layout}

/-- The output has the format of what is read first. -/
def PassesFormat (kind : Kind) : Prop :=
  ∀ formats : List Format, kind.outputFormat formats = formats.head?.getD .bfyx

/-- **From inputs of the same shapes an output of the same shape follows.** It has another format only
if the first input has, and then the format of that. -/
theorem Gives.reshaped (gives : kind.Gives inputs output) (givesOther : kind.Gives others o)
    (e : Forall₂ SameShape inputs others) :
    SameShape output o ∧ (output.map (·.format) = o.map (·.format) ∨
      kind.PassesFormat ∧ ∃ was now, inputs.head? = some was ∧ others.head? = some now ∧
        was.map (·.format) ≠ now.map (·.format) ∧ o.map (·.format) = now.map (·.format)) := by
  cases gives with
  | unknown missing =>
    cases givesOther.unique (.unknown (SameShape.none_mem e missing))
    exact ⟨rfl, .inl rfl⟩
  | @known lays _ all res =>
    subst all
    obtain ⟨after, rfl, shapes⟩ := SameShape.of_known e
    obtain ⟨shape, sized, rfl⟩ := outputLayout_eq_ok.mp res
    rw [← shapes] at sized
    cases givesOther.unique (.known rfl (outputLayout_eq_ok.mpr ⟨shape, sized, rfl⟩))
    cases shape with
    | none => exact ⟨rfl, .inl rfl⟩
    | some shape =>
      refine ⟨rfl, ?_⟩
      rcases kind.outputFormat_cases with ⟨fmt, fixed⟩ | passes
      · exact .inl (by simp only [map_some, fixed])
      · cases lays with
        | nil =>
          cases map_eq_nil_iff.mp shapes
          exact .inl rfl
        | cons a rest =>
          obtain ⟨now, more, rfl, -⟩ := map_eq_cons_iff.mp shapes
          by_cases sameFormat : a.format = now.format
          · exact .inl (by simp [passes _, sameFormat])
          · exact .inr ⟨passes, some a, some now, rfl, rfl, by simpa using sameFormat,
              by simp [passes _]⟩

end Kind

namespace Layering

open Program (redirected)
open Relation (ReflTransGen)

variable {pre mid after : Layering} {k new i : NodeKey} {fmt : Format}

/-- A layer is a reorder that was put behind a network input. Its format is the one that convolutions
prefer, and everything that read the input reads it. -/
structure Reorders (before after : Layering) (new input : NodeKey) (format : Format) : Prop where
  vacant : before.layer? new = none
  made : (after.layer? new).map Layer.frame = some (.reorder format, {})
  reads : after.reads new = [input]
  only : ∀ key, input ∈ after.reads key → key = new
  wanted : ∃ source layout, before.layer? input = some source ∧ source.kind.tag = .inputLayout ∧
    source.layout = some layout ∧ layout.format ≠ format ∧ preferredFormat layout.shape.batch = format

/-- Reorders were put behind network inputs, and nothing else was changed but cached layouts. -/
structure Reordered (before after : Layering) : Prop where
  frames : ∀ key layer, before.layer? key = some layer →
    (after.layer? key).map Layer.frame = some layer.frame
  reads : ∀ key layer, before.layer? key = some layer → Forall₂ (fun was now => now = was ∨ ∃ format,
    Reorders before after now was format) (before.reads key) (after.reads key)
  fresh : ∀ key layer, after.layer? key = some layer → before.layer? key = none →
    layer.kind.tag = .reorder

/-- The layout of a layer has the format of what it reads first. -/
def TakesFormat (layering : Layering) (reader input : NodeKey) : Prop :=
  ∃ layer, layering.layer? reader = some layer ∧ layer.kind.PassesFormat ∧
    (layering.reads reader).head? = some input

/-- The shape of a layer is that of a given layout, and so is its format, unless it comes from a reorder
behind one of some network inputs. -/
structure Explains (before after : Layering) (inside : NodeKey → Prop) (layout : Option Layout)
    (key : NodeKey) : Prop where
  shape : SameShape layout (after.known key)
  format : layout.map (·.format) = (after.known key).map (·.format) ∨
    ∃ new input format, ReflTransGen after.TakesFormat key new ∧ inside input ∧
      Reorders before after new input format ∧ (after.known key).map (·.format) = some format

/-- Cached layouts do not matter. -/
theorem Reorders.reframed (reorders : Reorders pre mid new i fmt) (hr : after.reads = mid.reads)
    (frames : ∀ k, (after.layer? k).map Layer.frame = (mid.layer? k).map Layer.frame) :
    Reorders pre after new i fmt :=
  ⟨reorders.vacant, (frames new).trans reorders.made, hr ▸ reorders.reads, hr ▸ reorders.only,
    reorders.wanted⟩

namespace Reordered

theorem refl (layering : Layering) : Reordered layering layering where
  frames _ _ hk := by rw [hk, map_some]
  reads _ _ _ := List.forall₂_same.mpr fun _ _ => .inl rfl
  fresh _ _ hk vacant := by cases hk.symm.trans vacant

theorem exists_layer (reordered : Reordered pre after) {layer : Layer} (hk : pre.layer? k = some
    layer) : ∃ o, after.layer? k = some o ∧ o.frame = layer.frame :=
  map_eq_some_iff.mp (reordered.frames k layer hk)

/-- A layer reads first what it read first, or a new reorder behind that. -/
theorem first (reordered : Reordered pre after) {layer : Layer} (hk : pre.layer? k = some layer) :
    Option.Rel (fun was now => now = was ∨ ∃ format, Reorders pre after now was format)
      (pre.reads k)[0]? (after.reads k)[0]? := by
  have pairs := reordered.reads k layer hk
  generalize pre.reads k = was at pairs ⊢
  generalize after.reads k = now at pairs ⊢
  cases pairs with
  | nil => exact .none
  | cons pair _ => exact .some pair

theorem reframed (reordered : Reordered pre mid) (hr : after.reads = mid.reads)
    (frames : ∀ k, (after.layer? k).map Layer.frame = (mid.layer? k).map Layer.frame) :
    Reordered pre after where
  frames k layer hk := (frames k).trans (reordered.frames k layer hk)
  reads k layer hk := by
    refine hr ▸ (reordered.reads k layer hk).imp fun was now h => h.imp_right ?_
    rintro ⟨fmt, reorders⟩
    exact ⟨fmt, reorders.reframed hr frames⟩
  fresh k layer hk vacant := by
    have e := frames k
    rw [hk, map_some, eq_comm, map_eq_some_iff] at e
    obtain ⟨o, ho, frame⟩ := e
    have kind : o.kind = layer.kind := congrArg Prod.fst frame
    exact kind ▸ reordered.fresh k o ho vacant

end Reordered

theorem Reorders.kind {layer : Layer} (reorders : Reorders pre after new i fmt)
    (hk : after.layer? new = some layer) : layer.kind = .reorder fmt := by
  have made := reorders.made
  rw [hk, map_some] at made
  exact congrArg Prod.fst (some.inj made)

/-- No convolution reads an input that has a reorder behind it. -/
theorem Reorders.tag_ne {r : NodeKey} {layer : Layer}
    (reorders : Reorders pre after new i fmt) (hr : i ∈ after.reads r)
    (hk : after.layer? r = some layer) : layer.kind.tag ≠ .convolution := by
  cases reorders.only r hr
  rw [reorders.kind hk]
  exact KindTag.noConfusion

/-- A reorder is put behind a network input that a convolution reads. -/
structure PutsReorder (before middle after : Layering) (new input : NodeKey) (format : Format) :
    Prop where
  vacant : middle.layer? new = none
  others : ∀ key, key ≠ new → after.layer? key = middle.layer? key
  made : (after.layer? new).map Layer.frame = some (.reorder format, {})
  lists : ∀ key, after.reads key =
    if key = new then [input] else (middle.reads key).map (redirected input new)
  reader : ∃ key layer, input ∈ middle.reads key ∧ middle.layer? key = some layer ∧
    layer.kind.tag = .convolution
  wanted : ∃ source layout, before.layer? input = some source ∧ source.kind.tag = .inputLayout ∧
    source.layout = some layout ∧ layout.format ≠ format ∧ preferredFormat layout.shape.batch = format

namespace PutsReorder

variable (puts : PutsReorder pre mid after new i fmt)
  (reordered : Reordered pre mid)
include puts reordered

theorem ne_new {layer : Layer} (hk : pre.layer? k = some layer) : k ≠ new := by
  rintro rfl
  obtain ⟨o, ho, -⟩ := reordered.exists_layer hk
  rw [puts.vacant] at ho
  cases ho

/-- The new layer is read by everything that read the input. -/
theorem reorders : Reorders pre after new i fmt := by
  obtain ⟨src, -, foundSrc, -⟩ := puts.wanted
  refine ⟨?_, puts.made, by rw [puts.lists, if_pos rfl], fun k hr => ?_, puts.wanted⟩
  · by_contra occupied
    obtain ⟨layer, hk⟩ := ne_none_iff_exists'.mp occupied
    exact puts.ne_new reordered hk rfl
  · by_contra apart
    rw [puts.lists, if_neg apart, List.mem_map] at hr
    obtain ⟨was, -, moved⟩ := hr
    rw [redirected] at moved
    split at moved
    · exact puts.ne_new reordered foundSrc moved.symm
    · next o => exact o moved

/-- A reorder behind another input stays as it is. The same input has none, since then nothing else
would read it. -/
theorem keeps {now was : NodeKey} {o : Format} (reorders : Reorders pre mid now was o) :
    Reorders pre after now was o := by
  obtain ⟨src, -, foundSrc, -⟩ := reorders.wanted
  obtain ⟨layer, foundNow, -⟩ := map_eq_some_iff.mp reorders.made
  have nowOld : now ≠ new := by
    rintro rfl
    rw [puts.vacant] at foundNow
    cases foundNow
  have ne : was ≠ i := by
    rintro rfl
    obtain ⟨r, convolution, hr, foundReader, tag⟩ := puts.reader
    exact reorders.tag_ne hr foundReader tag
  refine ⟨reorders.vacant, by rw [puts.others now nowOld, reorders.made], ?_, fun k hr => ?_,
    reorders.wanted⟩
  · rw [puts.lists, if_neg nowOld, reorders.reads, map_singleton, redirected, if_neg ne]
  · rw [puts.lists] at hr
    split at hr
    · exact absurd (mem_singleton.mp hr) ne
    · obtain ⟨a, hr, moved⟩ := List.mem_map.mp hr
      rw [redirected] at moved
      split at moved
      · exact absurd moved.symm (puts.ne_new reordered foundSrc)
      · exact reorders.only k (moved ▸ hr)

theorem reordered_after : Reordered pre after where
  frames k layer hk := by
    rw [puts.others k (puts.ne_new reordered hk)]
    exact reordered.frames k layer hk
  reads k layer hk := by
    rw [puts.lists, if_neg (puts.ne_new reordered hk), List.forall₂_map_right_iff]
    refine (reordered.reads k layer hk).imp ?_
    intro was now h
    rw [redirected]
    split
    · next isInput =>
      rcases h with rfl | ⟨o, reorders⟩
      · exact .inr ⟨fmt, isInput ▸ puts.reorders reordered⟩
      · obtain ⟨src, -, foundSrc, -⟩ := puts.wanted
        have vacant := reorders.vacant
        rw [isInput, foundSrc] at vacant
        cases vacant
    · exact h.imp_right fun reordersNow =>
        reordersNow.imp fun _ reorders => puts.keeps reordered reorders
  fresh k layer hk vacant := by
    by_cases isNew : k = new
    · subst isNew
      rw [(puts.reorders reordered).kind hk]
      rfl
    · rw [puts.others k isNew] at hk
      exact reordered.fresh k layer hk vacant

end PutsReorder

section Explanation

variable {counts : Layer → Prop} {lays : NodeKey → Option Layout} {inside : NodeKey → Prop}
  {ks : List NodeKey}

/-- A reorder has the shape of what it reads, in its own format. -/
theorem Reorders.explains (reorders : Reorders pre after new i fmt)
    (solved : after.SolvedAt new) (hi : inside i) {lay : Option Layout}
    (explained : Explains pre after inside lay i) : Explains pre after inside lay new := by
  obtain ⟨layer, hk, -⟩ := map_eq_some_iff.mp reorders.made
  have kind := reorders.kind hk
  have gives := solved layer hk
  rw [kind, reorders.reads, map_singleton] at gives
  cases known : after.known i with
  | none =>
    rw [known] at gives
    have unknown : after.known new = none := gives.unique (.unknown mem_cons_self)
    have none := explained.shape
    rw [known] at none
    cases map_eq_none_iff.mp none
    rw [← unknown]
    exact ⟨rfl, .inl rfl⟩
  | some cached =>
    have all : [some cached] = [cached].map some := rfl
    rw [known] at gives
    have isKnown : after.known new = some { format := fmt, shape := cached.shape } :=
      gives.unique (.known all rfl)
    refine ⟨?_, .inr ⟨new, i, fmt, .refl, hi, reorders, by rw [isKnown, map_some]⟩⟩
    rw [isKnown]
    exact explained.shape.trans (by rw [known]; rfl)

/-- The layout of a layer is explained by those of what it reads. -/
theorem Reordered.explains_of_reads (reordered : Reordered pre after)
    (hs : Settled counts pre lays inside) (solved : after.SolvedAt k) (hi : inside k)
    (earlier : Forall₂ (fun was now => Explains pre after inside (lays was) now)
      (pre.reads k) (after.reads k)) : Explains pre after inside (lays k) k := by
  obtain ⟨layer, hk⟩ := hs.live k hi
  obtain ⟨o, ho, frame⟩ := reordered.exists_layer hk
  have gives := hs.follows k hi layer hk
  have sameKind : o.kind = layer.kind := congrArg Prod.fst frame
  have givesOther := solved o ho
  have shapes : Forall₂ SameShape ((pre.reads k).map lays) ((after.reads k).map after.known) := by
    rw [List.forall₂_map_left_iff, List.forall₂_map_right_iff]
    exact earlier.imp fun _ _ explained => explained.shape
  rw [sameKind] at givesOther
  obtain ⟨shape, sameFormat | ⟨passes, was, now, a, firstNow, differs, taken⟩⟩ :=
    gives.reshaped givesOther shapes
  · exact ⟨shape, .inl sameFormat⟩
  · refine ⟨shape, .inr ?_⟩
    -- The format of what is read first has changed, so it comes from a reorder.
    rw [head?_map, map_eq_some_iff] at a firstNow
    obtain ⟨read, isFirst, rfl⟩ := a
    obtain ⟨readNow, isFirstNow, rfl⟩ := firstNow
    obtain ⟨rest, split⟩ := head?_eq_some_iff.mp isFirst
    obtain ⟨restNow, splitNow⟩ := head?_eq_some_iff.mp isFirstNow
    rw [split, splitNow] at earlier
    obtain ⟨new, i, fmt, path, inputInside, reorders, known⟩ :=
      (List.forall₂_cons.mp earlier).1.format.resolve_left differs
    have takes : after.TakesFormat k readNow := ⟨o, ho, sameKind ▸ passes, isFirstNow⟩
    exact ⟨new, i, fmt, .head takes path, inputInside, reorders, taken.trans known⟩

/-- **When layouts are brought up to date after reorders were put behind network inputs,** shapes stay
as they are, and a format that changes comes from one of the reorders. -/
theorem Reordered.explains (reordered : Reordered pre after)
    (hs : Settled counts pre lays inside) (solved : ∀ k, after.SolvedAt k)
    (topological : IsTopological after.reads ks) :
    ∀ k ∈ ks, inside k → Explains pre after inside (lays k) k := by
  -- The induction speaks of the reorders too: they are between a layer and what it read before.
  suffices both : ∀ k ∈ ks, (inside k → Explains pre after inside (lays k) k) ∧ ∀ i fmt,
      inside i → Reorders pre after k i fmt → Explains pre after inside (lays i) k from
    fun k hl => (both k hl).1
  refine topological.induction fun k _ earlier => ⟨fun hi => ?_, ?_⟩
  · refine reordered.explains_of_reads hs (solved k) hi ?_
    obtain ⟨layer, hk⟩ := hs.live k hi
    obtain ⟨sameLength, pairs⟩ := List.forall₂_iff_zip.mp (reordered.reads k layer hk)
    refine List.forall₂_iff_zip.mpr ⟨sameLength, fun {was now} paired => ?_⟩
    obtain ⟨wasRead, nowRead⟩ := of_mem_zip paired
    have wasInside := hs.closed k hi was wasRead
    rcases pairs paired with rfl | ⟨fmt, reorders⟩
    · exact (earlier now nowRead).1 wasInside
    · exact (earlier now nowRead).2 was fmt wasInside reorders
  · intro i fmt hi reorders
    have read : i ∈ after.reads k := by
      rw [reorders.reads]
      exact mem_cons_self
    exact reorders.explains (solved k) hi ((earlier i read).1 hi)

/-- A reorder is put behind a network input that has been declared in another format, and with a batch
for which the format of the reorder is preferred. -/
theorem Reorders.declared (reorders : Reorders pre after new i fmt)
    (hs : Settled Layer.Filled pre lays inside) (hi : inside i) : ∃ src hd, pre.layer? i = some src ∧
      src.kind = .inputLayout hd ∧ hd.format ≠ fmt ∧ preferredFormat hd.shape.batch = fmt := by
  obtain ⟨src, layout, foundSrc, tag, known, differs, preferred⟩ := reorders.wanted
  have cached := hs.cached i src hi foundSrc fun isData => by
    rw [tag] at isData
    cases isData
  have gives := hs.follows i hi src foundSrc
  rw [← cached, known] at gives
  obtain ⟨hd, kind, same⟩ := gives.declared tag
  obtain ⟨sameFormat, sameShape⟩ := Layout.eq_of_bare same
  exact ⟨src, hd, foundSrc, kind, sameFormat ▸ differs, sameShape ▸ preferred⟩

/-- **Reorders behind network inputs leave room for windows,** as long as none of them brings an input to
the format `bfyx`. -/
theorem Reordered.fits (reordered : Reordered pre after)
    (hs : Settled Layer.Filled pre lays inside) (fits : pre.Fits lays)
    (solved : ∀ k, after.SolvedAt k) (topological : IsTopological after.reads ks)
    (all : ∀ k layer, after.layer? k = some layer → k ∈ ks)
    (others : ∀ new i fmt, inside i → Reorders pre after new i fmt → fmt ≠ .bfyx) :
    after.FitsCached := by
  refine fits.of_before fun k layer i src lay hk tag hr foundSrc known fmt => ?_
  have conv : layer.kind.tag ≠ .inputLayout := by
    rw [tag]
    exact KindTag.noConfusion
  -- A convolution has been there before, and what it reads first too, since it is in the format `bfyx`.
  cases foundOrig : pre.layer? k with
  | none => cases tag.symm.trans (reordered.fresh k layer hk foundOrig)
  | some orig =>
  obtain ⟨o, ho, frame⟩ := reordered.exists_layer foundOrig
  cases hk.symm.trans ho
  have sameKind : layer.kind = orig.kind := congrArg Prod.fst frame
  obtain ⟨sameLength, pairs⟩ := List.forall₂_iff_get.mp (reordered.reads k orig foundOrig)
  obtain ⟨bound, rfl⟩ := List.getElem?_eq_some_iff.mp hr
  have boundWas : 0 < (pre.reads k).length := sameLength ▸ bound
  have readsWas : (pre.reads k)[0]? = some (pre.reads k)[0] := List.getElem?_eq_getElem boundWas
  have wasInside := hs.closed k (hs.covers k orig foundOrig (sameKind ▸ conv)) _
    (mem_of_getElem? readsWas)
  rcases pairs 0 boundWas bound with same | ⟨format, reorders⟩
  · simp only [get_eq_getElem] at same
    rw [same] at foundSrc known
    obtain ⟨was, foundWas⟩ := hs.live _ wasInside
    obtain ⟨o, ho, frame⟩ := reordered.exists_layer foundWas
    cases foundSrc.symm.trans ho
    obtain ⟨shape, sameFormat⟩ := reordered.explains hs solved topological _ (all _ _ foundSrc) wasInside
    rw [known] at shape sameFormat
    have layWas : lays (pre.reads k)[0] = some lay := by
      rcases sameFormat with sameFormat | ⟨new, input, other, -, inputInside, reorders, taken⟩
      · obtain ⟨wasLay, isLay, wasFormat⟩ := map_eq_some_iff.mp sameFormat
        rw [isLay] at shape
        have bareWas := hs.bare wasInside
        have bare : (after.known (pre.reads k)[0]).map Layout.bare = after.known (pre.reads k)[0] :=
          (solved _ src foundSrc).bare
        rw [isLay] at bareWas ⊢
        rw [known] at bare
        have wasShape : wasLay.shape = lay.shape := some.inj shape
        rw [← some.inj bareWas, ← some.inj bare, Layout.bare, Layout.bare, Layout.withPadding,
          Layout.withPadding, wasShape, wasFormat]
      · exact absurd ((some.inj taken).symm.trans fmt) (others new input other inputInside reorders)
    refine ⟨orig, _, was, rfl, sameKind.symm, readsWas, foundWas, layWas, fun needed room => ?_⟩
    have kind : src.kind = was.kind := congrArg Prod.fst frame
    have pad : src.padding = was.padding := congrArg Prod.snd frame
    rwa [Layer.HasRoom, kind, pad, ← Layer.HasRoom]
  · have gives := solved _ src foundSrc
    rw [reorders.kind foundSrc, known] at gives
    cases gives with
    | known _ res =>
      obtain ⟨shape, -, e⟩ := Kind.outputLayout_eq_ok.mp res
      obtain ⟨shape, -, rfl⟩ := map_eq_some_iff.mp e.symm
      exact absurd fmt (others _ _ format wasInside reorders)

end Explanation

end Layering

/-! ## Giving network inputs other formats -/

namespace Program

open Layering

variable {p st : Program} {k : NodeKey} {n : Node}

/-- While reorders are put behind network inputs, all other layers stay as they are, and nothing is
marked as running in place. -/
structure Reordering (program state : Program) : Prop where
  sound : state.Sound
  reordered : program.layering.Reordered state.layering
  layers : ∀ key layer, program.layering.layer? key = some layer → state.layering.layer? key = some layer
  inPlace : ∀ key, state.runsInPlace key → program.runsInPlace key
  inputs : state.inputs = program.inputs
  /-- What has not been there is a reorder behind a network input. -/
  origin : ∀ key node, state.node? key = some node → (∃ original, program.node? key = some original ∧
    original.id = node.id) ∨ ∃ input format, Layering.Reorders program.layering state.layering key input
    format ∧ node.id = reorderId (program.idOf input) format

theorem Reordering.refl (hs : p.Sound) : Reordering p p where
  sound := hs
  reordered := .refl _
  layers _ _ hk := hk
  inPlace _ h := h
  inputs := rfl
  origin _ n hk := .inl ⟨n, hk, rfl⟩

theorem Reordering.id_eq {orig : Node} (reordering : Reordering p st)
    (foundOrig : p.node? k = some orig) (hk : st.node? k = some n) : n.id = orig.id := by
  rcases reordering.origin k n hk with ⟨stored, foundStored, sameId⟩ | ⟨_, _, reorders, -⟩
  · cases foundOrig.symm.trans foundStored
    exact sameId.symm
  · have vacant := reorders.vacant
    rw [layer?_of_node? foundOrig] at vacant
    cases vacant

/-- An input has got the reorder that it needed, or it needed none from the beginning. -/
def Served (program state : Program) (input : NodeKey) : Prop :=
  (∃ new format, Layering.Reorders program.layering state.layering new input format) ∨
    ∀ node, program.node? input = some node → program.neededReorder? input node = none

/-- A network input needs a reorder when a convolution reads it first and prefers another format. -/
theorem neededReorder?_ne_none {lay : Layout} {conv : Node} {r : NodeKey} (tag : n.tag = .inputLayout)
    (known : n.layout = some lay) (foundReader : p.node? r = some conv)
    (readerTag : conv.tag = .convolution) (hr : p.dependency? r 0 = some k)
    (differs : lay.format ≠ preferredFormat lay.shape.batch) : p.neededReorder? k n ≠ none := by
  cases isReader : p.convolutionReader? k with
  | none =>
    have none := find?_eq_none.mp isReader r (mem_users_iff.mpr (mem_of_getElem? hr))
    simp [foundReader, readerTag, hr] at none
  | some first => simp [neededReorder?, tag, known, isReader, differs]

/-- A network input that needs no reorder any more has got one, or it needed none. -/
theorem Reordering.served_of_unneeded (reordering : Reordering p st) (hk : st.node? k = some n)
    (unneeded : st.neededReorder? k n = none) : Served p st k := by
  by_contra unserved
  rw [Served, not_or] at unserved
  refine unserved.2 fun orig foundOrig => ?_
  cases needed : p.neededReorder? k orig with
  | none => rfl
  | some found =>
    obtain ⟨lay, tag, known, isReader, differs, -⟩ := neededReorder?_cases needed
    obtain ⟨conv, foundReader, readerTag, hr⟩ := convolutionReader?_eq_some isReader
    obtain ⟨same, hs, e⟩ := layer?_eq_some.mp (reordering.layers k _ (layer?_of_node? foundOrig))
    cases hk.symm.trans hs
    obtain ⟨now, foundNow, sameReader⟩ := layer?_eq_some.mp
      (reordering.layers found.2 _ (layer?_of_node? foundReader))
    have reads := reordering.reordered.first (layer?_of_node? foundReader)
    have readsFirst : (p.layering.reads found.2)[0]? = some k := hr
    rw [readsFirst] at reads
    generalize first : (st.layering.reads found.2)[0]? = read at reads
    cases reads with
    | some moved =>
    rcases moved with rfl | ⟨fmt, reorders⟩
    · exact absurd unneeded (neededReorder?_ne_none ((congrArg (·.kind.tag) e).trans tag)
        ((congrArg Layer.layout e).trans known) foundNow
        ((congrArg (·.kind.tag) sameReader).trans readerTag) first differs)
    · exact absurd ⟨_, fmt, reorders⟩ unserved.1

/-- **One more network input gets the reorder that it needs.** -/
theorem Reordering.ensures_reorderInput (reordering : Reordering p st) (hv : p.contains k) :
    Ensures (Edit.reorderInput k) st (fun new next => Reordering p next ∧ Served p next k ∧
      (∀ i, Served p st i → Served p next i) ∧ (new = none → next = st)) := by
  obtain ⟨orig, foundOrig⟩ := contains_iff.mp hv
  have hl := layer?_of_node? foundOrig
  obtain ⟨n, hk, e⟩ := layer?_eq_some.mp (reordering.layers k _ hl)
  refine (ensures_reorderInput_cases reordering.sound hk).mono ?_
  rintro _ next (⟨-, unneeded, rfl⟩ | ⟨_, r, ins, rfl, needed, after, inserts, takes⟩)
  · exact ⟨reordering, reordering.served_of_unneeded hk unneeded, fun _ h => h, fun _ => rfl⟩
  obtain ⟨lay, tag, known, isReader, differs, rfl⟩ := neededReorder?_cases needed
  obtain ⟨convolution, foundReader, readerTag, hr⟩ := convolutionReader?_eq_some isReader
  have puts : PutsReorder p.layering st.layering next.layering ins k
      (preferredFormat lay.shape.batch) := by
    refine ⟨inserts.layering.vacant, inserts.layering.others, ?_, fun o => ?_,
      ⟨r, _, mem_of_getElem? hr, layer?_of_node? foundReader, readerTag⟩,
      orig.layer, lay, hl, ?_, ?_, differs, rfl⟩
    · rw [inserts.layering.made]
      rfl
    · refine (inserts.lists o).trans ?_
      rw [if_pos rfl]
      rfl
    · rw [← e]
      exact tag
    · rw [← e]
      exact known
  refine ⟨⟨after, puts.reordered_after reordering.reordered, fun o layer ho => ?_,
    fun o shares => reordering.inPlace o ?_, takes.inputs.trans reordering.inputs, fun o m ho => ?_⟩,
    .inl ⟨ins, _, puts.reorders reordering.reordered⟩, fun i => Or.imp_left ?_, fun none => by cases none⟩
  · rw [puts.others o (puts.ne_new reordering.reordered ho)]
    exact reordering.layers o layer ho
  · rw [runsInPlace, takes.nodes] at shares
    split at shares
    · cases shares
    · exact shares
  · rw [takes.nodes] at ho
    split at ho
    · next isNew =>
      cases ho
      refine .inr ⟨k, _, isNew ▸ puts.reorders reordering.reordered, ?_⟩
      rw [idOf_of_node? foundOrig, ← reordering.id_eq foundOrig hk]
      rfl
    · exact (reordering.origin o m ho).imp_right fun ⟨i, fmt, reorders, id⟩ =>
        ⟨i, fmt, puts.keeps reordering.reordered reorders, id⟩
  · rintro ⟨new, fmt, reorders⟩
    exact ⟨new, fmt, puts.keeps reordering.reordered reorders⟩

theorem Reordering.ensures_reorderEach {ks : List NodeKey} (reordering : Reordering p st)
    (hv : ∀ k ∈ ks, p.contains k) : Ensures (Edit.reorderEach ks) st (fun new next =>
      Reordering p next ∧ (∀ k ∈ ks, Served p next k) ∧ (∀ i, Served p st i → Served p next i) ∧
        (new = [] → next = st)) := by
  induction ks generalizing st with
  | nil => exact ⟨reordering, by simp, fun _ h => h, fun _ => rfl⟩
  | cons k rest ih =>
    simp only [Edit.reorderEach, ensures_bind, ensures_pure]
    refine (reordering.ensures_reorderInput (hv k mem_cons_self)).weaken ?_
    rintro new mid ⟨reordering, served, stays, idle⟩
    refine (ih reordering fun o mem => hv o (mem_cons_of_mem _ mem)).weaken ?_
    rintro others next ⟨reordering, servedRest, staysToo, idleToo⟩
    refine ⟨reordering, forall_mem_cons.mpr ⟨staysToo k served, servedRest⟩,
      fun i h => staysToo i (stays i h), fun none => ?_⟩
    obtain ⟨noneHere, noneLater⟩ := append_eq_nil_iff.mp none
    rw [idleToo noneLater, idle (Option.toList_eq_nil_iff.mp noneHere)]

end Program

end LayerGraph
