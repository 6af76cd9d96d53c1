import LayerGraph.Proofs.Layout.Reordering

/-!
# Nodes that run in place

A node runs in place when it is a reshape or a crop that reads one node, neither has a border, and a
crop reads a single batch in the format `bfyx`. This is decided before the network inputs that
convolutions read are reordered. In a finished program there are still no borders, and a crop still
reads a single batch. But what it reads may be in the format `yxfb` then, when the format comes from a
reordered input of a large batch.
-/

namespace LayerGraph

open List Option

/-- What a layer needs to run in place. -/
def Layering.Shareable (layering : Layering) (key : NodeKey) : Prop :=
  ∃ layer input source, layering.layer? key = some layer ∧ layering.reads key = [input] ∧
    layering.layer? input = some source ∧ layer.padding.isZero ∧ source.padding.isZero ∧
    layer.kind.canRunInPlace source.layout

namespace Program

open Layering

variable {p q : Program} {key : NodeKey} {node : Node} {origin : Layering}

/-- Only layers that could share buffers originally are marked as running in place. -/
def SharesWithin (origin : Layering) (program : Program) : Prop :=
  program.EachNode fun key node => node.runsInPlace → origin.Shareable key

/-- No node is marked as running in place. -/
def SharesNothing (program : Program) : Prop := program.EachNode fun _ node => node.runsInPlace = false

theorem SharesNothing.sharesWithin (none : p.SharesNothing) (origin : Layering) :
    p.SharesWithin origin := by
  intro key node hk shares
  rw [none key node hk] at shares
  cases shares

theorem lasting_inPlace : Node.Lasting fun _ node => node.runsInPlace = false where
  marked _ _ _ _ h := h
  fused _ _ _ h := h
  widened _ _ _ h := h
  reorder _ _ _ _ _ _ _ := rfl
  buffer _ _ _ := rfl
  replaced _ _ _ h := h

/-! ## Marking what can run in place -/

/-- A node of a consistent program that reads one live node reads one node. -/
theorem Consistent.exists_of_dependencyNodes (wf : p.Consistent) {src : Node}
    (sources : p.dependencyNodes key = [src]) :
    ∃ i, p.dependencies key = [i] ∧ p.node? i = some src := by
  rw [dependencyNodes] at sources
  have hv : ∀ i ∈ p.dependencies key, p.contains i := fun i mem => (wf.reads_live key i mem).1
  cases hr : p.dependencies key with
  | nil =>
    rw [hr] at sources
    cases sources
  | cons i rest =>
    rw [hr] at sources hv
    obtain ⟨a, hk⟩ := contains_iff.mp (hv i mem_cons_self)
    rw [filterMap_cons_some hk] at sources
    obtain ⟨rfl, none⟩ := cons.inj sources
    cases rest with
    | nil => exact ⟨i, rfl, hk⟩
    | cons o more =>
      obtain ⟨b, foundSecond⟩ := contains_iff.mp (hv o (by simp))
      rw [filterMap_cons_some foundSecond] at none
      cases none

theorem SharesWithin.shareBuffer (shares : p.SharesWithin p.layering)
    (wf : p.Consistent) (key : NodeKey) : (p.shareBuffer key).SharesWithin p.layering := by
  rw [Program.shareBuffer]
  split
  · next node src hk sources =>
    split
    · next fits =>
      obtain ⟨i, hr, foundInput⟩ := wf.exists_of_dependencyNodes sources
      simp only [Bool.and_eq_true] at fits
      obtain ⟨⟨borderless, sourceBorderless⟩, fits⟩ := fits
      exact shares.modifyNode key fun _ _ _ => ⟨node.layer, i, src.layer,
        layer?_of_node? hk, hr, layer?_of_node? foundInput, borderless, sourceBorderless, fits⟩
    · exact shares
  · exact shares

/-- Marks do not matter for what can run in place, so the order of the nodes does not either. -/
theorem SharesWithin.foldl_shareBuffer (ks : List NodeKey) (wf : p.Consistent)
    (e : p.layering = origin) (shares : p.SharesWithin origin) :
    (ks.foldl Program.shareBuffer p).SharesWithin origin := by
  induction ks generalizing p with
  | nil => exact shares
  | cons key rest ih =>
    subst e
    exact ih (wf.annotated (marked_shareBuffer p key).annotated)
      (layering_of_marked (marked_shareBuffer p key)) (shares.shareBuffer wf key)

/-! ## The passes after that -/

/-- Nodes run in place where the original layers allow it. Reorders have been added if the build optimizes
data, and nothing else. -/
structure Justified (optimizes : Bool) (origin : Layering) (program : Program) : Prop where
  reordered : origin.Reordered program.layering
  shares : program.SharesWithin origin
  same : optimizes = false → program.layering.reads = origin.reads

theorem SharesWithin.noted (shares : p.SharesWithin origin) (noted : Noted p q) :
    q.SharesWithin origin := by
  intro key node hk inPlace
  have e := noted.nodes key
  rw [hk, map_some] at e
  obtain ⟨orig, foundOrig, equal⟩ := map_eq_some_iff.mp e.symm
  have sameMark : orig.withoutConflicts.runsInPlace = node.withoutConflicts.runsInPlace :=
    congrArg Node.runsInPlace equal
  exact shares key orig foundOrig (sameMark.trans inPlace)

theorem SharesWithin.of_runsInPlace (shares : p.SharesWithin origin)
    (fewer : ∀ key, q.runsInPlace key → p.runsInPlace key) : q.SharesWithin origin := by
  intro key node hk inPlace
  have pre := fewer key (by rw [runsInPlace, hk, any_some, inPlace])
  rw [runsInPlace, Option.any_eq_true] at pre
  obtain ⟨orig, foundOrig, hm⟩ := pre
  exact shares key orig foundOrig hm

end Program

namespace Build

open Program Layering

variable {s : Session} {folding : Build Unit} {origin : Layering} {opts : Options} {optimizes : Bool}

theorem ensures_refreshLayouts_sharesWithin {p : Program} (wf : p.Consistent) (shares : p.SharesWithin
    origin) : Ensures Edit.refreshLayouts p (fun _ next => next.SharesWithin origin) :=
  (ensures_refreshLayouts_each wf shares fun _ _ _ h => h).mono fun _ _ h => h

/-- Marking what can run in place, and handing nodes to the backend. -/
theorem keeps_sharing {pass : Pass} (mem : pass ∈ [.shareBuffers, .compileNodes]) : Keeps folding
    (fun p => p.layering = origin ∧ p.SharesWithin origin) pass := by
  rw [mem_cons, mem_singleton] at mem
  rcases mem with rfl | rfl
  · refine ⟨by decide, by decide, fun pre sound h => ?_⟩
    obtain ⟨e, shares⟩ := h
    rw [Pass.body, shareBuffers, ensures_modifyProgram]
    exact ⟨(layering_of_marked (marked_foldl_shareBuffer _ _)).trans e,
      shares.foldl_shareBuffer _ sound.consistent e⟩
  · refine ⟨by decide, by decide, fun pre sound h => ?_⟩
    simp only [Pass.body, compileNodes, ensures_bind, ensures_program]
    refine (ensures_compileNodes _).mono fun _ next e => ?_
    rw [e.1]
    exact h

section

variable (sound : s.program.Sound)

include sound

/-- Reordering the network inputs. -/
theorem ensures_reorderInputs_justified (shares : s.program.SharesWithin s.program.layering) :
    Ensures reorderInputs s
      (fun _ next => next.program.Justified true s.program.layering) := by
  simp only [reorderInputs, ensures_bind, ensures_program, ensures_edit]
  have hv := sound.consistent.inputs_live
  refine ((Reordering.refl sound).ensures_reorderEach hv).weaken ?_
  rintro ins mid ⟨reordering, -⟩
  have sharesMiddle : mid.SharesWithin s.program.layering := shares.of_runsInPlace reordering.inPlace
  split
  · exact ⟨reordering.reordered, sharesMiddle, fun isFalse => by cases isFalse⟩
  · rw [ensures_bind, ensures_edit]
    refine (((ensures_refreshLayouts_solved reordering.sound).mono fun _ _ h => h).and
      (ensures_refreshLayouts_sharesWithin reordering.sound.consistent sharesMiddle)).weaken ?_
    rintro _ refreshed ⟨⟨ann, frames, -⟩, sharesAfter⟩
    refine (ensures_compileNodes _).mono fun _ last e => ?_
    rw [e.1]
    exact ⟨reordering.reordered.reframed (funext ann.dependencies) frames, sharesAfter,
      fun isFalse => by cases isFalse⟩

theorem ensures_computeConflicts_justified (justified : s.program.Justified optimizes origin) :
    Ensures computeConflicts s (fun _ next => next.program.Justified optimizes origin) := by
  obtain ⟨pairs, hk⟩ := sound.consistent.exists_conflictingPairs s.program.options.memoryStrategy
  simp only [computeConflicts, ensures_bind, ensures_program, ensures_edit]
  rw [Ensures, computeConflicts_eq _ hk]
  have noted := noted_noteConflicts s.program pairs
  have layers := layering_of_marked noted.marked
  exact ⟨layers.symm ▸ justified.reordered, justified.shares.noted noted, layers ▸ justified.same⟩

/-- **Cleaning up brings layouts up to date.** -/
theorem ensures_cleanUp_justified (justified : s.program.Justified optimizes origin) :
    Ensures cleanUp s (fun _ next => next.program.Justified optimizes origin ∧
      ∀ key, next.program.layering.SolvedAt key) := by
  refine ensures_cleanUp_keeps (fun p => p.Justified optimizes origin ∧
    ∀ key, p.layering.SolvedAt key) sound
    ((((ensures_refreshLayouts_solved sound).mono fun _ _ h => h).and
    (ensures_refreshLayouts_sharesWithin sound.consistent justified.shares)).weaken ?_) ?_
  · rintro _ refreshed ⟨⟨ann, frames, solved⟩, shares⟩
    have reads := funext ann.dependencies
    exact ⟨⟨justified.reordered.reframed reads frames, shares, fun isFalse =>
      Eq.trans reads (justified.same isFalse)⟩, solved⟩
  · rintro st key ⟨⟨reordered, shares, same⟩, solved⟩
    rw [← st.layering_setOutput key true] at reordered solved same
    exact ⟨⟨reordered, shares.setOutput key fun _ _ h => h, same⟩, solved⟩

/-- **The passes after the folding of constants mark only what could share buffers at their start.** -/
theorem ensures_finishing_justified (none : s.program.SharesNothing)
    (enabled : s.program.options.enables Pass.cleanUp.name) :
    Ensures ((Pass.finishing opts).forM (runWith folding)) s
      (fun _ last => last.program.Justified opts.optimizeData s.program.layering ∧
        ∀ key, last.program.layering.SolvedAt key) := by
  rw [Pass.finishing, ensures_forM_append]
  refine (ensures_runAll_keeps (fun pass mem => keeps_sharing ?_) sound
    ⟨rfl, none.sharesWithin _⟩).weaken ?_
  · simp only [mem_append, mem_cons, not_mem_nil, or_false, Pass.mem_only] at mem ⊢
    exact mem.imp_left And.right
  rintro _ shared ⟨a, e, shares⟩
  have soundShared := a.rewrites.sound sound
  rw [← e] at shares ⊢
  have idle : shared.program.Justified opts.optimizeData shared.program.layering :=
    ⟨.refl _, shares, fun _ => rfl⟩
  rw [ensures_forM_append]
  refine (ensures_only (fun next => shared.Advances next ∧
    next.program.Justified opts.optimizeData shared.program.layering) (fun _ => ⟨.refl shared, idle⟩)
    fun optimizes => ensures_runWith_keeps _ soundShared (by decide) (by decide)
      (optimizes ▸ ensures_reorderInputs_justified soundShared shares) fun _ => idle).weaken ?_
  rintro _ reordered ⟨b, justified⟩
  have soundReordered := b.rewrites.sound soundShared
  have notes : Keeps folding (·.Justified opts.optimizeData shared.program.layering)
    .computeConflicts := ⟨by decide, by decide, fun _ => ensures_computeConflicts_justified⟩
  rw [ensures_forM_append]
  refine (ensures_runAll_keeps (fun _ mem => (Pass.mem_only.mp mem).2 ▸ notes) soundReordered
    justified).weaken ?_
  rintro _ noted ⟨c, justifiedNoted⟩
  have cleans : Ensures (Pass.cleanUp.body folding) noted _ fun _ => True :=
    ensures_cleanUp_justified (c.rewrites.sound soundReordered) justifiedNoted
  rw [ensures_forM_singleton]
  refine (ensures_runWith_keeps (fun p => p.Justified opts.optimizeData shared.program.layering ∧
    ∀ key, p.layering.SolvedAt key) (c.rewrites.sound soundReordered) (by decide) (by decide) cleans
    fun disabled => ?_).weaken fun _ _ h => h.2
  rw [c.rewrites.options, b.rewrites.options, a.rewrites.options] at disabled
  exact absurd enabled disabled

end

/-! ## The passes before -/

/-- Passes that do not matter for layouts keep everything about layers. -/
theorem keepsLayers_of_marks {holds : Layering → Prop} {pass : Pass}
    (marks : pass ∈ [.markNodes, .orderBreadthFirst, .decideOutputSizes, .shareBuffers,
      .compileNodes, .computeConflicts]) : Keeps folding (fun program => holds program.layering) pass where
  notFirst := by
    rintro rfl
    exact absurd marks (by decide)
  notFolding := by
    rintro rfl
    exact absurd marks (by decide)
  body s hs h := by
    refine (ensures_body_layering hs folding marks).weaken fun _ next e => ?_
    rwa [e]

/-- Up to where room is made for windows, everything they read gets room. -/
theorem ensures_makingRoom (hs : s.program.Sound) (settled : s.program.layering.IsSettled) (enabled :
    s.program.options.enables Pass.prepareWindows.name) : Ensures ((Pass.makingRoom opts).forM (runWith
    folding)) s (fun _ next => s.Advances next ∧ next.program.layering.IsRoomy fun _ => True) fun _ =>
    True := by
  have keeps : ∀ pass ∈ [.markNodes, .trim] ++
      Pass.only (opts.queueType == .outOfOrder) .orderBreadthFirst ++ [.decideOutputSizes] ++
        Pass.only opts.optimizeData .fuseActivations, Keeps folding (·.layering.IsSettled) pass := by
    intro pass mem
    simp only [mem_append, mem_cons, not_mem_nil, or_false, Pass.mem_only] at mem
    rcases mem with (((rfl | rfl) | ⟨-, rfl⟩) | rfl) | ⟨-, rfl⟩
    · exact keepsLayers_of_marks (by decide)
    · exact ⟨by decide, by decide, fun _ hs settled => ensures_trim_isSettled hs settled⟩
    · exact keepsLayers_of_marks (by decide)
    · exact keepsLayers_of_marks (by decide)
    · exact ⟨by decide, by decide, fun _ hs settled =>
        ensures_fuseActivations_isSettled hs settled⟩
  have drops : ∀ pass ∈ [Pass.dropReorders],
      Keeps folding (·.layering.IsRoomy fun _ => True) pass := by
    intro pass mem
    cases mem_singleton.mp mem
    exact ⟨by decide, by decide, fun _ hs roomy => ensures_dropReorders_isRoomy hs roomy⟩
  rw [Pass.makingRoom, ensures_forM_append]
  refine (ensures_runAll_keeps keeps hs settled).weaken ?_
  rintro _ early ⟨a, settledEarly⟩
  have soundEarly := a.rewrites.sound hs
  rw [List.forM, ensures_bind]
  have widens : Ensures (Pass.prepareWindows.body folding) early (fun _ next =>
      next.program.layering.IsRoomy fun _ => True) := (ensures_prepareWindows_isRoomy
      soundEarly settledEarly).mono fun _ _ h => h
  refine (ensures_runWith_keeps (·.layering.IsRoomy fun _ => True) soundEarly (by decide)
    (by decide) widens fun disabled => ?_).weaken ?_
  · rw [a.rewrites.options] at disabled
    exact absurd enabled disabled
  · rintro _ widened ⟨b, roomy⟩
    refine (ensures_runAll_keeps drops (b.rewrites.sound soundEarly) roomy).weaken ?_
    rintro _ next ⟨third, roomyNext⟩
    exact ⟨(a.trans b).trans third, roomyNext⟩

variable {holds : NodeKey → Node → Prop}

theorem keeps_each (lasting : Node.Lasting holds) {pass : Pass}
    (mem : pass ∈ .markNodes :: Pass.reshaping) : Keeps folding (Program.EachNode holds) pass where
  notFirst := by
    rintro rfl
    exact absurd mem (by decide)
  notFolding := by
    rintro rfl
    exact absurd mem (by decide)
  body _ sound each := ensures_body_each lasting sound each mem

/-- Folding constants keeps what lasts, and leaves room for windows unless reserved ids are taken. -/
theorem ensures_folding (isInternal : Bool) (lasting : Node.Lasting holds) (sound : s.program.Sound)
    (each : s.program.EachNode holds) (roomy : s.program.layering.IsRoomy Layer.Filled) :
    Ensures ((Pass.only (!isInternal) .foldConstants).forM (runWith (foldConstants buildInternal)))
      s (fun _ next => next.program.Sound ∧
        next.program.options = s.program.options ∧ next.program.EachNode holds ∧
        (s.program.Attached → next.program.layering.IsRoomy Layer.Filled)) := by
  let kept : Program → Prop := fun next => next.Sound ∧
    next.options = s.program.options ∧ next.EachNode holds ∧
    (s.program.Attached → next.layering.IsRoomy Layer.Filled)
  have idle : kept s.program := ⟨sound, rfl, each, fun _ => roomy⟩
  have settles : Ensures (foldConstants buildInternal) s (fun _ next =>
      s.program.Attached → next.program.layering.IsRoomy Layer.Filled)
      s.surroundings.Excuses := by
    by_cases ht : s.program.Attached
    · exact (ensures_foldConstants_isRoomy sound ht roomy).weaken fun _ _ h _ => h
    · exact (ensures_foldConstants_buildInternal sound).weaken fun _ _ _ isAttached =>
        absurd isAttached ht
  refine ensures_only (fun next => kept next.program) (fun _ => idle) fun _ =>
    ensures_runWith_program kept ?_ fun _ => idle
  refine ((ensures_foldConstants_buildInternal sound).and
    ((ensures_foldConstants_each lasting sound each).and settles)).weaken ?_
  rintro _ next ⟨⟨soundNext, settings, env⟩, ⟨-, eachNext⟩, hs⟩
  exact ⟨⟨soundNext, env⟩, soundNext, options_of_settings settings, eachNext, hs⟩

/-- The passes up to the folding of constants settle layouts and make room for windows, unless reserved
ids are taken. They keep what lasts. -/
theorem ensures_untilFolding (lasting : Node.Lasting holds)
    (output : ∀ k n, holds k n → holds k { n with isOutput := true })
    (shaped : ∀ k n lay, holds k n → holds k (n.withLayout lay)) (wf : s.program.Consistent)
    (each : s.program.EachNode holds) (isInternal : Bool) (enabled : ∀ pass ∈ [Pass.setUp,
      .prepareWindows], s.program.options.enables pass.name) :
    Ensures ((.setUp :: (Pass.makingRoom opts ++ Pass.only (!isInternal) .foldConstants)).forM
      (runWith (foldConstants buildInternal))) s (fun _ folded => folded.program.Sound ∧
        folded.program.options = s.program.options ∧ folded.program.EachNode holds ∧
        ((∀ key node, s.program.node? key = some node → ¬ Reserved node.id) →
          folded.program.layering.IsRoomy Layer.Filled)) := by
  rw [List.forM, ensures_bind]
  refine (ensures_runWith_setUp_and (fun next => next.layering.IsSettled ∧ next.EachNode holds) wf
    (enabled .setUp (by decide)) ((ensures_setUp_isSettled wf).and
    (ensures_setUp_each wf each output shaped))).mono ?_
  rintro _ ready ⟨⟨sound, prep, -⟩, hs, eachReady⟩
  rw [ensures_forM_append]
  refine ((ensures_runAll_keeps (fun pass mem => keeps_each lasting (Pass.mem_makingRoom mem)) sound
    eachReady).and (ensures_makingRoom sound hs (by
      rw [prep.options]
      exact enabled .prepareWindows (by decide)))).weaken ?_
  rintro _ widened ⟨⟨adv, eachWidened⟩, -, roomy⟩
  refine (ensures_folding isInternal lasting (adv.rewrites.sound sound) eachWidened
    (roomy.weaken fun _ _ => trivial)).weaken ?_
  rintro _ folded ⟨soundFolded, options, eachFolded, roomyFolded⟩
  refine ⟨soundFolded, by rw [options, adv.rewrites.options, prep.options], eachFolded,
    fun unreserved => roomyFolded (adv.rewrites.attached sound (prep.attached unreserved))⟩

/-! ## Builds -/

/-- **Nodes of a finished program run in place only where the layers allowed it** before network inputs
were reordered. What is asked of nodes besides holds of them until then. -/
theorem ensures_build_justified (lasting : Node.Lasting holds)
    (output : ∀ k n, holds k n → holds k { n with isOutput := true })
    (shaped : ∀ k n lay, holds k n → holds k (n.withLayout lay))
    (unshared : ∀ k n, holds k n → n.runsInPlace = false) (wf : s.program.Consistent)
    (each : s.program.EachNode holds) (optimizes : s.program.options.noOptimizations = false)
    (enabled : ∀ pass ∈ [Pass.setUp, .prepareWindows, .cleanUp],
      s.program.options.enables pass.name) :
    Ensures build s (fun _ last => ∃ folded : Program, folded.Sound ∧ folded.EachNode holds ∧
      last.program.Justified s.program.options.optimizeData folded.layering ∧
      (∀ key, last.program.layering.SolvedAt key) ∧
      ((∀ key node, s.program.node? key = some node → ¬ Reserved node.id) →
        folded.layering.IsRoomy Layer.Filled)) := by
  simp only [build, buildWith, ensures_bind, ensures_program, Pass.pipeline_phases _ _ optimizes]
  rw [← List.append_assoc, ← List.cons_append, ensures_forM_append]
  refine (ensures_untilFolding lasting output shaped wf each _ fun pass mem => enabled pass ?_).weaken ?_
  · exact (by decide : [Pass.setUp, .prepareWindows] ⊆ [.setUp, .prepareWindows, .cleanUp]) mem
  rintro _ folded ⟨soundFolded, options, eachFolded, roomy⟩
  refine (ensures_finishing_justified soundFolded (fun k n hk => unshared k n (eachFolded k n hk))
    ?_).weaken fun _ last h => ⟨folded.program, soundFolded, eachFolded, h.1, h.2, roomy⟩
  rw [options]
  exact enabled .cleanUp (by decide)

/-- When nothing is optimized, nothing runs in place. -/
theorem ensures_build_sharesNothing (wf : s.program.Consistent) (none : s.program.SharesNothing)
    (plain : s.program.options.noOptimizations) (enabled : s.program.options.enables Pass.setUp.name) :
    Ensures build s (fun _ last => last.program.SharesNothing) := by
  have passes : Pass.pipeline s.program.options s.program.isInternal =
      .setUp :: [.markNodes, .cleanUp] := by
    simp [Pass.pipeline, Pass.setUpPhase, plain]
  simp only [build, buildWith, ensures_bind, ensures_program, passes]
  rw [List.forM, ensures_bind]
  refine (ensures_runWith_setUp_and Program.SharesNothing wf enabled (ensures_setUp_each wf none
    (fun _ _ h => h) fun _ _ _ h => h)).mono ?_
  rintro _ ready ⟨⟨sound, -⟩, noneReady⟩
  refine (ensures_runAll_keeps (fun pass mem => ?_) sound noneReady).weaken fun _ _ h => h.2
  rw [mem_cons, mem_singleton] at mem
  rcases mem with rfl | rfl
  · exact keeps_each lasting_inPlace (by decide)
  · exact ⟨by decide, by decide, fun st sound none => ensures_cleanUp_keeps Program.SharesNothing sound
      ((ensures_refreshLayouts_each sound.consistent none fun _ _ _ h => h).mono fun _ _ h => h)
      fun _ key none => none.setOutput key fun _ _ h => h⟩

end Build

/-! ## Finished programs -/

/-- Reshapes can run in place, and crops of a single batch in the format `bfyx`. -/
theorem Kind.canRunInPlace_cases {kind : Kind} {src : Option Layout}
    (fits : kind.canRunInPlace src) : (∃ shape, kind = .reshape shape) ∨
      (∃ offset features, kind = .crop offset features) ∧
        ∃ layout, src = some layout ∧ layout.format = .bfyx ∧ layout.shape.batch = 1 := by
  cases kind with
  | reshape shape => exact .inl ⟨shape, rfl⟩
  | crop offset features =>
    simp only [canRunInPlace, Option.any_eq_true, Bool.and_eq_true, beq_iff_eq] at fits
    exact .inr ⟨⟨offset, features, rfl⟩, fits⟩
  | _ => cases fits

namespace Program

open Layering
open Relation (ReflTransGen)

variable {p : Program} {key : NodeKey} {node : Node} {origin : Layering} {optimizes : Bool}
  {layouts : NodeKey → Option Layout} {inside : NodeKey → Prop}

/-- A node brings a network input of a large batch from another format to `yxfb`. -/
def IsReorderedInput (program : Program) (key : NodeKey) : Prop :=
  ∃ node input source declared, program.node? key = some node ∧ node.kind = .reorder .yxfb ∧
    program.dependencies key = [input] ∧ program.node? input = some source ∧
    source.kind = .inputLayout declared ∧ declared.format ≠ .yxfb ∧ 16 ≤ declared.shape.batch

/-- Every node that runs in place is a reshape or a crop that reads one node, there are no borders, and
a crop reads a single batch in the format `bfyx`. -/
def JustifiesInPlace (program : Program) : Prop :=
  ∀ key node, program.node? key = some node → node.runsInPlace → ∃ input source, program.dependencies key
    = [input] ∧ program.node? input = some source ∧ node.padding.isZero ∧ source.padding.isZero ∧ ((∃
    shape, node.kind = .reshape shape) ∨ (∃ offset features, node.kind = .crop offset features) ∧ ∃
    layout, source.layout = some layout ∧ layout.format = .bfyx ∧ layout.shape.batch = 1)

/-- **What runs in place reads one node, without borders.** What a crop reads was a single batch in the
format `bfyx` originally, and no reorder has been put between. -/
theorem Justified.cases (justified : p.Justified optimizes origin)
    (hk : p.node? key = some node) (inPlace : node.runsInPlace) :
    ∃ i src, p.dependencies key = [i] ∧ p.node? i = some src ∧
      node.padding.isZero ∧ src.padding.isZero ∧ ((∃ shape, node.kind = .reshape shape) ∨
        (∃ offset features, node.kind = .crop offset features) ∧
          i ∈ origin.reads key ∧ ∃ r layer cached, origin.layer? key = some r ∧
            r.kind = node.kind ∧ origin.layer? i = some layer ∧
            layer.layout = some cached ∧ cached.format = .bfyx ∧ cached.shape.batch = 1) := by
  obtain ⟨layer, was, src, hl, readsWas, foundWas, borderless, sourceBorderless, fits⟩ :=
    justified.shares key node hk inPlace
  have frame := justified.reordered.frames key layer hl
  rw [layer?_of_node? hk, map_some, some.injEq] at frame
  have sameKind : node.kind = layer.kind := congrArg Prod.fst frame
  have samePadding : node.padding = layer.padding := congrArg Prod.snd frame
  have hr := justified.reordered.reads key layer hl
  rw [readsWas] at hr
  obtain ⟨i, none, isInput, noMore, readsNow⟩ := List.forall₂_cons_left_iff.mp hr
  cases List.forall₂_nil_left_iff.mp noMore
  rw [sameKind, samePadding]
  rcases isInput with rfl | ⟨fmt, reorders⟩
  · obtain ⟨after, foundAfter, frameAfter⟩ := justified.reordered.exists_layer foundWas
    obtain ⟨now, foundNow, rfl⟩ := layer?_eq_some.mp foundAfter
    have sameBorder : now.padding = src.padding := congrArg Prod.snd frameAfter
    refine ⟨i, now, readsNow, foundNow, borderless, sameBorder ▸ sourceBorderless, ?_⟩
    refine (Kind.canRunInPlace_cases fits).imp_right fun h => ⟨h.1, ?_, layer, src, ?_⟩
    · rw [readsWas]
      exact mem_cons_self
    · obtain ⟨cached, known, isBfyx, single⟩ := h.2
      exact ⟨cached, hl, rfl, foundWas, known, isBfyx, single⟩
  · obtain ⟨after, foundAfter, frameAfter⟩ := map_eq_some_iff.mp reorders.made
    obtain ⟨now, foundNow, rfl⟩ := layer?_eq_some.mp foundAfter
    have noBorder : now.padding = {} := congrArg Prod.snd frameAfter
    refine ⟨i, now, readsNow, foundNow, borderless, noBorder ▸ rfl, ?_⟩
    refine (Kind.canRunInPlace_cases fits).imp_right fun h => ?_
    -- A single batch in the format `bfyx` is not reordered.
    obtain ⟨e, layout, foundSame, -, known, differs, preferred⟩ := reorders.wanted
    obtain ⟨cached, knownCached, isBfyx, single⟩ := h.2
    cases foundWas.symm.trans foundSame
    cases known.symm.trans knownCached
    rw [single] at preferred
    exact absurd (isBfyx.trans preferred) differs

variable {i : NodeKey}

/-- A reorder that has been put behind a network input brings it to the format that is preferred for its
declared batch. -/
theorem isReorderedInput_of_reorders {new : NodeKey} (hs : Settled Layer.Filled origin layouts
    inside) (reordered : origin.Reordered p.layering) (hi : inside i) (reorders : Reorders origin
    p.layering new i .yxfb) : p.IsReorderedInput new := by
  obtain ⟨layer, foundNew, -⟩ := map_eq_some_iff.mp reorders.made
  have kindNew := reorders.kind foundNew
  obtain ⟨node, hk, rfl⟩ := layer?_eq_some.mp foundNew
  obtain ⟨src, hd, foundSrc, kind, differs, preferred⟩ := reorders.declared hs hi
  obtain ⟨after, foundAfter, frameAfter⟩ := reordered.exists_layer foundSrc
  obtain ⟨now, foundNow, rfl⟩ := layer?_eq_some.mp foundAfter
  have sameKind : now.kind = src.kind := congrArg Prod.fst frameAfter
  refine ⟨node, i, now, hd, hk, kindNew, reorders.reads, foundNow, sameKind.trans kind, differs, ?_⟩
  rw [preferredFormat] at preferred
  split at preferred
  · next large => exact large
  · cases preferred

/-- **A crop that runs in place reads a single batch,** in the format `bfyx` or in one that comes from a
reordered network input. -/
theorem Justified.layout_of_crop (sound : p.Sound) (justified : p.Justified optimizes origin) (solved : ∀ key,
    p.layering.SolvedAt key) (hs : Settled Layer.Filled origin layouts inside) {src : Node}
    {layer r : Layer} {cached : Layout} (foundReader : origin.layer? key = some r) (crops : r.kind.tag ≠
    .inputLayout) (hr : i ∈ origin.reads key) (hk : p.node? i = some src) (hl : origin.layer?
    i = some layer) (known : layer.layout = some cached) (isBfyx : cached.format = .bfyx) : ∃ layout,
    src.layout = some layout ∧ layout.shape = cached.shape ∧ (layout.format = .bfyx ∨ layout.format =
    .yxfb ∧ ∃ reorder, ReflTransGen p.layering.TakesFormat i reorder ∧ p.IsReorderedInput reorder) := by
  have hi := hs.closed key (hs.covers key r foundReader crops) i hr
  have settledInput := hs.cached i layer hi hl fun _ unknown => by
    rw [known] at unknown
    cases unknown
  obtain ⟨shape, fmt⟩ := justified.reordered.explains hs solved
    sound.complete.isTopological i (sound.complete.mem_of_node? hk) hi
  rw [← settledInput, known, known_of_node? hk] at shape fmt
  obtain ⟨layout, isLayout, sameShape⟩ := map_eq_some_iff.mp shape.symm
  obtain ⟨full, isFull, rfl⟩ := map_eq_some_iff.mp isLayout
  refine ⟨full, isFull, sameShape, ?_⟩
  rw [isFull] at fmt
  rcases fmt with e | ⟨new, origin, fmt, path, originInside, reorders, taken⟩
  · exact .inl ((some.inj e).symm.trans isBfyx)
  · have isFormat : full.format = fmt := some.inj taken
    obtain ⟨-, layout, -, -, -, -, preferred⟩ := reorders.wanted
    rw [preferredFormat] at preferred
    split at preferred
    · subst preferred
      exact .inr ⟨isFormat, new, path, isReorderedInput_of_reorders hs justified.reordered
        originInside reorders⟩
    · exact .inl (isFormat.trans preferred.symm)

end Program

namespace Topology

open Relation (ReflTransGen)

/-! ### Crops of reordered and of replaced inputs -/

/-- A batch that a convolution reads, and a crop of all of it as a single element. -/
def flattenedBatch : Topology where
  primitives := [
    .inputLayout "x" ⟨.bfyx, ⟨16, 1, 1, 1⟩, {}⟩,
    { id := "c", kind := .convolution 1 { kernel := ⟨1, 1⟩ } none, inputs := ["x"] },
    { id := "r", kind := .reshape ⟨1, 16, 1, 1⟩, inputs := ["x"] },
    { id := "k", kind := .crop 0 (some 2), inputs := ["r"] }]
  outputs := ["c", "k"]

/-- A crop of a sum with a computed constant. A network input has the id that is reserved for the
buffer of this constant. -/
def replacedConstant : Topology where
  primitives := [
    .inputLayout "_const_prop_s" ⟨.bfyx, ⟨4, 2, 1, 1⟩, {}⟩,
    .inputLayout "x" ⟨.bfyx, ⟨1, 2, 1, 1⟩, {}⟩,
    .data "w" ⟨.bfyx, ⟨1, 2, 1, 1⟩, {}⟩,
    { id := "s", kind := .activation .abs, inputs := ["w"] },
    { id := "e", kind := .eltwise .sum, inputs := ["s", "x"] },
    { id := "k", kind := .crop 0 (some 1), inputs := ["e"] }]
  outputs := ["k"]

/-- The layout of what a crop reads that runs in place. -/
def croppedInPlace? (finished : Program) (key : NodeKey) : Option Layout := do
  let node ← finished.node? key
  guard (node.runsInPlace && node.tag == .crop)
  let input ← finished.dependency? key 0
  let source ← finished.node? input
  source.layout.map Layout.bare

variable {fin : Program} {key : NodeKey} {layout : Layout}

theorem croppedInPlace?_eq_some (seen : croppedInPlace? fin key = some layout) : ∃ node i src full,
    fin.node? key = some node ∧ node.runsInPlace ∧ node.tag = .crop ∧ fin.dependency? key 0 = some i ∧
    fin.node? i = some src ∧ src.layout = some full ∧ full.bare = layout := by
  simp only [croppedInPlace?, bind, bind_eq_some_iff, guard_eq_some',
    Bool.and_eq_true, beq_iff_eq, map_eq_some_iff] at seen
  obtain ⟨node, hk, -, ⟨inPlace, tag⟩, i, hr, src, foundSrc, full, known, bare⟩ := seen
  exact ⟨node, i, src, full, hk, inPlace, tag, hr, foundSrc, known, bare⟩

/-- A justified crop reads a single batch in the format `bfyx`. -/
theorem eq_of_justifiesInPlace (justifies : fin.JustifiesInPlace) (seen : croppedInPlace? fin key = some
    layout) : layout.format = .bfyx ∧ layout.shape.batch = 1 := by
  obtain ⟨node, i, src, full, hk, inPlace, tag, readsFirst, foundSrc, known, rfl⟩ :=
    croppedInPlace?_eq_some seen
  obtain ⟨only, e, hr, foundSame, -, -, kind⟩ := justifies key node hk inPlace
  rw [Program.dependency?, hr] at readsFirst
  cases readsFirst
  cases foundSrc.symm.trans foundSame
  rcases kind with ⟨shape, isReshape⟩ | ⟨-, layout, isLayout, fmt, single⟩
  · cases (congrArg Kind.tag isReshape).symm.trans tag
  · cases known.symm.trans isLayout
    exact ⟨fmt, single⟩

theorem exists_flattenedBatch : ∃ fin, (flattenedBatch.build {} {} 0).outcome = .ok fin ∧
    croppedInPlace? fin 3 = some ⟨.yxfb, ⟨1, 16, 1, 1⟩, {}⟩ :=
  exists_of_outcome (by decide +kernel)

/-! ### Running in place -/

/-- **Nodes that run in place** are reshapes and crops that read one node, and there are no borders.
What a crop reads is a single batch, unless layers have reserved ids. It is in the format `bfyx`, or it
is in the format `yxfb` of a reordered network input that has a large batch. -/
theorem in_place_marks_justified (topology : Topology) (options : Options)
    (surroundings : Surroundings) (number : Nat) (finished : Program)
    (enabled : ∀ pass ∈ [Pass.setUp, .prepareWindows, .cleanUp], options.enables pass.name)
    (built : (topology.build options surroundings number).outcome = .ok finished) :
    ∀ key node, finished.node? key = some node → node.runsInPlace → ∃ input source,
      finished.dependencies key = [input] ∧ finished.node? input = some source ∧
      node.padding.isZero ∧ source.padding.isZero ∧
      ((∃ shape, node.kind = .reshape shape) ∨
        (∃ offset features, node.kind = .crop offset features) ∧
          ((∀ primitive ∈ topology.primitives, ¬ primitive.id.startsWith "_const_prop_") →
            ∃ layout, source.layout = some layout ∧ layout.shape.batch = 1 ∧
              (layout.format = .bfyx ∨ layout.format = .yxfb ∧ ∃ reorder,
                ReflTransGen finished.layering.TakesFormat input reorder ∧
                  finished.IsReorderedInput reorder))) := by
  intro key node found inPlace
  have sound := sound_of_build (enabled .setUp (by decide)) built
  obtain ⟨declared, session, accepted, finishes, rfl, -⟩ := exists_of_build built
  obtain ⟨consistent, rfl⟩ := consistent_ofTopology accepted
  have declares := Program.declares_of_ofTopology accepted
  have none : declared.SharesNothing := fun key node found =>
    congrArg Node.runsInPlace (declares.marked key node found)
  cases optimizes : declared.options.noOptimizations with
  | true =>
    have builds : Ensures Build.build (.start surroundings declared number) _ fun _ => True :=
      Build.ensures_build_sharesNothing consistent none optimizes (enabled .setUp (by decide))
    rw [builds.of_ok finishes key node found] at inPlace
    cases inPlace
  | false =>
  have builds : Ensures Build.build (.start surroundings declared number) _ fun _ => True :=
    Build.ensures_build_justified Program.lasting_inPlace (fun _ _ h => h) (fun _ _ _ h => h)
      (fun _ _ h => h) consistent none optimizes enabled
  obtain ⟨folded, -, -, justified, solved, settles⟩ := builds.of_ok finishes
  obtain ⟨input, source, reads, foundSource, borderless, sourceBorderless, kind⟩ :=
    justified.cases found inPlace
  refine ⟨input, source, reads, foundSource, borderless, sourceBorderless, kind.imp_right ?_⟩
  intro crop
  obtain ⟨isCrop, read, reader, layer, cached, foundReader, sameKind, foundLayer, known, isBfyx,
    single⟩ := crop
  refine ⟨isCrop, fun unreserved => ?_⟩
  obtain ⟨layouts, inside, settled, -⟩ := settles fun _ _ => declares.unreserved unreserved
  obtain ⟨layout, isLayout, sameShape, format⟩ := justified.layout_of_crop sound solved settled
    foundReader (by
      obtain ⟨offset, features, kind⟩ := isCrop
      rw [sameKind, kind]
      exact KindTag.noConfusion) read foundSource foundLayer known isBfyx
  exact ⟨layout, isLayout, by rw [sameShape, single], format⟩

/-- The crop of the flattened batch reads something in the format of the reordered input. -/
theorem in_place_marks_justified_flattenedBatch : ∃ finished node,
    (flattenedBatch.build {} {} 0).outcome = .ok finished ∧ finished.node? 3 = some node ∧
      node.runsInPlace ∧ ∃ input source layout, finished.dependencies 3 = [input] ∧
        finished.node? input = some source ∧ source.layout = some layout ∧
        layout.shape.batch = 1 ∧ layout.format = .yxfb ∧ ∃ reorder,
          ReflTransGen finished.layering.TakesFormat input reorder ∧
            finished.IsReorderedInput reorder := by
  obtain ⟨finished, built, seen⟩ := exists_flattenedBatch
  obtain ⟨node, input, source, full, found, inPlace, tag, readsFirst, foundSource, known, bare⟩ :=
    croppedInPlace?_eq_some seen
  have isYxfb : full.format = .yxfb := congrArg Layout.format bare
  obtain ⟨only, same, reads, foundSame, -, -, kind⟩ := in_place_marks_justified flattenedBatch {} {} 0
    finished (by decide) built 3 node found inPlace
  rw [Program.dependency?, reads] at readsFirst
  cases readsFirst
  cases foundSource.symm.trans foundSame
  rcases kind with ⟨shape, isReshape⟩ | ⟨-, crop⟩
  · cases (congrArg Kind.tag isReshape).symm.trans tag
  · obtain ⟨layout, isLayout, single, format⟩ := crop (by decide)
    cases known.symm.trans isLayout
    rcases format with isBfyx | ⟨-, path⟩
    · cases isBfyx.symm.trans isYxfb
    · exact ⟨finished, node, built, found, inPlace, input, source, full, reads, foundSource, known,
        single, isYxfb, path⟩

/-- **A node can run in place without justification:** a crop of something that has got the format `yxfb`
after the decision, and one of something that has got another batch. -/
theorem not_justifiesInPlace_of_replaced_source :
    (∃ finished, (flattenedBatch.build {} {} 0).outcome = .ok finished ∧
      ¬ finished.JustifiesInPlace) ∧
    ∃ finished, (replacedConstant.build {} {} 0).outcome = .ok finished ∧
      ¬ finished.JustifiesInPlace := by
  constructor
  · obtain ⟨finished, built, seen⟩ := exists_flattenedBatch
    exact ⟨finished, built, fun justifies =>
      absurd (eq_of_justifiesInPlace justifies seen).1 (by decide)⟩
  · obtain ⟨finished, built, seen⟩ : ∃ fin, (replacedConstant.build {} {} 0).outcome = .ok fin ∧
        croppedInPlace? fin 5 = some ⟨.bfyx, ⟨4, 2, 1, 1⟩, {}⟩ := exists_of_outcome (by decide +kernel)
    exact ⟨finished, built, fun justifies =>
      absurd (eq_of_justifiesInPlace justifies seen).2 (by decide)⟩

end Topology

end LayerGraph
