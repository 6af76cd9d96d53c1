import LayerGraph.Proofs.Build.DeclarationOrder
import LayerGraph.Proofs.Build.GeneratedNames
import LayerGraph.Proofs.Layout.Reordering

/-!
# Builds that finish

When there are no cycles, no listings are written and the backend accepts everything, a pass can fail in
two ways: a word overflows, or an edit is refused. Here the refusals are excluded. They come from an id
that is taken, or from a constant part that lacks what one of its nodes reads.

* Up to the folding of constants, ids are used as they are meant (`Program.NamedBy`), and the constant part
  reads nothing else (`Program.Unfolded.selfContained`).
* Folding leaves only what the last passes need (`Program.Labelled`), since replacing a node by a buffer
  takes the id of the buffer back.
* Behind a network input there is no reorder until it gets one, and then no convolution reads the input
  any more (`Program.Reordering.unused`).

`Session.Clear` says this of a session, and each pass of a build leads from one clear session to the next.
The build of the constant part is such a build itself.
-/

namespace LayerGraph

open List Option

namespace Program

variable {p state : Program} {k : NodeKey} {n : Node} {topology : Topology}

/-! ## Reorders and buffers with generated names -/

/-- **Room for a window can be made,** unless a word overflows. -/
theorem ensures_prepareWindow_named (hs : p.Sound) (named : p.NamedBy topology)
    (apart : topology.NamesApart) (handling : Bool) (hv : p.contains k) :
    Ensures (Edit.prepareWindow handling k) p (fun _ next => next.NamedBy topology)
      Fault.IsOverflow := by
  obtain ⟨n, hk⟩ := contains_iff.mp hv
  have isSource : ∀ src : Node, src.tag = .inputLayout ∨ src.tag = .data → src.tag.isSource := by
    rintro src (tag | tag) <;> rw [tag] <;> rfl
  refine (ensures_prepareWindow_cases handling hs hk).mono ?_ ?_
  · intro _ next prep
    cases prep with
    | unknown => exact named
    | enough => exact named
    | @widened i _ pad _ _ _ needs _ widens =>
      cases widens with
      | merged => exact named.narrows (.of_alters (.modifyNode p i fun _ => rfl))
      | @inserted src mid inserted foundSrc _ tag _ ins takes =>
        have namedMiddle := named.inserts apart hs.consistent hk
          (Kind.takesWindow_of_neededBorder needs) foundSrc (isSource src tag) ins takes
        exact namedMiddle.narrows (.of_alters (.modifyNode mid inserted fun _ => rfl))
  · intro fault fails
    cases fails with
    | overflow => exact rfl
    | @taken i _ _ _ hr _ needs _ taken =>
      obtain ⟨src, foundSrc, tag, taken, -⟩ := taken
      obtain ⟨o, isNamed⟩ := isSome_iff_exists.mp taken
      obtain ⟨reorder, foundReorder, sameId⟩ := hs.consistent.keyOf?_eq_some.mp isNamed
      exact absurd sameId (named.padded_unused apart hk (Kind.takesWindow_of_neededBorder needs) hr
        foundSrc (isSource src tag) foundReorder (named.source i src foundSrc (isSource src tag)))

/-- The nodes have ids of the topology or ids of reorders for its windows, and the network inputs have
ids of network inputs or constant buffers. -/
structure Labelled (topology : Topology) (program : Program) : Prop where
  inputs : ∀ key node, program.node? key = some node → node.tag = .inputLayout →
    node.id ∈ topology.sourceIds
  ids : ∀ key node, program.node? key = some node → node.id ∈ topology.nodeIds ++ topology.paddedIds

theorem NamedBy.labelled (named : p.NamedBy topology) : p.Labelled topology where
  inputs k n hk isInput := named.source k n hk (by rw [isInput]; rfl)
  ids := named.ids

variable {q : Program} {failed : Fault → Prop}

theorem Labelled.of_primitives (labelled : p.Labelled topology) (nodes : ∀ k n, q.node? k = some n → ∃
    orig, p.node? k = some orig ∧ orig.primitive = n.primitive) : q.Labelled topology where
  inputs k n hk isInput := by
    obtain ⟨orig, foundOrig, e⟩ := nodes k n hk
    have h := labelled.inputs k orig foundOrig
    rw [Node.tag, Node.id, e] at h
    exact h isInput
  ids k n hk := by
    obtain ⟨orig, foundOrig, e⟩ := nodes k n hk
    have h := labelled.ids k orig foundOrig
    rwa [Node.id, e] at h

/-- **A node can be replaced by a constant buffer,** since the id for the buffer is not taken. -/
theorem ensures_replaceByData_labelled (hs : p.Sound) (labelled : p.Labelled topology) (apart :
    topology.NamesApart) (hv : p.contains k) : Ensures (Edit.replaceByData k) p (fun _ next =>
    next.Labelled topology) failed := by
  obtain ⟨n, hk⟩ := contains_iff.mp hv
  have fr : p.keyOf? (foldedId n.id) = none :=
    hs.consistent.keyOf?_eq_none.mpr fun o holder foundHolder sameId =>
      apart.folded n.id (labelled.ids k n hk) (sameId ▸ labelled.ids o holder foundHolder)
  refine (ensures_replaceByData_refills hs hk).mono ?_ fun _ h => by simp [fr] at h
  rintro _ next ⟨-, ⟨-, rfl⟩ | ⟨new, rep, lay, refills⟩⟩
  · exact labelled
  have folds := refills.foldsNode fr
  refine ⟨fun o m ho isInput => ?_, fun o m ho => ?_⟩
  · rcases folds.node?_cases ho with ⟨-, rfl⟩ | ⟨-, -, hb⟩
    · cases isInput
    · exact labelled.inputs o m hb isInput
  · rcases folds.node?_cases ho with ⟨-, rfl⟩ | ⟨-, -, hb⟩
    · exact labelled.ids k n hk
    · exact labelled.ids o m hb

/-! ## Reorders behind network inputs -/

theorem preferredFormat_mem (batch : UInt32) : preferredFormat batch ∈ [Format.bfyx, .yxfb] := by
  rw [preferredFormat]
  split <;> decide

/-- The id of a reorder that is needed is not taken: a reorder behind the same input would have taken
over the convolution. -/
theorem Reordering.unused {st : Program} {prim : Primitive} {r : NodeKey} (reordering : Reordering p st)
    (labelled : p.Labelled topology) (apart : topology.NamesApart) (wf : p.Consistent)
    (hv : p.contains k) (hk : st.node? k = some n) (needed : st.neededReorder? k n = some (prim, r)) :
    ¬ st.hasId prim.id := by
  obtain ⟨lay, isInput, -, isReader, -, rfl⟩ := neededReorder?_cases needed
  obtain ⟨conv, foundReader, tag, hr⟩ := convolutionReader?_eq_some isReader
  obtain ⟨orig, foundOrig⟩ := contains_iff.mp hv
  obtain ⟨same, foundSame, e⟩ := layer?_eq_some.mp
    (reordering.layers k _ (layer?_of_node? foundOrig))
  cases hk.symm.trans foundSame
  have source := labelled.inputs k orig foundOrig ((congrArg (·.kind.tag) e).symm.trans isInput)
  have preferred := preferredFormat_mem lay.shape.batch
  have sameId := reordering.id_eq foundOrig hk
  intro taken
  obtain ⟨o, isNamed⟩ := isSome_iff_exists.mp taken
  obtain ⟨holder, foundHolder, id⟩ := reordering.sound.consistent.keyOf?_eq_some.mp isNamed
  have idTaken : holder.id = reorderId orig.id (preferredFormat lay.shape.batch) := sameId ▸ id
  rcases reordering.origin o holder foundHolder with ⟨was, foundWas, idWas⟩ | ⟨i, fmt, reorders, idNow⟩
  · exact apart.reorderId_not_mem source preferred (idTaken ▸ idWas ▸ labelled.ids o was foundWas)
  · obtain ⟨src, known, foundSrc, srcTag, -, -, rfl⟩ := reorders.wanted
    obtain ⟨input, foundInput, rfl⟩ := layer?_eq_some.mp foundSrc
    rw [idOf_of_node? foundInput] at idNow
    have sameInput := apart.source_eq (labelled.inputs i input foundInput srcTag)
      (preferredFormat_mem known.shape.batch) source preferred (idNow.symm.trans idTaken)
    cases wf.key_eq_of_id_eq foundInput foundOrig sameInput
    exact reorders.tag_ne (mem_of_getElem? hr) (layer?_of_node? foundReader) tag

/-- **Inputs can be given reorders,** since the ids of the reorders are not taken. -/
theorem ensures_reorderEach_labelled (apart : topology.NamesApart) {ks : List NodeKey} (hs :
    p.Sound) (labelled : p.Labelled topology) (hv : ∀ k ∈ ks, p.contains k) : Ensures
    (Edit.reorderEach ks) p (fun _ next => next.Sound) failed := by
  refine (ensures_reorderEach_keeps (Reordering p) hs hv (.refl hs)
    fun k mem st kept alive pre => ?_).weaken fun _ _ h => h.1.sound hs
  obtain ⟨n, hk⟩ := contains_iff.mp alive
  have continues : Ensures (Edit.reorderInput k) st _ fun _ => True :=
    pre.ensures_reorderInput (hv k mem)
  refine ((ensures_reorderInput_cases kept hk).and continues).mono (fun _ _ h => h.2.1) ?_
  rintro fault ⟨prim, r, needed, taken, -⟩
  exact absurd taken (pre.unused labelled apart hs.consistent (hv k mem) hk needed)

/-! ## The constant part -/

/-- A program whose constants can be folded. -/
structure Unfolded (topology : Topology) (program : Program) : Prop where
  named : program.NamedBy topology
  /-- Computed constants read only constant nodes. -/
  regular : program.network.Regular

/-- **The constant part reads nothing else,** since constant buffers read nothing. -/
theorem Unfolded.selfContained (unfolded : p.Unfolded topology)
    (wf : p.Consistent) : p.network.SelfContained := by
  rintro id src selected ⟨c, hc, isRead⟩
  rcases selected with ⟨e, lookedSame, computed⟩ | ⟨⟨e, lookedSame, isBuffer⟩, -⟩
  · cases hc.symm.trans lookedSame
    obtain ⟨o, lookedOther⟩ := wf.has_of_reads ⟨c, hc, isRead⟩
    have isConstant := unfolded.regular id c hc computed src isRead o lookedOther
    by_cases isBuffer : o.tag = .data
    · exact .inr ⟨⟨o, lookedOther, isBuffer⟩, id, ⟨c, hc, computed⟩, c, hc, isRead⟩
    · refine .inl ⟨o, lookedOther, ?_⟩
      rw [Node.isComputedConstant, isConstant, Bool.true_and, bne_iff_ne]
      exact isBuffer
  · cases hc.symm.trans lookedSame
    obtain ⟨k, n, hk, -, rfl⟩ := wf.exists_node_of_cell? hc
    have none : (p.cellAt k n).reads = [] := by
      rw [cellAt, unfolded.named.bare k n hk isBuffer]
      rfl
    rw [none] at isRead
    cases isRead

end Program

namespace Build

open Program

variable {s : Session} {folding : Build Unit} {pass : Pass} {topology : Topology}

/-- **The passes before the folding of constants keep the names,** and fail only when a word
overflows. -/
theorem ensures_body_named (hs : s.program.Sound)
    (named : s.program.NamedBy topology) (apart : topology.NamesApart)
    (mem : pass ∈ .markNodes :: Pass.reshaping) :
    Ensures (pass.body folding) s (fun _ next => next.program.NamedBy topology)
      Fault.IsOverflow := by
  simp only [mem_cons, not_mem_nil, or_false] at mem
  rcases mem with rfl | rfl | rfl | rfl | rfl | rfl | rfl
  · simp only [Pass.body, markNodes, ensures_bind, ensures_program, ensures_edit]
    exact (ensures_markAll hs.consistent.order_live).weaken fun _ _ hm =>
      named.narrows (.of_annotated hm.annotated)
  · obtain ⟨dead, hl, -⟩ := hs.deadKeys
    simp only [Pass.body, trim, ensures_bind, ensures_program, hl, Checked.lift, ensures_pure,
      ensures_modifyProgram]
    exact named.narrows (.of_removes (removes_removeAll hs.consistent dead).1)
  · exact named.narrows (.orderBreadthFirst _)
  · simp only [Pass.body, decideOutputSizes, ensures_bind, ensures_program]
    split
    · exact named
    · rw [ensures_bind]
      refine ensures_checked (fun _ _ => named) fun cause stopped => ?_
      rw [onlyOverflows_anyAsksForOtherSize hs.consistent.order_live cause stopped]
  · refine ensures_fuseActivations_keeps (·.NamedBy topology) hs named ?_
    intro state k n fn i q kept pre _ _ _ res
    obtain ⟨_, _, bypasses⟩ := kept.bypasses res
    exact (pre.narrows (.of_bypasses bypasses)).narrows (.of_alters (.modifyNode q i fun _ => rfl))
  · exact ensures_prepareWindows_keeps (·.NamedBy topology) hs named
      fun handling state k kept hv pre =>
        ensures_prepareWindow_named kept pre apart handling hv
  · refine ensures_dropReorders_keeps (·.NamedBy topology) hs named ?_
    intro state k n q kept pre _ _ res
    obtain ⟨_, _, bypasses⟩ := kept.bypasses res
    exact pre.narrows (.of_bypasses bypasses)

end Build

/-! ## Builds that go on -/

/-- Nothing but an overflow can stop a build: there are no cycles, no listings are written, the backend
accepts everything, and the program is as it should be at this point. -/
structure Session.Clear (holds : Program → Prop) (session : Session) : Prop where
  stage : session.program.Unset ∨ session.program.Sound
  acyclic : session.program.network.Acyclic
  silent : session.program.options.dumpDirectory = none
  accepts : ∀ calls call, session.surroundings.backend.answer calls call = .ok ()
  holds : holds session.program

/-- A build starts with such a program. -/
structure Session.Fresh (topology : Topology) (session : Session) : Prop where
  consistent : session.program.Consistent
  acyclic : session.program.network.Acyclic
  silent : session.program.options.dumpDirectory = none
  accepts : ∀ calls call, session.surroundings.backend.answer calls call = .ok ()
  named : session.program.NamedBy topology
  unmarked : session.program.Unmarked
  unset : ¬ session.program.options.enables Pass.setUp.name → session.program.Unset

namespace Build

open Program

variable {s : Session} {folding : Build Unit} {pass : Pass} {topology : Topology}
  {holds later : Program → Prop}

/-- What comes after the body of a pass does not fail. -/
theorem ensures_runWith_clear
    (finishes : Ensures (pass.body folding) s (fun _ next => next.Clear holds) Fault.IsOverflow)
    (skipped : ¬ s.program.options.enables pass.name → s.Clear holds) :
    Ensures (runWith folding pass) s (fun _ next => next.Clear holds) Fault.IsOverflow := by
  simp only [runWith, ensures_bind, ensures_program]
  split
  · rw [ensures_bind]
    refine finishes.weaken ?_
    intro _ next clear
    have placed : next.program.firstMisplaced? = none :=
      clear.stage.elim (·.firstMisplaced?) (·.complete.firstMisplaced?)
    simp only [ensures_bind, ensures_modify, checkOrder, ensures_program, placed, ensures_pure]
    have quiet : ({ next with runs := next.runs + 1 } : Session).program.options.dumpDirectory = none :=
      clear.silent
    refine (ensures_writeDump_silent quiet pass).weaken ?_
    rintro _ _ rfl
    exact ⟨clear.stage, clear.acyclic, clear.silent, clear.accepts, clear.holds⟩
  · next disabled =>
    have clear := skipped disabled
    exact ⟨clear.stage, clear.acyclic, clear.silent, clear.accepts, clear.holds⟩

/-- **A pass fails only when a word overflows,** if this holds of what it does to a program that has been
set up. -/
theorem ensures_pass_clear (clear : s.Clear holds) (notFirst : pass ≠ .setUp)
    (notFolding : pass ≠ .foldConstants) (idle : holds s.program → later s.program)
    (regroups : later s.program → later s.program.orderBreadthFirst)
    (body : s.program.Sound → Ensures (pass.body folding) s
      (fun _ next => later next.program) Fault.IsOverflow) :
    Ensures (runWith folding pass) s (fun _ next => next.Clear later) Fault.IsOverflow := by
  refine ensures_runWith_clear ?_ fun _ => { clear with holds := idle clear.holds }
  rcases clear.stage with unset | hs
  · by_cases ordering : pass = .orderBreadthFirst
    · subst ordering
      have hs := unset.consistent.sound_orderBreadthFirst unset.unordered clear.acyclic
      exact ⟨.inr hs, hs.acyclic, clear.silent, clear.accepts, regroups (idle clear.holds)⟩
    · refine (ensures_body_unset unset notFirst ordering notFolding).weaken ?_
      rintro _ _ rfl
      exact ⟨clear.stage, clear.acyclic, clear.silent, clear.accepts, idle clear.holds⟩
  · refine ((body hs).and (ensures_body hs folding notFirst notFolding)).weaken ?_
    rintro _ next ⟨h, adv⟩
    have soundNext := adv.rewrites.sound hs
    refine ⟨.inr soundNext, soundNext.acyclic, ?_, ?_, h⟩
    · rw [adv.rewrites.options]
      exact clear.silent
    · rw [adv.surroundings]
      exact clear.accepts

/-- Passes that go on one after the other. -/
theorem ensures_passes_clear {passes : List Pass} (clear : s.Clear holds)
    (regroups : ∀ p : Program, holds p → holds p.orderBreadthFirst)
    (each : ∀ pass ∈ passes, pass ≠ .setUp ∧ pass ≠ .foldConstants ∧
      ∀ state : Session, state.Clear holds → state.program.Sound → Ensures (pass.body folding) state
        (fun _ next => holds next.program) Fault.IsOverflow) :
    Ensures (passes.forM (runWith folding)) s (fun _ next => next.Clear holds)
      Fault.IsOverflow := by
  refine ensures_forM_mem (Session.Clear holds) (fun pass mem state clearHere => ?_) clear
  obtain ⟨notFirst, notFolding, body⟩ := each pass mem
  exact ensures_pass_clear clearHere notFirst notFolding id (regroups _) (body state clearHere)

/-! ## The passes of a build -/

theorem ensures_compileNodes_accepted (ks : List NodeKey)
    (accepts : ∀ calls call, s.surroundings.backend.answer calls call = .ok ())
    {failed : Fault → Prop} :
    Ensures (ks.forM compileNode) s (fun _ next => next.program = s.program) failed := by
  refine (ensures_forM_mem (fun state => state.program = s.program ∧ state.surroundings = s.surroundings)
    (fun k _ state kept => ?_) ⟨rfl, rfl⟩).weaken fun _ _ kept => kept.1
  obtain ⟨e, env⟩ := kept
  simp only [compileNode, ensures_bind, ensures_program]
  refine ensures_call _ ⟨e, env⟩ fun fault answer => ?_
  rw [env, accepts] at answer
  cases answer

theorem ensures_refreshLayouts_overflow {p : Program} (wf : p.Consistent) :
    Ensures Edit.refreshLayouts p (fun _ _ => True) Fault.IsOverflow :=
  (ensures_refreshLayouts_keeps (fun _ => True) wf trivial fun _ _ _ _ => trivial).weaken
    fun _ _ _ => trivial

/-- The passes that hand nodes over and mark what runs in place keep the labels. -/
theorem ensures_body_labelled (clear : s.Clear (Labelled topology))
    (mem : pass ∈ [Pass.shareBuffers, .compileNodes]) :
    Ensures (pass.body folding) s (fun _ next => next.program.Labelled topology)
      Fault.IsOverflow := by
  simp only [mem_cons, not_mem_nil, or_false] at mem
  rcases mem with rfl | rfl
  · simp only [Pass.body, shareBuffers, ensures_modifyProgram]
    have hm := (marked_foldl_shareBuffer s.program.order.toList s.program).annotated
    exact clear.holds.of_primitives (Narrows.of_annotated hm).nodes
  · simp only [Pass.body, compileNodes, ensures_bind, ensures_program]
    refine (ensures_compileNodes_accepted _ clear.accepts).weaken ?_
    intro _ next e
    rw [e]
    exact clear.holds

theorem ensures_reorderInputs_labelled (clear : s.Clear (Labelled topology))
    (apart : topology.NamesApart) (hs : s.program.Sound) :
    Ensures reorderInputs s (fun _ _ => True) Fault.IsOverflow := by
  simp only [reorderInputs, ensures_bind, ensures_program, ensures_edit]
  refine (ensures_reorderEach_labelled apart hs clear.holds hs.consistent.inputs_live).weaken ?_
  intro ins mid soundMiddle
  split
  · trivial
  · rw [ensures_bind, ensures_edit]
    refine (ensures_refreshLayouts_overflow soundMiddle.consistent).weaken ?_
    intro _ refreshed _
    refine (ensures_compileNodes_accepted ins ?_).weaken fun _ _ _ => trivial
    exact clear.accepts

/-- The last passes need nothing but a sound program. -/
theorem ensures_body_last (hs : s.program.Sound) (mem : pass ∈ [Pass.computeConflicts, .cleanUp]) :
    Ensures (pass.body folding) s (fun _ _ => True) Fault.IsOverflow := by
  simp only [mem_cons, not_mem_nil, or_false] at mem
  rcases mem with rfl | rfl
  · simp only [Pass.body, computeConflicts, ensures_bind, ensures_program, ensures_edit]
    exact (Program.ensures_computeConflicts hs.consistent _).weaken fun _ _ _ => trivial
  · exact ensures_cleanUp_keeps (fun _ => True) hs
      (ensures_refreshLayouts_overflow hs.consistent) fun _ _ _ => trivial

/-- **The constant part can be folded,** unless a word overflows in its build. -/
theorem ensures_foldConstants_clear {buildInner : Build Unit}
    (clear : s.Clear (Unfolded topology)) (apart : topology.NamesApart)
    (built : s.program.Sound → ∀ cp, copiedConstants s = .ok cp →
      Ensures buildInner (constantSession s cp) (fun _ _ => True) Fault.IsOverflow) :
    Ensures (foldConstants buildInner) s (fun _ next => next.Clear (Labelled topology))
      Fault.IsOverflow := by
  have idle : s.Clear (Labelled topology) := { clear with holds := clear.holds.named.labelled }
  rcases clear.stage with unset | hs
  · refine (ensures_foldConstants_unset unset).weaken ?_
    rintro _ _ rfl
    exact idle
  have wf := hs.consistent
  refine ensures_foldConstants_cases (fun _ => True) hs idle ?_ (built hs) ?_ fun fin _ => ?_
  · intro error refused
    obtain ⟨cp, made⟩ := (hs.exists_ofNodes_iff s.nextProgram
      s.program.options.forConstants).mpr (clear.holds.selfContained wf)
    cases made.symm.trans refused
  · intro calls call fault answer
    rw [clear.accepts] at answer
    cases answer
  · refine (ensures_replaceAllByData (fun state => state.Labelled topology ∧ state.settings =
      s.program.settings) (fun k state kept hv holds => ?_) hs ⟨clear.holds.named.labelled, rfl⟩
      wf.boundaryConstants_nodup wf.boundaryConstants_live).weaken ?_
    · refine ((ensures_replaceByData_labelled kept holds.1 apart hv).and
        (ensures_replaceByData kept hv)).weaken ?_
      rintro _ next ⟨labelled, -, settings, -⟩
      exact ⟨labelled, settings.trans holds.2⟩
    · rintro _ replaced ⟨kept, labelled, settings⟩
      refine ⟨kept, fun pruned last prep _ => ⟨.inr last, last.acyclic, ?_, clear.accepts, ?_⟩⟩
      · have opts : pruned.options = s.program.options :=
          options_of_settings (prep.settings.trans settings)
        exact opts ▸ clear.silent
      · exact labelled.of_primitives (Narrows.of_prepares prep).nodes

/-- Setting up fails only when a word overflows, and where it is disabled nothing is derived. -/
theorem ensures_setUp_clear (fr : s.Fresh topology) :
    Ensures (runWith folding .setUp) s (fun _ next => next.Clear (Unfolded topology))
      Fault.IsOverflow := by
  have wf := fr.consistent
  refine ensures_runWith_clear ?_ fun disabled => ⟨.inl (fr.unset disabled), fr.acyclic,
    fr.silent, fr.accepts, fr.named, fr.unmarked.regular wf⟩
  refine ((ensures_setUp_unmarked wf fr.unmarked).and (ensures_setUp wf)).mono ?_ ?_
  · rintro _ next ⟨unmarkedNext, hs, prep, continues⟩
    refine ⟨.inr hs, hs.acyclic, ?_, ?_, fr.named.narrows (.of_prepares prep),
      unmarkedNext.regular hs.consistent⟩
    · rw [prep.options]
      exact fr.silent
    · rw [continues.surroundings]
      exact fr.accepts
  · exact fun fault h => h.resolve_right fun cyclic => cyclic fr.acyclic

end Build

/-- The passes after the folding of constants, cut where inputs are reordered. -/
theorem Pass.afterFolding_cut (opts : Options) : ∃ a reorders last,
    afterFolding opts = a ++ (only reorders reorderInputs ++ last) ∧
      (∀ pass ∈ a, pass ∈ [shareBuffers, compileNodes]) ∧
      ∀ pass ∈ last, pass ∈ [computeConflicts, cleanUp] := by
  rw [afterFolding]
  split
  · exact ⟨[], false, [cleanUp], rfl, by simp, by simp⟩
  · refine ⟨_, opts.optimizeData, _, rfl, fun pass mem => ?_, fun pass mem => ?_⟩
    · simp only [mem_append, mem_only, mem_cons, not_mem_nil, or_false] at mem ⊢
      tauto
    · simp only [mem_append, mem_only, mem_cons, not_mem_nil, or_false] at mem ⊢
      tauto

namespace Build

open Program

variable {s : Session} {folding : Build Unit} {topology : Topology}

theorem ensures_beforeFolding_clear (clear : s.Clear (Unfolded topology))
    (apart : topology.NamesApart) (opts : Options) :
    Ensures ((Pass.beforeFolding opts).forM (runWith folding)) s
      (fun _ next => next.Clear (Unfolded topology)) Fault.IsOverflow := by
  refine ensures_passes_clear clear (fun _ h => ?_) fun pass mem => ?_
  · exact ⟨h.named.narrows (.orderBreadthFirst _), h.regular⟩
  · have mem := Pass.mem_beforeFolding mem
    refine ⟨ne_of_mem_of_not_mem mem (by decide), ne_of_mem_of_not_mem mem (by decide), ?_⟩
    intro state clear hs
    exact ((ensures_body_named hs clear.holds.named apart mem).and
      (ensures_body_regular hs clear.holds.regular mem)).weaken fun _ _ h =>
        ⟨h.1, h.2⟩

/-- The labels are needed until the inputs have been reordered. -/
theorem ensures_afterFolding_clear (clear : s.Clear (Labelled topology))
    (apart : topology.NamesApart) (opts : Options) :
    Ensures ((Pass.afterFolding opts).forM (runWith folding)) s (fun _ _ => True)
      Fault.IsOverflow := by
  obtain ⟨a, reorders, last, cut, memFirst, memLast⟩ := Pass.afterFolding_cut opts
  rw [cut, ensures_forM_append]
  refine (ensures_passes_clear clear (fun _ h => ?_) fun pass mem => ?_).weaken ?_
  · exact h.of_primitives fun _ n hk => ⟨n, hk, rfl⟩
  · have mem := memFirst pass mem
    exact ⟨ne_of_mem_of_not_mem mem (by decide), ne_of_mem_of_not_mem mem (by decide),
      fun state clear _ => ensures_body_labelled clear mem⟩
  intro _ compiled clear
  rw [ensures_forM_append]
  refine (ensures_only (Session.Clear fun _ => True) (fun _ => { clear with holds := trivial })
    fun _ => ?_).weaken fun _ reordered clear => ?_
  · exact ensures_pass_clear clear (by decide) (by decide) (fun _ => trivial) (fun _ => trivial)
      (ensures_reorderInputs_labelled clear apart)
  refine (ensures_passes_clear clear (fun _ _ => trivial) fun pass mem => ?_).weaken fun _ _ _ => trivial
  have mem := memLast pass mem
  exact ⟨ne_of_mem_of_not_mem mem (by decide), ne_of_mem_of_not_mem mem (by decide),
    fun state _ hs => ensures_body_last hs mem⟩

/-- **A build fails only when a word overflows,** if this holds of the folding of constants. -/
theorem ensures_buildWith_clear (fr : s.Fresh topology) (apart : topology.NamesApart)
    (folds : ∀ state : Session, state.Clear (Unfolded topology) →
      Ensures folding state (fun _ next => next.Clear (Labelled topology)) Fault.IsOverflow) :
    Ensures (buildWith folding) s (fun _ _ => True) Fault.IsOverflow := by
  simp only [buildWith, ensures_bind, ensures_program, Pass.pipeline_cut]
  rw [List.forM, ensures_bind]
  refine (ensures_setUp_clear fr).weaken ?_
  intro _ ready clear
  rw [ensures_forM_append]
  refine (ensures_beforeFolding_clear clear apart _).weaken ?_
  intro _ early clear
  have idle : early.Clear (Labelled topology) := { clear with holds := clear.holds.named.labelled }
  rw [ensures_forM_append]
  refine (ensures_only (Session.Clear (Labelled topology)) (fun _ => idle) fun _ => ?_).weaken
    fun _ _ clear => ensures_afterFolding_clear clear apart _
  exact ensures_runWith_clear (folds early clear) fun _ => idle

end Build

/-! ## The build of the constant part -/

variable {net : Network}

open scoped Classical in
theorem Network.exists_of_constants {id : String} {c : Cell} (hc : net.constants.cell? id = some c) : ∃
    orig, net.cell? id = some orig ∧ c = orig.copied (decide (net.Boundary id)) := by
  rw [constants] at hc
  dsimp only at hc
  split at hc
  · obtain ⟨orig, hk, e⟩ := map_eq_some_iff.mp hc
    exact ⟨orig, hk, e.symm⟩
  · cases hc

/-- A constant part of a network without cycles has none. -/
theorem Network.Acyclic.constants (acyclic : net.Acyclic) : net.constants.Acyclic := by
  intro id path
  refine acyclic id (Relation.TransGen.mono (fun r src hr => ?_) _ _ path)
  obtain ⟨c, hc, isRead⟩ := hr
  obtain ⟨orig, hk, rfl⟩ := exists_of_constants hc
  exact ⟨orig, hk, isRead⟩

namespace Build

open Program

variable {s : Session} {topology : Topology}

theorem isComputedConstant_copied (n : Node) : n.copied.isComputedConstant = false :=
  Bool.and_not_self _

/-- **The constant part can be built,** unless a word overflows. -/
theorem ensures_buildInternal_clear (clear : s.Clear (Unfolded topology))
    (apart : topology.NamesApart) (hs : s.program.Sound) {cp : Program}
    (made : copiedConstants s = .ok cp) :
    Ensures buildInternal (constantSession s cp) (fun _ _ => True) Fault.IsOverflow := by
  have isInner := isInner_constantSession hs.consistent made
  have network : (constantSession s cp).program.network =
    s.program.network.constants := hs.network_constants made
  have isCopy := isCopy_ofNodes hs.consistent hs.consistent.selectedConstants_nodup made
  have prep := (s.program.prepares_exposeBoundary s.program.boundaryConstants isCopy.consistent).2
  refine ensures_buildWith_clear ⟨isInner.consistent, ?_, ?_, ?_, ?_, ?_, ?_⟩ apart ?_
  · rw [network]
    exact hs.acyclic.constants
  · rw [isInner.options]
    rfl
  · rw [isInner.surroundings]
    exact clear.accepts
  · exact (clear.holds.named.copied isCopy).narrows (.of_prepares prep)
  · intro k n hk
    have hc := isInner.consistent.cell?_of_node? hk
    rw [network] at hc
    obtain ⟨orig, -, e⟩ := Network.exists_of_constants hc
    have computed := congrArg (fun c : Cell => c.toNode.isComputedConstant) e
    exact computed.trans (isComputedConstant_copied orig.toNode)
  · intro disabled
    rw [isInner.options] at disabled
    exact absurd rfl disabled
  · intro state clear
    exact { clear with holds := clear.holds.named.labelled }

end Build

namespace Topology

/-- A topology whose layers read only what is declared before them, when its edges have been evaluated. -/
theorem exists_acyclic_of_ascending {topology : Topology}
    (evaluates : (Program.ofTopology 0 topology {} false).map
      (·.edges.all fun edge => edge.source < edge.target) = .ok true) :
    ∃ p, Program.ofTopology 0 topology {} false = .ok p ∧ Acyclic p.dependencies := by
  cases accepted : Program.ofTopology 0 topology {} false with
  | error error =>
    rw [accepted] at evaluates
    cases evaluates
  | ok p =>
    rw [accepted] at evaluates
    have ascending := List.all_eq_true.mp (Except.ok.inj evaluates)
    refine ⟨p, rfl, fun k path => Nat.lt_irrefl k (lt_of_transGen (fun _ _ hr => ?_) path)⟩
    obtain ⟨edge, mem, rfl, rfl⟩ := Program.mem_dependencies.mp hr
    exact of_decide_eq_true (ascending edge mem)

/-- **Every topology without cycles builds,** unless a word overflows, when the backend accepts everything
and no listings are written. The ids that the build generates must not be taken, and no constant buffer
may be declared to read something. -/
theorem acyclic_topologies_build (topology : Topology) (options : Options) (surroundings : Surroundings)
    (number : Nat) (program : Program)
    (accepted : Program.ofTopology number topology options false = .ok program)
    (acyclic : Acyclic program.dependencies) (apart : topology.NamesApart)
    (buffers : ∀ primitive ∈ topology.primitives, primitive.tag = .data → primitive.inputs = [])
    (silent : options.dumpDirectory = none)
    (accepts : ∀ calls call, surroundings.backend.answer calls call = .ok ()) :
    (∃ finished, (topology.build options surroundings number).outcome = .ok finished) ∨
      (topology.build options surroundings number).outcome = .error (.aborted .overflow) := by
  obtain ⟨consistent, sameOptions⟩ := consistent_ofTopology accepted
  obtain ⟨-, -, -, unordered, -⟩ := Program.settings_of_ofTopology accepted
  have declares := Program.declares_of_ofTopology accepted
  have folds : ∀ state : Session, state.Clear (Program.Unfolded topology) →
      Ensures (Build.foldConstants Build.buildInternal) state
        (fun _ next => next.Clear (Program.Labelled topology))
        Fault.IsOverflow := fun state clear =>
    Build.ensures_foldConstants_clear clear apart fun sound _ made =>
      Build.ensures_buildInternal_clear clear apart sound made
  have builds : Ensures Build.build (.start surroundings program number) _ _ :=
    Build.ensures_buildWith_clear ⟨consistent, consistent.acyclic_iff.mpr acyclic, sameOptions ▸ silent,
      accepts, .of_declares declares consistent apart buffers, declares.unmarked,
      fun _ => declares.unset consistent unordered⟩ apart folds
  rw [build, accepted]
  rw [Session.start, Ensures] at builds
  dsimp only at builds ⊢
  split
  · exact .inl ⟨_, rfl⟩
  · next fault session failed =>
    rw [failed] at builds
    exact .inr (congrArg Except.error builds)

/-- An image with two convolutions, one of them with a border and one with weights that are folded. -/
def convolvedTwice : Topology where
  primitives := [
    .inputLayout "x" ⟨.bfyx, ⟨16, 1, 2, 2⟩, {}⟩,
    .data "w" ⟨.bfyx, ⟨1, 1, 1, 1⟩, {}⟩,
    { id := "s", kind := .activation .abs, inputs := ["w"] },
    { id := "c", kind := .convolution 1 ⟨⟨1, 1⟩, ⟨1, 1⟩, ⟨1, 1⟩, ⟨0, 0⟩⟩ none, inputs := ["x", "s"] },
    { id := "b", kind := .convolution 1 ⟨⟨3, 3⟩, ⟨1, 1⟩, ⟨1, 1⟩, ⟨-1, -1⟩⟩ none, inputs := ["x"] }]

theorem acyclic_topologies_build_convolvedTwice : ∃ program,
    Program.ofTopology 0 convolvedTwice {} false = .ok program ∧ Acyclic program.dependencies ∧
      convolvedTwice.NamesApart ∧
      ((∃ finished, (convolvedTwice.build {} {} 0).outcome = .ok finished) ∨
        (convolvedTwice.build {} {} 0).outcome = .error (.aborted .overflow)) := by
  have ascending : (Program.ofTopology 0 convolvedTwice {} false).map
      (·.edges.all fun edge => edge.source < edge.target) = .ok true := by cbv
  obtain ⟨program, accepted, acyclic⟩ := exists_acyclic_of_ascending ascending
  have apart : convolvedTwice.NamesApart := ⟨by decide, by decide⟩
  exact ⟨program, accepted, acyclic, apart,
    acyclic_topologies_build convolvedTwice {} {} 0 program accepted acyclic apart (by decide) rfl
      fun _ _ => rfl⟩

/-- A constant buffer that is declared to read another one, and a layer that is computed from it. -/
def bufferOfBuffer : Topology where
  primitives := [
    .data "d" ⟨.bfyx, ⟨1, 1, 1, 1⟩, {}⟩,
    { Primitive.data "e" ⟨.bfyx, ⟨1, 1, 1, 1⟩, {}⟩ with inputs := ["d"] },
    { id := "s", kind := .softmax, inputs := ["e"] }]

/-- A layer with the id of the reorder that brings the image into the format of the convolution. -/
def takenId : Topology where
  primitives := [
    .inputLayout "x" ⟨.bfyx, ⟨16, 1, 1, 1⟩, {}⟩,
    { id := "x_reorder_yxfb", kind := .softmax, inputs := ["x"] },
    { id := "c", kind := .convolution 1 ⟨⟨1, 1⟩, ⟨1, 1⟩, ⟨1, 1⟩, ⟨0, 0⟩⟩ none, inputs := ["x"] }]

/-- The constant part of the first topology lacks the buffer that the other one reads. In the second one
the reorder of the image cannot be named. -/
theorem acyclic_topologies_refused :
    (∃ program, Program.ofTopology 0 bufferOfBuffer {} false = .ok program ∧
        Acyclic program.dependencies) ∧
      (bufferOfBuffer.build {} {} 0).outcome = .error (.refused (.unresolvedDependency "e" "d")) ∧
      (∃ program, Program.ofTopology 0 takenId {} false = .ok program ∧
        Acyclic program.dependencies) ∧
      (takenId.build {} {} 0).outcome = .error (.refused (.duplicateId "x_reorder_yxfb")) :=
  ⟨exists_acyclic_of_ascending (by cbv), by cbv, exists_acyclic_of_ascending (by cbv), by cbv⟩

end Topology

end LayerGraph
