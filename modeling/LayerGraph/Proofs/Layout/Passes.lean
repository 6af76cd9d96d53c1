import LayerGraph.Proofs.Layout.Steps

/-!
# Passes and layouts

Setting a program up settles its layouts, and all passes up to the one that makes room for windows keep
them settled. From then on what windows read has room (`Build.ensures_prepareWindows_isRoomy`). Folding
constants costs constant buffers their borders and their cached layouts; this takes no room from a window
that reads anything else (`Build.ensures_foldConstants_isRoomy`).
-/

namespace LayerGraph

namespace Program

open Layering

variable {p q : Program} {k : NodeKey} {n : Node}

theorem settled_of_solved {counts : Layer → Prop} (wf : p.Consistent)
    (solved : ∀ k, p.layering.SolvedAt k) : Settled counts p.layering p.layering.known
      fun k => ∃ layer, p.layering.layer? k = some layer := by
  refine .of_solved (fun k dep hr => ?_) solved
  obtain ⟨n, hk⟩ := contains_iff.mp (wf.reads_live k dep hr).1
  exact ⟨_, layer?_of_node? hk⟩

end Program

namespace Build

open Program Layering

variable {s : Session}

/-- Setting a program up leaves layouts that follow from each other. -/
theorem ensures_setUp_solved (wf : s.program.Consistent) :
    Ensures setUp s (fun _ next => next.program.Consistent ∧
      ∀ k, next.program.layering.SolvedAt k) Fault.SparesProgram := by
  refine ensures_setUp_of wf fun mid hs _ _ => ?_
  rw [ensures_edit]
  refine (ensures_refreshLayouts_solved hs).weaken ?_
  rintro _ q ⟨ann, -, solved⟩
  exact ⟨hs.consistent.annotated ann, solved⟩

/-- Setting a program up settles its layouts. -/
theorem ensures_setUp_isSettled (wf : s.program.Consistent) :
    Ensures setUp s (fun _ next => next.program.layering.IsSettled) Fault.SparesProgram :=
  (ensures_setUp_solved wf).weaken fun _ _ h => ⟨_, _, settled_of_solved h.1 h.2⟩

section

variable (hs : s.program.Sound)

include hs

/-- Passes that derive marks, regroup the order or call the backend do not matter for layouts. -/
theorem ensures_body_layering (folding : Build Unit) {pass : Pass}
    (marks : pass ∈ [.markNodes, .orderBreadthFirst, .decideOutputSizes, .shareBuffers,
      .compileNodes, .computeConflicts]) : Ensures (pass.body folding) s
      (fun _ next => next.program.layering = s.program.layering) := by
  simp only [List.mem_cons, List.not_mem_nil, or_false] at marks
  rcases marks with rfl | rfl | rfl | rfl | rfl | rfl
  · simp only [Pass.body, markNodes, ensures_bind, ensures_program, ensures_edit]
    exact (ensures_markAll hs.consistent.order_live).weaken fun _ _ hm =>
      layering_of_marked hm
  · exact rfl
  · exact (ensures_decideOutputSizes hs).mono fun _ next h => congrArg layering h.1
  · rw [Pass.body, shareBuffers, ensures_modifyProgram]
    exact layering_of_marked (marked_foldl_shareBuffer _ _)
  · simp only [Pass.body, compileNodes, ensures_bind, ensures_program]
    exact (ensures_compileNodes _).mono fun _ next h => congrArg layering h.1
  · simp only [Pass.body, computeConflicts, ensures_bind, ensures_program, ensures_edit]
    exact (Program.ensures_computeConflicts hs.consistent _).weaken fun _ _ hm =>
      layering_of_marked hm

variable {failed : Fault → Prop}

theorem ensures_trim_isSettled (settled : s.program.layering.IsSettled) : Ensures trim s (fun _ next =>
    next.program.layering.IsSettled) failed := by
  obtain ⟨dead, hk, -⟩ := hs.deadKeys
  simp only [trim, ensures_bind, ensures_program, hk, Checked.lift, ensures_pure, ensures_modifyProgram]
  exact hs.isSettled_trimmed hk settled

theorem ensures_fuseActivations_isSettled (settled : s.program.layering.IsSettled) : Ensures
    fuseActivations s (fun _ next => next.program.layering.IsSettled) failed := by
  refine ensures_fuseActivations_keeps (·.layering.IsSettled) hs settled ?_
  intro st k n fn i q kept pre hk kind tgt res
  obtain ⟨into, fuses⟩ := kept.fuses hk kind tgt res
  exact fuses.isSettled pre

/-- **After room has been made, everything that windows read has room for them.** -/
theorem ensures_prepareWindows_isRoomy (settled : s.program.layering.IsSettled) :
    Ensures prepareWindows s
      (fun _ next => next.program.layering.IsRoomy fun _ => True) Fault.SparesProgram := by
  have settles : Ensures prepareWindows s (fun _ next => next.program.layering.IsSettled) := by
    refine ensures_prepareWindows_keeps (·.layering.IsSettled) hs settled
      fun handling st k kept hv pre => ?_
    obtain ⟨n, hk⟩ := contains_iff.mp hv
    exact (ensures_prepareWindow_cases handling kept hk).mono fun _ _ prep => prep.isSettled hk pre
  refine ((ensures_prepareWindows_prepared hs).and settles).weaken ?_
  rintro _ next ⟨⟨-, prepared⟩, lays, inside, settled⟩
  exact ⟨lays, inside, settled, fits_of_hasRoomAt settled fun k hv =>
    prepared.room k hv List.not_mem_nil⟩

theorem ensures_dropReorders_isRoomy (roomy : s.program.layering.IsRoomy fun _ => True) : Ensures
    dropReorders s (fun _ next => next.program.layering.IsRoomy fun _ => True) failed := by
  refine ensures_dropReorders_keeps (·.layering.IsRoomy fun _ => True) hs roomy ?_
  intro st k n q kept pre hk redundant res
  obtain ⟨e, i, bypasses⟩ := kept.bypasses res
  cases hk.symm.trans bypasses.found
  exact bypasses.isRoomy redundant pre

end

/-- Folding constants leaves room for windows. -/
theorem ensures_foldConstants_isRoomy (hs : s.program.Sound) (ht : s.program.Attached)
    (roomy : s.program.layering.IsRoomy Layer.Filled) : Ensures (foldConstants buildInternal) s
      (fun _ next => next.program.layering.IsRoomy Layer.Filled) s.surroundings.Excuses := by
  refine ensures_foldConstants_of (fun _ => True) hs roomy (fun cp res => ?_) fun fin _ => ?_
  · exact (ensures_buildInternal (isInner_constantSession hs.consistent res)).weaken
      fun _ _ _ => trivial
  · refine (ensures_replaceBoundary (fun _ => True) (·.layering.IsRoomy Layer.Filled) hs ht
      (fun _ _ => trivial) roomy ?_).weaken ?_
    · exact fun k new n lay st next sound tag roomy _ folds => folds.isRoomy sound.consistent tag roomy
    · rintro _ replaced ⟨soundReplaced, -, roomy⟩
      exact ⟨soundReplaced, fun pruned soundPruned prep nodes =>
        isRoomy_pruned soundPruned.consistent nodes prep.reads roomy⟩

end Build

end LayerGraph
