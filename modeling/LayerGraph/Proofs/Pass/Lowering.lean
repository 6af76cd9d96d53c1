import LayerGraph.Pass.Lowering
import LayerGraph.Proofs.Memory.Conflicts
import LayerGraph.Proofs.Pass.Formats

/-!
# The end of a build

Handing nodes to the backend leaves the program as it is, memory dependencies are marks, and
in a debug build the nodes are made outputs. All of this rewrites a sound program.
-/

namespace LayerGraph

namespace Program

variable {p q : Program} {k : NodeKey}

theorem Consistent.exists_conflictingPairs (wf : p.Consistent) (strat : MemoryStrategy) :
    ∃ pairs, p.clearConflicts.conflictingPairs strat = .ok pairs := by
  have cleared := (noted_clearConflicts p).annotated
  exact ⟨_, conflictingPairs_eq_ownBuffers (wf.annotated cleared).order_live strat⟩

variable {failed : Fault → Prop}

/-- Memory dependencies are marks, whatever the strategy. -/
theorem ensures_computeConflicts (wf : p.Consistent) (strat : MemoryStrategy) : Ensures
    (Edit.computeConflicts strat) p (fun _ q => Marked p q) failed := by
  obtain ⟨pairs, hk⟩ := wf.exists_conflictingPairs strat
  rw [Ensures, computeConflicts_eq strat hk]
  exact (noted_noteConflicts p pairs).marked

/-- Making nodes outputs keeps what making one of them an output keeps. -/
theorem ensures_exposeAll_keeps (holds : Program → Prop) {ks : List NodeKey} (hv : ∀ k ∈ ks,
    p.contains k) (start : holds p) (round : ∀ st k, holds st → holds (st.setOutput k true)) : Ensures
    (ks.forM Edit.expose) p (fun _ next => holds next) failed := by
  refine (ensures_forM_mem (fun st => holds st ∧ ∀ o, p.contains o → st.contains o) (fun k hl st kept =>
    ?_) ⟨start, fun _ h => h⟩).weaken fun _ _ kept => kept.1
  obtain ⟨pre, alive⟩ := kept
  obtain ⟨n, hk⟩ := contains_iff.mp (alive k (hv k hl))
  simp only [Edit.expose, ensures_bind, ensures_nodeAt hk]
  split
  · exact ⟨pre, alive⟩
  · exact ⟨round st k pre, fun o h =>
      (st.contains_setOutput k o true).mpr (alive o h)⟩

end Program

namespace Build

open Program

variable {s : Session}

theorem ensures_computeConflicts (hs : s.program.Sound) :
    Ensures computeConflicts s (fun _ next => s.Advances next) s.surroundings.Excuses := by
  simp only [computeConflicts, ensures_bind, ensures_program]
  exact ensures_edit_advances ((Program.ensures_computeConflicts hs.consistent _).weaken
    fun _ _ hm => .single (.annotated hm.annotated))

theorem ensures_cleanUp (hs : s.program.Sound) :
    Ensures cleanUp s (fun _ next => s.Advances next) s.surroundings.Excuses := by
  simp only [cleanUp, ensures_bind, ensures_program]
  refine (ensures_edit_refreshLayouts hs).weaken fun _ mid pre => ?_
  have soundMiddle := pre.rewrites.sound hs
  split
  · next debug =>
    refine pre.andThen (ensures_edit_advances ?_) fun _ _ later => later
    -- The mark of a debug build is one of the options, which no step changes.
    exact ensures_exposeAll_keeps (Rewrites mid.program) soundMiddle.consistent.order_live .refl
      fun st k steps => steps.tail (.exposed k (Rewrites.options steps ▸ debug))
  · exact pre

/-- Cleaning up keeps what is so when the layouts are up to date, if outputs do not matter for it. -/
theorem ensures_cleanUp_keeps (holds : Program → Prop) {failed : Fault → Prop}
    (hs : s.program.Sound)
    (refreshes : Ensures Edit.refreshLayouts s.program (fun _ next => holds next) failed)
    (round : ∀ st k, holds st → holds (st.setOutput k true)) :
    Ensures cleanUp s (fun _ next => holds next.program) failed := by
  simp only [cleanUp, ensures_bind, ensures_program, ensures_edit]
  refine (refreshes.and (ensures_refreshLayouts hs.consistent)).weaken ?_
  rintro _ refreshed ⟨h, ann⟩
  split
  · rw [ensures_edit]
    exact ensures_exposeAll_keeps holds (hs.consistent.annotated ann).order_live h round
  · exact h

end Build

end LayerGraph
