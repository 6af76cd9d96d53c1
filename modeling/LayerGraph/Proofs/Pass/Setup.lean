import LayerGraph.Proofs.Build.Session
import LayerGraph.Proofs.Geometry.Overflow

/-!
# Setting up and trimming

Setting a consistent program up makes it sound, unless it has a cycle (`Build.ensures_setUp`). No
node that stays is changed in what it computes or reads, and every output stays one (`Prepares`).
Marking nodes and trimming rewrite a sound program.
-/

namespace LayerGraph

open List Option Edit

namespace Program

variable {program q : Program} {k : NodeKey} {n : Node}

/-! ## Layouts -/

/-- A node gets the layout that is inferred for it, unless a word overflows. -/
theorem ensures_refreshLayout_exact (hk : program.node? k = some n) :
    Ensures (refreshLayout k) program
      (fun _ q => ∃ lay, program.inferLayout k n = .ok lay ∧ q = program.modifyNode k (·.withLayout lay))
      fun fault => fault.IsOverflow ∧ program.inferLayout k n = .error .overflow := by
  simp only [refreshLayout, ensures_bind, ensures_nodeAt hk, ensures_get]
  refine ensures_checked (fun lay inferred => ⟨lay, inferred, rfl⟩) fun cause stopped => ?_
  cases program.onlyOverflows_inferLayout k n cause stopped
  exact ⟨rfl, stopped⟩

/-- **Finding out layouts keeps what a new layout keeps,** and fails only when a word overflows. -/
theorem ensures_refreshLayouts_keeps (holds : Program → Prop) (wf : program.Consistent)
    (start : holds program)
    (round : ∀ st k lay, holds st → holds (st.modifyNode k (·.withLayout lay))) :
    Ensures refreshLayouts program (fun _ q => Annotated program q ∧ holds q)
      Fault.IsOverflow := by
  simp only [refreshLayouts, ensures_bind, ensures_get]
  refine ensures_forM_mem (fun st => Annotated program st ∧ holds st)
    (fun k hl st kept => ?_) ⟨.refl program, start⟩
  obtain ⟨pre, h⟩ := kept
  obtain ⟨n, hk⟩ := contains_iff.mp ((pre.contains k).mpr (wf.order_live k hl))
  rw [ensures_discard]
  refine (ensures_refreshLayout_exact hk).mono ?_ fun _ h => h.1
  rintro _ _ ⟨lay, -, rfl⟩
  exact ⟨pre.trans (.modifyNode st k fun _ => rfl), round st k lay h⟩

theorem ensures_refreshLayouts (wf : program.Consistent) :
    Ensures refreshLayouts program (fun _ q => Annotated program q) Fault.SparesProgram :=
  (ensures_refreshLayouts_keeps (fun _ => True) wf trivial fun _ _ _ _ => trivial).mono
    (fun _ _ h => h.1) fun _ => Fault.not_blamesProgram_of_overflow

/-! ## The graph at the beginning -/

/-- What setting a program up keeps: nodes that stay compute and read what they did and are listed as
inputs as before, and outputs stay in front of new ones. -/
structure Prepares (program edited : Program) : Prop where
  settings : edited.settings = program.settings
  nodes : ∀ key node, edited.node? key = some node → ∃ original, program.node? key = some original ∧
    original.primitive = node.primitive ∧ original.fused = node.fused
  reads : ∀ key, edited.contains key → edited.dependencies key = program.dependencies key
  inputs : KeepsInputs program edited
  outputs : program.outputs <+: edited.outputs

namespace Prepares

theorem refl (program : Program) : Prepares program program :=
  ⟨rfl, fun _ n hk => ⟨n, hk, rfl, rfl⟩, fun _ _ => rfl, .of_eq rfl, prefix_rfl⟩

theorem options (prep : Prepares program q) : q.options = program.options :=
  options_of_settings prep.settings

theorem contains (prep : Prepares program q) (hv : q.contains k) : program.contains k := by
  obtain ⟨n, hk⟩ := contains_iff.mp hv
  obtain ⟨orig, foundOrig, -⟩ := prep.nodes k n hk
  exact contains_of_node? foundOrig

theorem trans {mid : Program} (a : Prepares program mid)
    (b : Prepares mid q) : Prepares program q where
  settings := b.settings.trans a.settings
  nodes k n hk := by
    obtain ⟨between, foundBetween, prim, fused⟩ := b.nodes k n hk
    obtain ⟨orig, foundOrig, primitiveBefore, fusedBefore⟩ := a.nodes k between foundBetween
    exact ⟨orig, foundOrig, primitiveBefore.trans prim, fusedBefore.trans fused⟩
  reads k hv := (b.reads k hv).trans (a.reads k (b.contains hv))
  inputs := a.inputs.trans b.inputs fun _ => b.contains
  outputs := a.outputs.trans b.outputs

theorem of_annotated (ann : Annotated program q) : Prepares program q where
  settings := settings_of_alters ann
  nodes k n hk := by
    obtain ⟨orig, foundOrig, core⟩ := ann.node? hk
    exact ⟨orig, foundOrig, congrArg (·.1) core, congrArg (·.2.1) core⟩
  reads k _ := ann.dependencies k
  inputs := .of_eq (by rw [ann.rest])
  outputs := by
    have e : q.outputs = program.outputs := by rw [ann.rest]
    exact e ▸ prefix_rfl

theorem setOutput (program : Program) (k : NodeKey) : Prepares program (program.setOutput k true) where
  settings := program.settings_setOutput k true
  nodes o n hk := by
    rw [node?_setOutput] at hk
    split at hk
    · obtain ⟨orig, foundOrig, rfl⟩ := map_eq_some_iff.mp hk
      exact ⟨orig, foundOrig, rfl, rfl⟩
    · exact ⟨n, hk, rfl, rfl⟩
  reads o _ := program.dependencies_setOutput k o true
  inputs := .of_eq (by rw [setOutput_rest])
  outputs := by
    by_cases hv : program.contains k
    · rw [outputs_setOutput hv]
      split
      · exact prefix_rfl
      · exact prefix_append _ _
    · exact (setOutput_of_dead hv true).symm ▸ prefix_rfl

theorem prune (wf : program.Consistent) (res : program.prune? k = some q) : Prepares program q := by
  obtain ⟨n, hk, unmarked, unread, rfl⟩ := prune?_eq_some.mp res
  refine ⟨program.settings_detachAndErase k, fun o kept foundKept => ?_, fun o hv => ?_,
    .detachAndErase wf hk, ?_⟩
  · rw [node?_detachAndErase wf.slots hk] at foundKept
    split at foundKept
    · cases foundKept
    · exact ⟨kept, foundKept, rfl, rfl⟩
  · have ne := ((contains_detachAndErase wf.slots hk o).mp hv).2
    rw [dependencies_prune wf hk unread, if_neg ne]
  · exact (wf.outputs_detachAndErase hk unmarked).symm ▸ prefix_rfl

theorem markSinks (wf : program.Consistent) :
    program.markSinks.Consistent ∧ Prepares program program.markSinks := by
  rw [Program.markSinks]
  split
  · have loop : ∀ (ks : List NodeKey) (st : Program), st.Consistent →
        (ks.foldl (fun program k => program.setOutput k true) st).Consistent ∧
          Prepares st (ks.foldl (fun program k => program.setOutput k true) st) := by
      intro ks
      induction ks with
      | nil => exact fun st h => ⟨h, .refl st⟩
      | cons k rest ih =>
        intro st h
        obtain ⟨kept, prep⟩ := ih (st.setOutput k true) (h.setOutput k true)
        exact ⟨kept, (setOutput st k).trans prep⟩
    exact loop _ program wf
  · exact ⟨wf, .refl program⟩

end Prepares

/-- The first order of a consistent program is complete, unless there is a cycle. -/
theorem ensures_orderDepthFirst (wf : program.Consistent) :
    Ensures orderDepthFirst program (fun _ q => q.Sound ∧ Prepares program q)
      Fault.SparesProgram := by
  simp only [orderDepthFirst, ensures_bind, ensures_get]
  split
  · next order hk =>
    obtain ⟨kept, complete⟩ := wf.depthFirst hk
    exact ⟨⟨kept, complete⟩, rfl, fun _ n hk => ⟨n, hk, rfl, rfl⟩, fun _ _ => rfl,
      .of_eq rfl, prefix_rfl⟩
  · next k failed =>
    have hl := DependencyGraph.depthFirst_error_mem wf.keys_closed wf.outputs_subset_keys failed
    obtain ⟨n, hk⟩ := contains_iff.mp (wf.mem_keys.mp hl)
    simp [ensures_nodeAt hk, Fault.SparesProgram, Fault.BlamesProgram]

/-! ## Dead nodes -/

/-- The nodes that are not needed are collected as they are listed, when the given keys are live. -/
theorem unneeded_eq (needed : List NodeKey) {ks : List NodeKey} (hv : ∀ k ∈ ks, program.contains k) :
    program.unneeded needed ks = .ok (ks.filter fun k =>
      !needed.contains k && (program.node? k).any (·.tag != .inputLayout)) := by
  induction ks with
  | nil => rfl
  | cons head rest ih =>
    obtain ⟨n, hk⟩ := contains_iff.mp (hv head mem_cons_self)
    rw [unneeded, ih fun k mem => hv k (mem_cons_of_mem _ mem), nodeAt_of_node? hk, filter_cons, hk]
    by_cases isNeeded : head ∈ needed
    · simp [isNeeded]
    · by_cases isInput : n.tag = .inputLayout
      · simp [isNeeded, isInput, bind, Except.bind, pure, Except.pure]
      · simp [isNeeded, isInput, bind, Except.bind, pure, Except.pure]

/-- A node rests on itself and on everything that it reads, directly or indirectly. -/
abbrev RestsOn (program : Program) : NodeKey → NodeKey → Prop :=
  Relation.ReflTransGen fun reader source => source ∈ program.dependencies reader

/-- An output rests on a node. -/
def ServesOutput (program : Program) (key : NodeKey) : Prop :=
  ∃ output ∈ program.outputs, program.RestsOn output key

theorem ServesOutput.reads {dep : NodeKey} (needed : program.ServesOutput k)
    (hr : dep ∈ program.dependencies k) : program.ServesOutput dep := by
  obtain ⟨output, hl, path⟩ := needed
  exact ⟨output, hl, path.tail hr⟩

theorem Consistent.mem_dependencyCone_iff (wf : program.Consistent) :
    k ∈ program.dependencyCone program.outputs ↔ program.ServesOutput k := by
  constructor
  · intro inCone
    exact (path_of_mem_reach inCone).resolve_left not_mem_nil
  · rintro ⟨output, hl, path⟩
    exact mem_reach_of_path (fun k dep mem => wf.mem_keys.mpr (wf.reads_live k dep mem).2) hl path

/-- **The dead nodes of a sound program** are those that no output depends on, without the network
inputs. They are listed in processing order. -/
theorem Sound.deadKeys (hs : program.Sound) : ∃ dead, program.deadKeys = .ok dead ∧
    program.order.toList.filter (· ∈ dead) = dead ∧ ∀ k, k ∈ dead ↔
      ¬ program.ServesOutput k ∧ ∃ n, program.node? k = some n ∧ n.tag ≠ .inputLayout := by
  refine ⟨_, unneeded_eq _ hs.consistent.order_live,
    filter_congr fun k mem => by simp [mem_filter, mem], fun k => ?_⟩
  simp only [mem_filter, Bool.and_eq_true, Option.any_eq_true, bne_iff_ne, contains_eq_mem,
    Bool.not_eq_true', decide_eq_false_iff_not, hs.consistent.mem_dependencyCone_iff]
  exact and_iff_right_of_imp fun ⟨_, n, hk, _⟩ => hs.complete.mem_of_node? hk

section

variable {dead : List NodeKey} (hs : program.Sound) (hd : program.deadKeys = .ok dead)

include hs hd

theorem Sound.mem_dead_iff : k ∈ dead ↔
    ¬ program.ServesOutput k ∧ ∃ n, program.node? k = some n ∧ n.tag ≠ .inputLayout := by
  obtain ⟨_, res, -, members⟩ := hs.deadKeys
  cases hd.symm.trans res
  exact members k

theorem Sound.not_dead_of_servesOutput (serves : program.ServesOutput k) : k ∉ dead :=
  fun isDead => ((hs.mem_dead_iff hd).mp isDead).1 serves

end

end Program

namespace Build

open Program

variable {s : Session}

variable {failed : Fault → Prop}

theorem ensures_removeSplit {k : NodeKey} (wf : s.program.Consistent) (hv : s.program.contains k) :
    Ensures (removeSplit k) s (fun _ next => next.program.Consistent ∧ Prepares s.program next.program ∧
    s.Continues next ∧ (∀ o n, next.program.node? o = some n → s.program.node? o = some n) ∧ ∀ o, o ≠ k →
    s.program.contains o → next.program.contains o) failed := by
  simp only [removeSplit, ensures_bind, ensures_edit, prune]
  refine ensures_attempt (fun q res => ?_) fun _ => ?_
  · have prep := Prepares.prune wf res
    obtain ⟨n, hk, -, -, rfl⟩ := prune?_eq_some.mp res
    refine ⟨wf.detachAndErase hk, prep, ⟨rfl, rfl⟩, fun o m ho => ?_, fun o ne h => ?_⟩
    · rw [node?_detachAndErase wf.slots hk] at ho
      split at ho
      · cases ho
      · exact ho
    · exact (contains_detachAndErase wf.slots hk o).mpr ⟨h, ne⟩
  · obtain ⟨n, hk⟩ := contains_iff.mp hv
    simp only [Bool.false_eq_true, if_false, ensures_bind, nodeAt, ensures_edit,
      ensures_nodeAt hk, ensures_warn]
    exact ⟨wf, .refl _, ⟨rfl, rfl⟩, fun _ _ h => h, fun o _ h => h⟩

/-- Removing split layers leaves all other nodes as they are. -/
theorem ensures_removeSplits (wf : s.program.Consistent) : Ensures (s.program.splitKeys.forM removeSplit)
    s (fun _ next => next.program.Consistent ∧ Prepares s.program next.program ∧ s.Continues next ∧ ∀ o
    n, next.program.node? o = some n → s.program.node? o = some n) failed := by
  have splits : ∀ k ∈ s.program.splitKeys, s.program.contains k := fun k hl =>
    wf.mem_keys.mp (mem_of_mem_filter hl)
  refine (ensures_forM (fun rest st => (st.program.Consistent ∧ Prepares s.program st.program ∧
    s.Continues st ∧ ∀ o n, st.program.node? o = some n → s.program.node? o = some n) ∧ rest.Nodup ∧ ∀ k
    ∈ rest, st.program.contains k) ?_ ⟨⟨wf, .refl _, .refl s, fun _ _ h => h⟩, wf.keys_nodup.filter _,
    splits⟩).weaken fun _ _ kept => kept.1
  rintro k rest st ⟨⟨kept, prep, continues, nodes⟩, nd, hv⟩
  obtain ⟨ha, nd⟩ := nodup_cons.mp nd
  refine (ensures_removeSplit kept (hv k mem_cons_self)).weaken ?_
  rintro _ next ⟨keptNext, step, goesOn, e, stays⟩
  refine ⟨⟨keptNext, prep.trans step, continues.trans goesOn, fun o n hk =>
    nodes o n (e o n hk)⟩, nd, fun o mem => ?_⟩
  exact stays o (fun e => ha (e ▸ mem)) (hv o (mem_cons_of_mem _ mem))

/-- Setting a program up ends with the layouts of a sound program. -/
theorem ensures_setUp_of {done : Session → Prop} (wf : s.program.Consistent)
    (refreshes : ∀ mid : Session, mid.program.Sound →
      Prepares s.program mid.program → s.Continues mid →
      Ensures (edit refreshLayouts) mid (fun _ next => done next) Fault.SparesProgram) :
    Ensures setUp s (fun _ next => done next) Fault.SparesProgram := by
  simp only [setUp, ensures_bind, ensures_program, ensures_modifyProgram]
  refine (ensures_removeSplits wf).weaken ?_
  rintro _ st ⟨kept, prep, continues, -⟩
  obtain ⟨hm, step⟩ := Prepares.markSinks kept
  rw [ensures_edit]
  refine (ensures_orderDepthFirst hm).weaken ?_
  rintro _ ordered ⟨hs, ordering⟩
  exact refreshes { st with program := ordered } hs ((prep.trans step).trans ordering)
    ⟨continues.surroundings, continues.folded⟩

/-- **Setting a consistent program up makes it sound.** -/
theorem ensures_setUp (wf : s.program.Consistent) :
    Ensures setUp s (fun _ next => next.program.Sound ∧
      Prepares s.program next.program ∧ s.Continues next) Fault.SparesProgram := by
  refine ensures_setUp_of wf fun mid hs prep continues => ?_
  rw [ensures_edit]
  refine (ensures_refreshLayouts hs.consistent).weaken fun _ q ann => ?_
  exact ⟨Rewrite.sound (.annotated ann) hs, prep.trans (.of_annotated ann),
    ⟨continues.surroundings, continues.folded⟩⟩

theorem ensures_markAll {program : Program} {ks : List NodeKey} (hv : ∀ k ∈ ks, program.contains k)
    : Ensures (ks.forM markNode) program (fun _ q => Marked program q) failed := by
  refine ensures_forM_mem (Marked program) (fun k hl st pre => ?_) (.refl program)
  exact (ends_marks ((pre.contains k).mpr (hv k hl))).mono
    (fun _ _ marks => pre.trans marks) fun _ _ h => h

theorem ensures_markNodes (hs : s.program.Sound) :
    Ensures markNodes s (fun _ next => s.Advances next) s.surroundings.Excuses := by
  simp only [markNodes, ensures_bind, ensures_program]
  exact ensures_edit_advances ((ensures_markAll hs.consistent.order_live).weaken
    fun _ _ hm => .single (.annotated hm.annotated))

theorem ensures_trim (hs : s.program.Sound) :
    Ensures trim s (fun _ next => s.Advances next) s.surroundings.Excuses := by
  obtain ⟨dead, hk, -⟩ := hs.deadKeys
  simp only [trim, ensures_bind, ensures_program, hk, Checked.lift, ensures_pure, ensures_modifyProgram]
  exact ⟨⟨rfl, rfl⟩, .single (.trimmed hk)⟩

end Build

end LayerGraph
