import LayerGraph.Proofs.Build.Calls
import LayerGraph.Proofs.Build.Outputs

/-!
# Every node is handed to the backend once

One pass hands over every node of the processing order, in that order. Reorders that are put behind
inputs later are handed over on the spot, and no pass after that adds, removes or renames a node
(`Session.Reaches`). So the nodes that were handed over for a program are the nodes of its order, each
once. The same holds for the constant part of the program.
-/

namespace LayerGraph

open List

namespace Program

variable {p q : Program}

/-- Alterations of nodes add none. -/
theorem Grows.of_alters (alters : Alters Node.label p q) : Grows p q [] where
  stays k hv := ⟨(alters.contains k).mpr hv, by rw [idOf_of_alters alters]⟩
  new _ hl := absurd hl not_mem_nil
  only k hv := .inl ((alters.contains k).mp hv)
  nodup := nodup_nil

theorem ids_of_alters (alters : Alters Node.label p q) : q.ids = p.ids := by
  have order : q.order = p.order := by rw [alters.rest]
  rw [ids, ids, order, idOf_of_alters alters]

theorem ids_setOutput (p : Program) (k : NodeKey) : (p.setOutput k true).ids = p.ids := by
  have order : (p.setOutput k true).order = p.order := by rw [setOutput_rest]
  rw [ids, ids, order, idOf_setOutput]

end Program

/-! ## How far a build has come -/

namespace Session

open Program

variable {start s next : Session} {told : List BackendCall}

/-- How far a build has come: the program has been set up, or there is no order yet, and `own` tells
which nodes of the program have been handed over. -/
structure Reaches (own : Program → List BackendCall → Prop) (start session : Session) : Prop where
  stage : session.program.Unset ∨ session.program.Sound
  settings : session.program.settings = start.program.settings
  told : ∃ told, start.Tells session told ∧ own session.program told

/-- No node has been handed over. -/
def Uncompiled (program : Program) (told : List BackendCall) : Prop :=
  handedOver program.id told = []

/-- The nodes of the order have been handed over just now. -/
def JustCompiled (program : Program) (told : List BackendCall) : Prop :=
  handedOver program.id told = program.order.toList.map (program, ·)

variable {own : Program → List BackendCall → Prop}

theorem Reaches.id (reaches : Reaches own start s) : s.program.id = start.program.id :=
  congrArg Prod.fst reaches.settings

theorem Reaches.options (reaches : Reaches own start s) : s.program.options = start.program.options :=
  options_of_settings reaches.settings

theorem Reaches.stable (reaches : Reaches own start s) (e : next.program = s.program)
    (silent : s.Silent next) : Reaches own start next where
  stage := e ▸ reaches.stage
  settings := e ▸ reaches.settings
  told := by
    obtain ⟨told, tells, holds⟩ := reaches.told
    exact ⟨told, tells.silent silent, e ▸ holds⟩

/-- A step that says nothing leaves a build as far as it was, if it keeps what matters. -/
theorem Reaches.silent (reaches : Reaches own start s) (silent : s.Silent next) (stage :
    next.program.Unset ∨ next.program.Sound) (settings : next.program.settings = s.program.settings)
    (keeps : ∀ told, own s.program told → own next.program told) : Reaches own start next where
  stage := stage
  settings := settings.trans reaches.settings
  told := by
    obtain ⟨told, tells, holds⟩ := reaches.told
    exact ⟨told, tells.silent silent, keeps told holds⟩

variable {p q : Program}

theorem uncompiled_of_settings (e : q.settings = p.settings) (told : List BackendCall) (h : Uncompiled p
    told) : Uncompiled q told := by
  rw [Uncompiled, show q.id = p.id from congrArg Prod.fst e]
  exact h

theorem nodup_ids_of_stage (stage : p.Unset ∨ p.Sound) : p.ids.Nodup := by
  rcases stage with unset | hs
  · rw [ids, unset.unordered]
    exact nodup_nil
  · exact hs.nodup_ids

/-- Each node has been handed over once. -/
abbrev Compiled (program : Program) (told : List BackendCall) : Prop := CompilesOnce told program

/-- Right after the nodes of the order were handed over, each has been handed over once. -/
theorem JustCompiled.once (just : JustCompiled p told) (stage : p.Unset ∨ p.Sound) : CompilesOnce told p
    where
  handed := by
    rw [just, List.map_map]
    exact .refl _
  nodup := nodup_ids_of_stage stage
  ordered := ⟨p, p, [], by rw [just, map_nil, append_nil], .refl p, fun _ mem => absurd mem not_mem_nil⟩

/-- Nodes that are inserted and handed over afterwards are handed over once as well. -/
theorem JustCompiled.grow {ins : List NodeKey} (just : JustCompiled p told) (grows : Grows p q ins)
    (named : ∀ k ∈ ins, ∃ i ∈ p.inputs, ∃ fmt, q.idOf k = reorderId (p.idOf i) fmt) (hs :
    p.Sound) (after : q.Sound) (e : q.id = p.id) : CompilesOnce (told ++ ins.map (.compile q)) q := by
  have handed : handedOver q.id (told ++ ins.map (.compile q)) =
      p.order.toList.map (p, ·) ++ ins.map (q, ·) := by
    rw [handedOver_append, handedOver_compile rfl, e, just]
  refine ⟨?_, after.nodup_ids, p, q, ins, handed, grows, named⟩
  have hv : ∀ k ∈ p.order.toList, p.contains k := fun k hl =>
    (hs.complete.complete k).mp hl
  have ks : (p.order.toList ++ ins).Perm q.order.toList := by
    refine (perm_ext_iff_of_nodup (nodup_append.mpr ⟨hs.complete.nodup, grows.nodup,
      ?_⟩) after.complete.nodup).mpr fun k => ?_
    · intro k hl o mem e
      exact (grows.new o mem).2 (e ▸ hv k hl)
    · rw [mem_append, hs.complete.complete, after.complete.complete]
      constructor
      · rintro (old | new)
        · exact (grows.stays k old).1
        · exact (grows.new k new).1
      · exact grows.only k
  have ids : p.order.toList.map p.idOf = p.order.toList.map q.idOf :=
    map_congr_left fun k hl => (grows.stays k (hv k hl)).2.symm
  rw [handed, map_append, List.map_map, List.map_map]
  show (p.order.toList.map p.idOf ++ ins.map q.idOf).Perm _
  rw [ids, ← map_append]
  exact ks.map q.idOf

end Session

namespace Build

open Program Session

variable {start s : Session} {folding : Build Unit} {pass : Pass}
  {own later : Program → List BackendCall → Prop}

/-! ## Single passes -/

/-- A pass brings a build as far as its body does, if all nodes stand at correct places. -/
theorem ensures_runWith_reaches
    (finishes : s.program.options.enables pass.name → Ensures (pass.body folding) s
      (fun _ next => next.program.firstMisplaced? = none → Reaches later start next))
    (skipped : ¬ s.program.options.enables pass.name → Reaches later start s) :
    Ensures (runWith folding pass) s (fun _ next => Reaches later start next) := by
  apply ensures_runWith_placed _ finishes skipped
  intro pre after e silent h
  exact h.stable e silent

/-- Setting a program up says nothing, and without it there is no order. -/
theorem ensures_setUp_reaches (wf : s.program.Consistent)
    (ready : s.program.options.enables Pass.setUp.name ∨ s.program.Unset) :
    Ensures (runWith folding .setUp) s (fun _ next => Reaches Uncompiled s next) := by
  apply ensures_runWith_reaches
  · intro _
    have silent := quiet_body folding (show Pass.setUp ∉ _ by decide) s
    apply (silent.and (ensures_setUp wf)).weaken
    intro _ next h _
    obtain ⟨silent, hs, prep, -⟩ := h
    exact ⟨.inr hs, prep.settings, [], (Tells.refl s).silent silent, rfl⟩
  · intro disabled
    exact ⟨.inl (ready.resolve_left disabled), rfl, [], .refl s, rfl⟩

/-- What a pass that says nothing leaves of a program that has been set up or has no order. -/
theorem ensures_body_stage (stage : s.program.Unset ∨ s.program.Sound)
    (notFirst : pass ≠ .setUp) (notFolding : pass ≠ .foldConstants) :
    Ensures (pass.body folding) s (fun _ next => next.program.firstMisplaced? = none →
      (next.program.Unset ∨ next.program.Sound) ∧
      next.program.settings = s.program.settings) := by
  rcases stage with unset | hs
  · by_cases ordering : pass = .orderBreadthFirst
    · subst ordering
      intro placed
      have acyclic := unset.firstMisplaced?_orderBreadthFirst.mp placed
      exact ⟨.inr (unset.consistent.sound_orderBreadthFirst unset.unordered acyclic), rfl⟩
    · apply (ensures_body_unset unset notFirst ordering notFolding).weaken
      intro _ next e _
      subst e
      exact ⟨.inl unset, rfl⟩
  · apply (ensures_body hs folding notFirst notFolding).mono
    intro _ next adv _
    exact ⟨.inr (adv.rewrites.sound hs), adv.rewrites.settings⟩

theorem ensures_body_uncompiled (reaches : Reaches Uncompiled start s) (notFirst : pass ≠ .setUp)
    (silent : pass ∉ [.foldConstants, .compileNodes, .reorderInputs]) :
    Ensures (pass.body folding) s (fun _ next => next.program.firstMisplaced? = none →
      Reaches Uncompiled start next) := by
  have notFolding : pass ≠ .foldConstants := fun e => silent (e ▸ mem_cons_self)
  apply ((ensures_body_stage reaches.stage notFirst notFolding).and (quiet_body folding silent s)).weaken
  intro _ next h placed
  obtain ⟨stage, settings⟩ := h.1 placed
  exact reaches.silent h.2 stage settings (uncompiled_of_settings settings)

/-- Handing nodes over says what is handed over, and nothing else. -/
theorem ensures_compileNodes_calls (ks : List NodeKey) :
    Ensures (ks.forM compileNode) s (fun _ next => next.program = s.program ∧
      next.trace.calls = s.trace.calls ++ ks.map (.compile s.program) ∧
      next.nextProgram = s.nextProgram) := by
  induction ks generalizing s with
  | nil => exact ⟨rfl, (append_nil _).symm, rfl⟩
  | cons k rest ih =>
    rw [List.forM, ensures_bind]
    simp only [compileNode, ensures_bind, ensures_program]
    refine ensures_call _ ?_
    apply ih.weaken
    intro _ next h
    refine ⟨h.1, ?_, h.2.2⟩
    rw [h.2.1, append_assoc]
    rfl

theorem ensures_compileNodes_reaches (below : start.program.id < start.nextProgram)
    (reaches : Reaches Uncompiled start s) : Ensures compileNodes s
      (fun _ next => Reaches JustCompiled start next) := by
  simp only [compileNodes, ensures_bind, ensures_program]
  apply (ensures_compileNodes_calls _).weaken
  rintro _ next ⟨e, calls, numbers⟩
  obtain ⟨told, tells, holds⟩ := reaches.told
  refine ⟨e ▸ reaches.stage, e ▸ reaches.settings, _, tells.compile below reaches.id calls numbers, ?_⟩
  rw [JustCompiled, handedOver_append, e, holds, handedOver_compile rfl, nil_append]

/-- The reorders that inputs get are handed over. -/
theorem ensures_reorderInputs_calls (hs : s.program.Sound) :
    Ensures reorderInputs s (fun _ next => ∃ ins, Grows s.program next.program ins ∧
      (∀ k ∈ ins, ∃ i ∈ s.program.inputs, ∃ fmt,
        next.program.idOf k = reorderId (s.program.idOf i) fmt) ∧
      next.trace.calls = s.trace.calls ++ ins.map (.compile next.program) ∧
      next.nextProgram = s.nextProgram) := by
  simp only [reorderInputs, ensures_bind, ensures_program]
  have silent := quiet_edit (Edit.reorderEach s.program.inputs) s
  apply (silent.and (ensures_edit_reorderEach hs)).weaken
  rintro ins next ⟨silent, adv, grows, named, -⟩
  split
  · next none =>
    rw [List.isEmpty_iff.mp none] at grows
    refine ⟨[], grows, fun _ mem => absurd mem not_mem_nil, ?_, silent.numbers⟩
    rw [map_nil, append_nil, silent.calls]
  · have grown := adv.rewrites.sound hs
    rw [ensures_bind]
    have silentToo := quiet_edit Edit.refreshLayouts next
    have refreshes : Ensures (edit Edit.refreshLayouts) next
        (fun _ last => Annotated next.program last.program) Fault.SparesProgram := by
      rw [ensures_edit]
      exact ensures_refreshLayouts grown.consistent
    apply (silentToo.and refreshes).weaken
    rintro _ last ⟨silentToo, ann⟩
    apply (ensures_compileNodes_calls ins).weaken
    rintro _ ended ⟨e, calls, numbers⟩
    refine ⟨ins, ?_, ?_, ?_, ?_⟩
    · rw [e, ← append_nil ins]
      exact grows.trans (.of_alters ann.label)
    · rw [e, idOf_of_alters ann.label]
      exact named
    · rw [calls, e, silentToo.calls, silent.calls]
    · rw [numbers, silentToo.numbers, silent.numbers]

theorem ensures_reorderInputs_reaches (below : start.program.id < start.nextProgram)
    (reaches : Reaches JustCompiled start s) : Ensures (Pass.reorderInputs.body folding) s
      (fun _ next => Reaches Compiled start next) := by
  obtain ⟨told, tells, just⟩ := reaches.told
  rcases reaches.stage with unset | hs
  · apply (ensures_body_unset unset (by decide) (by decide) (by decide)).weaken
    intro _ next e
    subst e
    exact ⟨reaches.stage, reaches.settings, told, tells.silent ⟨rfl, rfl⟩, just.once (.inl unset)⟩
  · apply ((ensures_reorderInputs_calls hs).and (ensures_reorderInputs hs)).weaken
    rintro _ next ⟨⟨ins, grows, named, calls, numbers⟩, adv⟩
    have after := adv.rewrites.sound hs
    have settings := adv.rewrites.settings
    have e : next.program.id = s.program.id := congrArg Prod.fst settings
    exact ⟨.inr after, settings.trans reaches.settings, _, tells.compile below (e.trans reaches.id) calls
      numbers, just.grow grows named hs after e⟩

/-- At the end of a build the nodes of the order stay the same. -/
theorem ensures_body_ids (hs : s.program.Sound) (last : pass ∈ [.computeConflicts, .cleanUp]) :
    Ensures (pass.body folding) s (fun _ next => next.program.ids = s.program.ids) := by
  rcases mem_cons.mp last with rfl | last
  · simp only [Pass.body, computeConflicts, ensures_bind, ensures_program, ensures_edit]
    apply (Program.ensures_computeConflicts hs.consistent _).weaken
    intro _ q hm
    exact ids_of_alters hm.annotated.label
  · cases mem_singleton.mp last
    exact ensures_cleanUp_keeps (·.ids = s.program.ids) hs ((ensures_refreshLayouts
      hs.consistent).mono fun _ _ ann => ids_of_alters ann.label) fun
      st k pre => (st.ids_setOutput k).trans pre

theorem ensures_body_compiled (reaches : Reaches Compiled start s)
    (last : pass ∈ [.computeConflicts, .cleanUp]) :
    Ensures (pass.body folding) s (fun _ next => next.program.firstMisplaced? = none →
      Reaches Compiled start next) := by
  have silent : pass ∉ [.foldConstants, .compileNodes, .reorderInputs] := by
    revert last
    cases pass <;> decide
  have notFirst : pass ≠ .setUp := by
    rintro rfl
    simp at last
  have notFolding : pass ≠ .foldConstants := fun e => silent (e ▸ mem_cons_self)
  have stays := (ensures_body_stage reaches.stage notFirst notFolding).and (quiet_body folding silent s)
  rcases reaches.stage with unset | hs
  · have notOrdering : pass ≠ .orderBreadthFirst := by
      rintro rfl
      simp at last
    apply (ensures_body_unset unset notFirst notOrdering notFolding).weaken
    intro _ next e _
    subst e
    exact reaches.stable rfl ⟨rfl, rfl⟩
  · apply (stays.and (ensures_body_ids hs last)).weaken
    intro _ next h placed
    obtain ⟨⟨left, silent⟩, e⟩ := h
    obtain ⟨stage, settings⟩ := left placed
    exact reaches.silent silent stage settings fun told once =>
      once.of_ids (congrArg Prod.fst settings) e

end Build

/-! ## Whole builds -/

namespace Pass

/-- The passes after the first one and before nodes are handed over. -/
def beforeCompiling (options : Options) (isInternal : Bool) : List Pass :=
  markNodes :: optimizationPhase options isInternal

variable {opts : Options}

/-- The passes of a build, cut where nodes are handed over. -/
theorem pipeline_compiling (isInternal : Bool) (optimizes : opts.noOptimizations = false) : pipeline opts
    isInternal = setUp :: (beforeCompiling opts isInternal ++ compileNodes :: (only opts.optimizeData
    reorderInputs ++ (only opts.enableMemoryPool computeConflicts ++ [cleanUp]))) := by
  simp [pipeline, setUpPhase, beforeCompiling, finishingPhase, optimizes]

theorem mem_beforeCompiling {isInternal : Bool} {pass : Pass} (mem : pass ∈ beforeCompiling opts
    isInternal) : pass ≠ setUp ∧ (pass = foldConstants ∨ pass ∉ [foldConstants, compileNodes,
    reorderInputs]) := by
  simp only [beforeCompiling, optimizationPhase, mem_append, mem_only, mem_cons,
    not_mem_nil, or_false] at mem
  rcases mem with rfl | mem
  · decide
  · rcases mem with ((((((rfl | mem) | rfl) | mem) | rfl | rfl) | mem) | mem)
    all_goals first | decide | (rw [mem.2]; decide)

end Pass

namespace Build

open Program Session

variable {start s : Session} {folding : Build Unit}

/-- What folding constants has to leave as it is for nodes to be handed over once. -/
def KeepsUncompiled (start : Session) (folding : Build Unit) : Prop :=
  ∀ s, Reaches Uncompiled start s →
    Ensures folding s (fun _ next => Reaches Uncompiled start next)

theorem ensures_runEarly (folds : KeepsUncompiled start folding)
    (reaches : Reaches Uncompiled start s) {passes : List Pass}
    (early : ∀ pass ∈ passes, pass ≠ .setUp ∧
      (pass = .foldConstants ∨ pass ∉ [.foldConstants, .compileNodes, .reorderInputs])) :
    Ensures (passes.forM (runWith folding)) s
      (fun _ next => Reaches Uncompiled start next) := by
  refine ensures_forM_mem (Reaches Uncompiled start) (fun pass mem st pre => ?_) reaches
  refine ensures_runWith_reaches (fun _ => ?_) fun _ => pre
  obtain ⟨notFirst, rfl | silent⟩ := early pass mem
  · exact (folds st pre).weaken fun _ _ h _ => h
  · exact ensures_body_uncompiled pre notFirst silent

/-- After nodes were handed over, only new reorders are. -/
theorem ensures_runLate (below : start.program.id < start.nextProgram)
    (reaches : Reaches JustCompiled start s) (opts : Options) :
    Ensures ((Pass.only opts.optimizeData .reorderInputs ++
        (Pass.only opts.enableMemoryPool .computeConflicts ++ [Pass.cleanUp])).forM
          (runWith folding)) s (fun _ next => Reaches Compiled start next) := by
  have idle : ∀ st, Reaches JustCompiled start st → Reaches Compiled start st := by
    intro st h
    obtain ⟨told, tells, just⟩ := h.told
    exact ⟨h.stage, h.settings, told, tells, just.once h.stage⟩
  rw [ensures_forM_append]
  refine (ensures_only (Reaches Compiled start) (fun _ => idle s reaches) fun _ => ?_).weaken ?_
  · refine ensures_runWith_reaches (fun _ => ?_) fun _ => idle s reaches
    exact (ensures_reorderInputs_reaches below reaches).weaken fun _ _ h _ => h
  intro _ mid compiled
  have last : ∀ pass ∈ Pass.only opts.enableMemoryPool .computeConflicts ++ [Pass.cleanUp],
      pass ∈ [Pass.computeConflicts, .cleanUp] := by
    intro pass mem
    rcases mem_append.mp mem with first | b
    · exact (Pass.mem_only.mp first).2 ▸ mem_cons_self
    · exact mem_cons_of_mem _ b
  exact ensures_forM_mem (Reaches Compiled start) (fun pass mem st pre => ensures_runWith_reaches (fun
    _ => ensures_body_compiled pre (last pass mem)) fun _ => pre) compiled

/-- **A build hands every node of the order over once,** if folding constants does so for the constant
part. -/
theorem ensures_buildWith_compiles (folds : KeepsUncompiled s folding) (wf : s.program.Consistent)
    (ready : s.program.options.enables Pass.setUp.name ∨ s.program.Unset)
    (below : s.program.id < s.nextProgram) (optimizes : s.program.options.noOptimizations = false)
    (enabled : s.program.options.enables Pass.compileNodes.name) :
    Ensures (buildWith folding) s (fun _ next => Reaches Compiled s next) := by
  simp only [buildWith, ensures_bind, ensures_program, Pass.pipeline_compiling _ optimizes]
  rw [List.forM, ensures_bind]
  apply (ensures_setUp_reaches wf ready).weaken
  intro _ ready reaches
  rw [ensures_forM_append]
  apply (ensures_runEarly folds reaches fun _ => Pass.mem_beforeCompiling).weaken
  intro _ early reaches
  rw [List.forM, ensures_bind]
  have compiles : Ensures (runWith folding .compileNodes) early
      (fun _ next => Reaches JustCompiled s next) := by
    refine ensures_runWith_reaches (fun _ => ?_) fun disabled => ?_
    · exact (ensures_compileNodes_reaches below reaches).weaken fun _ _ h _ => h
    · rw [reaches.options] at disabled
      exact absurd enabled disabled
  apply compiles.weaken
  intro _ compiled reaches
  exact ensures_runLate below reaches _

/-! ## The constant part -/

variable {cp : Program}

/-- The build of a constant part hands every node of it over once. -/
theorem ensures_buildInternal_compiles (wf : s.program.Consistent) (made : copiedConstants s = .ok cp) :
    Ensures buildInternal (constantSession s cp)
      (fun _ fin => Reaches Compiled (constantSession s cp) fin) := by
  have isInner := isInner_constantSession wf made
  refine ensures_buildWith_compiles (fun _ h => h) isInner.consistent (.inl ?_) ?_ ?_ ?_
  · rw [isInner.options]
    rfl
  · rw [isInner.id]
    exact Nat.lt_succ_self _
  · rw [isInner.options]
    rfl
  · rw [isInner.options]
    rfl

/-- Folding constants hands over no node of the program itself, and every node of the constant part
once. -/
theorem keepsUncompiled_foldConstants (below : start.program.id < start.nextProgram) :
    KeepsUncompiled start (foldConstants buildInternal) := by
  intro s reaches
  rcases reaches.stage with unset | hs
  · apply (ensures_foldConstants_unset unset).weaken
    intro _ next e
    exact e ▸ reaches
  have folds : Ensures (foldConstants buildInternal) s
      (fun _ next => Reaches Uncompiled start next) s.surroundings.Excuses := by
    refine ensures_foldConstants_of (fun fin => fin.program.Sound ∧
      ∃ cp, copiedConstants s = .ok cp ∧ Reaches Compiled (constantSession s cp) fin) hs reaches ?_ ?_
    · intro cp made
      have isInner := isInner_constantSession hs.consistent made
      apply ((ensures_buildInternal isInner).and
        (ensures_buildInternal_compiles hs.consistent made)).weaken
      rintro _ fin ⟨⟨ready, readySound, -, rewrites, -⟩, compiled⟩
      exact ⟨rewrites.sound readySound, cp, made, compiled⟩
    · rintro fin ⟨soundInner, cp, made, compiled⟩
      have round : ∀ k st, Program.Sound st → st.contains k →
          st.settings = s.program.settings → Ensures (Edit.replaceByData k) st
            (fun _ next => next.settings = s.program.settings) Fault.SparesProgram := by
        intro k st kept hv e
        exact (ensures_replaceByData kept hv).weaken fun _ _ h => h.2.1.trans e
      apply (ensures_replaceAllByData (·.settings = s.program.settings) round hs rfl
        hs.consistent.boundaryConstants_nodup hs.consistent.boundaryConstants_live).weaken
      intro _ replaced kept
      refine ⟨kept.1, fun pruned last prep _ => ?_⟩
      have settings : pruned.settings = s.program.settings := prep.settings.trans kept.2
      obtain ⟨told, tells, uncompiled⟩ := reaches.told
      obtain ⟨innerTold, tellsInner, once⟩ := compiled.told
      have number := (isInner_constantSession hs.consistent made).id
      have pre : (constantSession s cp).trace.calls = s.trace.calls := rfl
      have next : start.Tells (foldedSession s fin pruned) (told ++ (innerTold ++ [.fold fin.program])) ∧
          handedOver start.program.id (innerTold ++ [.fold fin.program]) = [] := tells.fold below pre
          number rfl tellsInner compiled.id soundInner once rfl rfl
      refine ⟨.inr last, settings.trans reaches.settings, _, next.1, ?_⟩
      apply uncompiled_of_settings settings
      rw [Uncompiled] at uncompiled ⊢
      rw [handedOver_append, uncompiled, reaches.id, next.2, nil_append]
  exact folds.mono fun _ _ h => h

end Build

namespace Topology

variable {topology : Topology} {opts : Options} {env : Surroundings} {number : Nat}

/-- What can be seen of the constant part, when the build has been evaluated. -/
theorem exists_of_map_folded {res : BuildResult} {α : Type} {view : Program → α} {seen : α}
    (evaluates : res.trace.folded.map view = [seen]) :
    ∃ inner, .fold inner ∈ res.trace.calls ∧ view inner = seen := by
  have mem : seen ∈ res.trace.folded.map view := evaluates ▸ mem_cons_self
  obtain ⟨inner, folded, e⟩ := List.mem_map.mp mem
  obtain ⟨call, called, isInner⟩ := mem_filterMap.mp folded
  cases call with
  | compile p k => cases isInner
  | fold p =>
    cases isInner
    exact ⟨inner, called, e⟩

/-- An input that is convolved with weights that are computed from a constant buffer. -/
def convolvedInput : Topology where
  primitives := [
    .inputLayout "x" ⟨.bfyx, ⟨16, 1, 1, 1⟩, {}⟩,
    .data "w" ⟨.bfyx, ⟨1, 1, 1, 1⟩, {}⟩,
    { id := "s", kind := .activation .abs, inputs := ["w"] },
    { id := "c", kind := .convolution 1 ⟨⟨1, 1⟩, ⟨1, 1⟩, ⟨1, 1⟩, ⟨0, 0⟩⟩ none, inputs := ["x", "s"] }]

/-- A single input. -/
def loneInput : Topology where
  primitives := [.inputLayout "x" ⟨.bfyx, ⟨1, 1, 1, 1⟩, {}⟩]

end Topology

end LayerGraph
