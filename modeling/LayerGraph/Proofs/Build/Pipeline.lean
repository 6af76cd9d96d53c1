import LayerGraph.Build.Pipeline
import LayerGraph.Proofs.Pass.Constants
import LayerGraph.Proofs.Pass.Lowering

/-!
# The pipeline

After a pass the order is checked and a listing may be written. For a sound program the check finds
nothing, and the listing follows no key that names nothing. So a build of a program that has been
set up fails only for reasons that do not blame the program, or with what the backend answers.

The program of a constant part is set up and then rewritten by all further passes, since it folds no
constants itself (`Build.ensures_buildInternal`).
-/

namespace LayerGraph

open ProcessingOrder

namespace Program

variable {p : Program} {k : NodeKey}

/-! ## What follows a pass -/

/-- **The check after a pass finds nothing to complain about in a sound program.** -/
theorem HasCompleteOrder.firstMisplaced? (complete : p.HasCompleteOrder) :
    p.firstMisplaced? = none := by
  rw [Program.firstMisplaced?, List.find?_eq_none]
  intro k hl
  have nd := complete.nodup
  obtain ⟨pre, after, split, absent, -⟩ := exists_split nd hl
  have place := position?_append absent split
  simp only [isOrderCorrect, isCorrect, place, Bool.not_eq_true, Bool.not_eq_false',
    Bool.and_eq_true, List.all_eq_true]
  constructor
  · intro dep hr
    obtain ⟨earlier, later, foundEarlier, foundLater, smaller⟩ :=
      position?_lt nd (complete.before k dep hr)
    rw [place] at foundLater
    cases foundLater
    simpa [foundEarlier] using smaller
  · intro user hr
    obtain ⟨earlier, later, foundEarlier, foundLater, smaller⟩ :=
      position?_lt nd (complete.before user k (mem_users_iff.mp hr))
    rw [place] at foundEarlier
    cases foundEarlier
    simpa [foundLater] using smaller

variable {ks : List NodeKey}

theorem exists_idsOf (hv : ∀ k ∈ ks, p.contains k) : ∃ ids, p.idsOf ks = .ok ids := by
  induction ks with
  | nil => exact ⟨[], rfl⟩
  | cons k rest ih =>
    obtain ⟨n, hk⟩ := contains_iff.mp (hv k List.mem_cons_self)
    obtain ⟨ids, later⟩ := ih fun o mem => hv o (List.mem_cons_of_mem _ mem)
    rw [idsOf] at later ⊢
    rw [List.mapM_cons, nodeAt_of_node? hk, later]
    exact ⟨_, rfl⟩

theorem exists_listingLine (wf : p.Consistent) (full : Bool) (k : NodeKey)
    (n : Node) : ∃ line, p.listingLine full k n = .ok line := by
  obtain ⟨hr, foundReads⟩ := exists_idsOf fun dep mem =>
    (wf.reads_live k dep mem).1
  obtain ⟨readers, foundReaders⟩ := exists_idsOf fun user (mem : user ∈ p.users k) =>
    wf.users_live mem
  simp only [listingLine, lineDetails, foundReads, foundReaders, bind, Except.bind, pure, Except.pure]
  split
  · exact ⟨_, rfl⟩
  · exact ⟨_, rfl⟩

theorem exists_listingLines (wf : p.Consistent) (full : Bool) (kept : Option KindTag) (hv : ∀ k ∈ ks,
    p.contains k) : ∃ lines, p.listingLines full kept ks = .ok lines := by
  induction ks with
  | nil => exact ⟨"", rfl⟩
  | cons k rest ih =>
    obtain ⟨n, hk⟩ := contains_iff.mp (hv k List.mem_cons_self)
    obtain ⟨lines, later⟩ := ih fun o mem => hv o (List.mem_cons_of_mem _ mem)
    obtain ⟨line, made⟩ := exists_listingLine wf full k n
    simp only [listingLines, nodeAt_of_node? hk, later, made, bind, Except.bind, pure, Except.pure]
    split
    · exact ⟨_, rfl⟩
    · exact ⟨_, rfl⟩

/-- The listing of a consistent program is there. -/
theorem Consistent.exists_listing (wf : p.Consistent) (stage : String) (full : Bool)
    (kept : Option KindTag) : ∃ text, p.listing stage full kept = .ok text := by
  have hv : ∀ k ∈ p.order.toList ++ p.keys.filter fun k => !p.order.contains k, p.contains k := by
    intro k mem
    rcases List.mem_append.mp mem with hl | unlisted
    · exact wf.order_live k hl
    · exact wf.mem_keys.mp (List.mem_of_mem_filter unlisted)
  obtain ⟨lines, made⟩ := exists_listingLines wf full kept hv
  simp only [listing, made, bind, Except.bind]
  exact ⟨_, rfl⟩

end Program

namespace Build

open Program

variable {s : Session} {pass : Pass}

variable {failed : Fault → Prop}

theorem ensures_checkOrder (hs : s.program.Sound) (pass : Pass) : Ensures (checkOrder pass) s (fun _
    next => next = s) failed := by
  simp only [checkOrder, ensures_bind, ensures_program, hs.complete.firstMisplaced?]
  rfl

theorem ensures_refuseDump (reason : Option String) :
    Ensures (refuseDump reason) s (fun _ next => next = s) Fault.SparesProgram := by
  cases reason with
  | some text => exact nofun
  | none => rfl

/-- Writing a listing changes nothing that matters for the program. -/
theorem ensures_writeDump (hs : s.program.Sound) (pass : Pass) :
    Ensures (writeDump pass) s (fun _ next => next.program = s.program ∧
      s.Continues next) Fault.SparesProgram := by
  have e : s.program = s.program ∧ s.Continues s := ⟨rfl, .refl s⟩
  simp only [writeDump, ensures_bind, ensures_get]
  split
  · exact e
  next directory _ =>
  obtain ⟨text, made⟩ := hs.consistent.exists_listing pass.name true none
  rw [ensures_bind]
  refine (ensures_refuseDump _).weaken ?_
  rintro _ _ rfl
  simp only [ensures_bind, made, Checked.lift, ensures_pure]
  refine (ensures_refuseDump _).weaken ?_
  rintro _ _ rfl
  exact ⟨rfl, rfl, rfl⟩

/-! ## The passes -/

/-- **Every pass but the first one and the folding of constants rewrites a sound program.** -/
theorem ensures_body (hs : s.program.Sound) (folding : Build Unit)
    (notFirst : pass ≠ .setUp) (notFolding : pass ≠ .foldConstants) :
    Ensures (pass.body folding) s (fun _ next => s.Advances next) s.surroundings.Excuses := by
  cases pass with
  | setUp => exact absurd rfl notFirst
  | markNodes => exact ensures_markNodes hs
  | trim => exact ensures_trim hs
  | orderBreadthFirst =>
    rw [Pass.body, ensures_modifyProgram]
    exact ⟨⟨rfl, rfl⟩, .single .regrouped⟩
  | decideOutputSizes =>
    exact (ensures_decideOutputSizes hs).weaken fun _ next ⟨e, continues⟩ =>
      continues.advances e
  | fuseActivations => exact ensures_fuseActivations hs
  | prepareWindows => exact ensures_prepareWindows hs
  | dropReorders => exact ensures_dropReorders hs
  | foldConstants => exact absurd rfl notFolding
  | shareBuffers => exact ensures_shareBuffers
  | compileNodes =>
    simp only [Pass.body, compileNodes, ensures_bind, ensures_program]
    exact (ensures_compileNodes _).weaken fun _ next ⟨e, continues⟩ => continues.advances e
  | reorderInputs => exact ensures_reorderInputs hs
  | computeConflicts => exact ensures_computeConflicts hs
  | cleanUp => exact ensures_cleanUp hs

/-- A sound program is left, in the same surroundings. -/
def LeavesSound (session next : Session) : Prop :=
  next.program.Sound ∧ next.surroundings = session.surroundings

/-- What holds after the body of a pass holds after the pass, if it is about nothing else than the
program and what matters for its meaning. -/
theorem ensures_runWith {done : Session → Prop} (stable : ∀ pre after, after.program = pre.program
    → Session.Continues pre after → done pre → done after) (finishes : s.program.options.enables
    pass.name → Ensures (pass.body folding) s (fun _ next => LeavesSound s next ∧ done next)
    s.surroundings.Excuses) (skipped : ¬ s.program.options.enables pass.name → done s) : Ensures (runWith
    folding pass) s (fun _ next => done next) s.surroundings.Excuses := by
  simp only [runWith, ensures_bind, ensures_program]
  split
  · next enabled =>
    rw [ensures_bind]
    refine (finishes enabled).weaken ?_
    rintro _ next ⟨⟨hs, -⟩, holds⟩
    simp only [ensures_bind, ensures_modify]
    have counted : Program.Sound ({ next with runs := next.runs + 1 } : Session).program := hs
    refine (ensures_checkOrder counted pass).weaken ?_
    rintro _ _ rfl
    refine (ensures_writeDump counted pass).mono ?_ fun fault proper blames => absurd blames proper
    rintro _ last ⟨e, continues⟩
    exact stable next last e ⟨continues.surroundings, continues.folded⟩ holds
  · next disabled => exact stable s _ rfl ⟨rfl, rfl⟩ (skipped disabled)

variable {folding : Build Unit}

/-- What the body of a pass ensures of the program holds after the pass. -/
theorem ensures_runWith_program (holds : Program → Prop) (finishes : Ensures (pass.body folding) s
      (fun _ next => LeavesSound s next ∧ holds next.program) s.surroundings.Excuses)
    (skipped : ¬ s.program.options.enables pass.name → holds s.program) :
    Ensures (runWith folding pass) s (fun _ next => holds next.program) := by
  refine (ensures_runWith ?_ (fun _ => finishes) skipped).mono fun _ _ h => h
  intro pre after e _ h
  rwa [e]

/-- A pass that is part of the build or not. -/
theorem ensures_only {condition : Bool} (done : Session → Prop) (idle : ¬ condition → done s) (runs :
    condition → Ensures (runWith folding pass) s (fun _ next => done next) failed) : Ensures ((Pass.only
    condition pass).forM (runWith folding)) s (fun _ next => done next) failed := by
  cases condition with
  | false => exact idle Bool.false_ne_true
  | true => exact (ensures_forM_singleton pass).mpr (runs rfl)

/-- What folding constants has to do for a build to end well. -/
def KeepsSound (surroundings : Surroundings) (folding : Build Unit) : Prop :=
  ∀ s : Session, s.surroundings = surroundings → s.program.Sound →
    Ensures folding s (fun _ next => LeavesSound s next) surroundings.Excuses

theorem keepsSound_pure (env : Surroundings) : KeepsSound env (pure ()) :=
  fun _ _ hs => ⟨hs, rfl⟩

/-- The body of any pass leaves a sound program behind, and the first pass needs a consistent one
only. -/
theorem ensures_body_sound (keeps : KeepsSound s.surroundings folding)
    (ready : s.program.Sound ∨ pass = .setUp ∧ s.program.Consistent) :
    Ensures (pass.body folding) s (fun _ next => LeavesSound s next) s.surroundings.Excuses := by
  by_cases isFirst : pass = .setUp
  · subst isFirst
    have wf : s.program.Consistent := ready.elim (·.consistent) (·.2)
    exact (ensures_setUp wf).mono (fun _ _ ⟨hs, _, continues⟩ => ⟨hs, continues.surroundings⟩)
      fun fault proper blames => absurd blames proper
  have hs : s.program.Sound := ready.resolve_right fun a => isFirst a.1
  by_cases isFolding : pass = .foldConstants
  · subst isFolding
    exact keeps s rfl hs
  · exact (ensures_body hs folding isFirst isFolding).weaken fun _ next adv =>
      ⟨adv.rewrites.sound hs, adv.surroundings⟩

theorem ensures_runWith_sound (keeps : KeepsSound s.surroundings folding)
    (ready : s.program.Sound ∨ pass = .setUp ∧ s.program.Consistent ∧
      s.program.options.enables pass.name) :
    Ensures (runWith folding pass) s (fun _ next => LeavesSound s next) s.surroundings.Excuses := by
  refine ensures_runWith ?_ (fun enabled => ?_) fun disabled => ?_
  · rintro pre after e continues ⟨hs, env⟩
    exact ⟨e ▸ hs, continues.surroundings.trans env⟩
  · have left := ensures_body_sound keeps (ready.imp_right fun a => ⟨a.1, a.2.1⟩)
    exact left.weaken fun _ _ h => ⟨h, h⟩
  · exact ⟨ready.resolve_right fun a => disabled a.2.2, rfl⟩

theorem ensures_runAll (keeps : KeepsSound s.surroundings folding)
    (hs : s.program.Sound) (passes : List Pass) :
    Ensures (passes.forM (runWith folding)) s (fun _ next => LeavesSound s next)
      s.surroundings.Excuses := by
  refine ensures_forM_mem (LeavesSound s) ?_ ⟨hs, rfl⟩
  rintro pass - st ⟨kept, env⟩
  rw [← env] at keeps ⊢
  exact (ensures_runWith_sound keeps (.inl kept)).weaken fun _ next ⟨left, e⟩ =>
    ⟨left, e.trans env⟩

end Build

namespace Pass

/-- The passes after the first one. -/
def afterSetUp (options : Options) (isInternal : Bool) : List Pass :=
  (pipeline options isInternal).tail

theorem pipeline_eq (opts : Options) (isInternal : Bool) :
    pipeline opts isInternal = .setUp :: afterSetUp opts isInternal := rfl

/-- No pass runs twice. -/
theorem nodup_pipeline (opts : Options) (isInternal : Bool) : (pipeline opts isInternal).Nodup := by
  simp only [pipeline, optimizationPhase, finishingPhase]
  generalize (opts.queueType == .outOfOrder) = regroups
  generalize opts.optimizeData = optimizes
  generalize opts.enableMemoryPool = pools
  generalize opts.noOptimizations = plain
  revert regroups optimizes pools plain isInternal
  decide

theorem setUp_not_mem_afterSetUp (opts : Options) (isInternal : Bool) :
    setUp ∉ afterSetUp opts isInternal :=
  (List.nodup_cons.mp (pipeline_eq opts isInternal ▸ nodup_pipeline opts isInternal)).1

end Pass

namespace Build

open Program

variable {s : Session} {folding : Build Unit}

/-- **The build of a consistent program leaves a sound program behind.** -/
theorem ensures_buildWith (keeps : KeepsSound s.surroundings folding) (wf : s.program.Consistent)
    (enabled : s.program.options.enables Pass.setUp.name) :
    Ensures (buildWith folding) s (fun _ next => LeavesSound s next) s.surroundings.Excuses := by
  simp only [buildWith, ensures_bind, ensures_program, Pass.pipeline_eq]
  rw [List.forM, ensures_bind]
  refine (ensures_runWith_sound keeps (.inr ⟨rfl, wf, enabled⟩)).weaken ?_
  rintro _ next ⟨hs, env⟩
  rw [← env] at keeps ⊢
  refine (ensures_runAll keeps hs _).weaken ?_
  rintro _ last ⟨left, e⟩
  exact ⟨left, e.trans env⟩

variable {pass : Pass}

theorem ensures_runWith_advances (hs : s.program.Sound) (adv : Ensures (pass.body folding) s (fun
    _ next => s.Advances next) s.surroundings.Excuses) : Ensures (runWith folding pass) s (fun _ next =>
    s.Advances next) s.surroundings.Excuses := by
  refine ensures_runWith ?_ (fun _ => ?_) fun _ => .refl s
  · exact fun pre after e continues h =>
      ⟨h.toContinues.trans continues, e ▸ h.rewrites⟩
  · exact adv.weaken fun _ next h =>
      ⟨⟨h.rewrites.sound hs, h.surroundings⟩, h⟩

/-- A pass other than the first one and the folding of constants, whose body keeps something about a
sound program. -/
structure Keeps (folding : Build Unit) (holds : Program → Prop) (pass : Pass) : Prop where
  notFirst : pass ≠ .setUp
  notFolding : pass ≠ .foldConstants
  body : ∀ s : Session, s.program.Sound → holds s.program →
    Ensures (pass.body folding) s (fun _ next => holds next.program)

/-- What the body of a pass ensures holds after the pass. -/
theorem ensures_runWith_keeps (holds : Program → Prop) (hs : s.program.Sound) (notFirst : pass ≠
    .setUp) (notFolding : pass ≠ .foldConstants) (body : Ensures (pass.body folding) s (fun _ next =>
    holds next.program)) (skipped : ¬ s.program.options.enables pass.name → holds
    s.program) : Ensures (runWith folding pass) s (fun _ next => s.Advances next ∧ holds next.program) := by
  refine (ensures_runWith ?_ (fun _ => ?_) fun disabled => ?_).mono fun _ _ h => h
  · rintro pre after e continues ⟨adv, h⟩
    exact ⟨adv.trans (continues.advances e), e ▸ h⟩
  · refine ((ensures_body hs folding notFirst notFolding).and body).weaken ?_
    rintro _ next ⟨adv, h⟩
    exact ⟨⟨adv.rewrites.sound hs, adv.surroundings⟩, adv, h⟩
  · exact ⟨.refl s, skipped disabled⟩

theorem ensures_runAll_keeps {holds : Program → Prop} {passes : List Pass}
    (keeps : ∀ pass ∈ passes, Keeps folding holds pass) (hs : s.program.Sound)
    (start : holds s.program) : Ensures (passes.forM (runWith folding)) s
      (fun _ next => s.Advances next ∧ holds next.program) := by
  refine ensures_forM_mem (fun st => s.Advances st ∧ holds st.program)
    (fun pass mem st kept => ?_) ⟨.refl s, start⟩
  obtain ⟨adv, h⟩ := kept
  have soundHere := adv.rewrites.sound hs
  have keepsPass := keeps pass mem
  refine (ensures_runWith_keeps holds soundHere keepsPass.notFirst keepsPass.notFolding
    (keepsPass.body st soundHere h) fun _ => h).weaken ?_
  exact fun _ next later => ⟨adv.trans later.1, later.2⟩

/-- Setting a consistent program up makes it sound, and does what else the pass does. -/
theorem ensures_runWith_setUp_and (also : Program → Prop) (wf : s.program.Consistent)
    (enabled : s.program.options.enables Pass.setUp.name) {failed : Fault → Prop}
    (does : Ensures setUp s (fun _ next => also next.program) failed) :
    Ensures (runWith folding .setUp) s (fun _ next => (next.program.Sound ∧
      Prepares s.program next.program ∧ s.Continues next) ∧ also next.program)
      s.surroundings.Excuses := by
  refine ensures_runWith ?_ (fun _ => ?_) (absurd enabled)
  · rintro pre after e continues ⟨⟨hs, prep, h⟩, holds⟩
    exact ⟨⟨e ▸ hs, e ▸ prep, h.trans continues⟩, e ▸ holds⟩
  · refine ((ensures_setUp wf).and does).mono ?_ fun fault proper blames => absurd blames proper
    exact fun _ next h => ⟨⟨h.1.1, h.1.2.2.surroundings⟩, h⟩

theorem ensures_runWith_setUp (wf : s.program.Consistent) (enabled : s.program.options.enables
    Pass.setUp.name) : Ensures (runWith folding .setUp) s (fun _ next => next.program.Sound ∧ Prepares
    s.program next.program ∧ s.Continues next) s.surroundings.Excuses :=
  (ensures_runWith_setUp_and (fun _ => True) wf enabled ((ensures_setUp wf).weaken
    fun _ _ _ => trivial)).weaken fun _ _ h => h.1

/-- **The constant part of a program is set up and then only rewritten.** -/
theorem ensures_buildInternal {inner : Session} (isInner : IsInner s inner) :
    Ensures buildInternal inner (fun _ fin => ∃ ready : Program, ready.Sound ∧
      Prepares inner.program ready ∧ Rewrites ready fin.program ∧ inner.Continues fin)
      s.surroundings.Excuses := by
  have enabled : inner.program.options.enables Pass.setUp.name := by
    rw [isInner.options]
    rfl
  rw [← isInner.surroundings]
  simp only [buildInternal, buildWith, ensures_bind, ensures_program, Pass.pipeline_eq]
  rw [List.forM, ensures_bind]
  refine (ensures_runWith_setUp isInner.consistent enabled).weaken ?_
  rintro _ ready ⟨hs, prep, continues⟩
  have absent := Pass.setUp_not_mem_afterSetUp inner.program.options inner.program.isInternal
  rw [← continues.surroundings]
  refine (ensures_forM_mem ready.Advances (fun pass mem st pre => ?_) (.refl ready)).weaken fun _ fin
    kept => ⟨ready.program, hs, prep, kept.rewrites, continues.trans kept.toContinues⟩
  have kept := pre.rewrites.sound hs
  rw [← pre.surroundings]
  refine (ensures_runWith_advances kept ?_).weaken fun _ next step => pre.trans step
  by_cases isFolding : pass = .foldConstants
  · subst isFolding
    exact .refl st
  · exact ensures_body kept _ (ne_of_mem_of_not_mem mem absent) isFolding

/-- Folding constants with the build of the constant part leaves a sound program sound. -/
theorem ensures_foldConstants_buildInternal (hs : s.program.Sound) : Ensures (foldConstants
    buildInternal) s (fun _ next => next.program.Sound ∧ next.program.settings = s.program.settings ∧
    next.surroundings = s.surroundings) s.surroundings.Excuses :=
  ensures_foldConstants hs fun _ isInner =>
    (ensures_buildInternal isInner).weaken fun _ _ _ => trivial

theorem keepsSound_foldConstants (env : Surroundings) :
    KeepsSound env (foldConstants buildInternal) := by
  rintro s rfl hs
  apply (ensures_foldConstants_buildInternal hs).weaken
  intro _ _ h
  exact ⟨h.1, h.2.2⟩

end Build

end LayerGraph
