import LayerGraph.Proofs.Build.Alike
import LayerGraph.Proofs.Build.Foldable

/-!
# Builds of twins

Two sessions whose programs have the same network stay twins through all passes of a build, or both
builds fail (`Build.alike_build`). When the first pass is disabled, nothing happens until an order is
made, so twins have both been set up or neither (`Session.Underway`).

Before constants are folded it matters that constant nodes read only constant nodes, and that no id
that is reserved for constants is taken (`Program.Foldable`). The programs of the constant parts are
twins again.
-/

namespace LayerGraph

/-- There are no split layers. -/
def Network.Unsplit (net : Network) : Prop :=
  ∀ id cell, net.cell? id = some cell → cell.tag ≠ .split

/-- Nothing that matters for the passes to come has changed. -/
structure Session.Agrees (session next : Session) : Prop where
  program : next.program = session.program
  surroundings : next.surroundings = session.surroundings
  handling : next.outputSizeHandling = session.outputSizeHandling

variable {s o next last : Session} {fact : Program → Prop}

theorem Session.Twins.congr (tw : s.Twins o) (e : s.Agrees next) (sameToo : o.Agrees last) :
    next.Twins last where
  network := by rw [sameToo.program, e.program, tw.network]
  handling := by rw [sameToo.handling, e.handling, tw.handling]
  surroundings := by rw [sameToo.surroundings, e.surroundings, tw.surroundings]
  sees := e.surroundings ▸ tw.sees
  options := by rw [sameToo.program, e.program, tw.options]
  silent := by rw [e.program, tw.silent]

/-- Twins of which both have been set up or neither, and of whose programs something holds. -/
structure Session.Underway (fact : Program → Prop) (session other : Session) : Prop
    extends Session.Twins session other where
  stage : session.program.Unset ∧ other.program.Unset ∨ session.program.Sound ∧ other.program.Sound
  holds : fact session.program
  holdsToo : fact other.program

theorem Session.Underway.congr (underway : s.Underway fact o) (e : s.Agrees next) (sameToo : o.Agrees
    last) : next.Underway fact last where
  toTwins := underway.toTwins.congr e sameToo
  stage := by
    rw [e.program, sameToo.program]
    exact underway.stage
  holds := e.program ▸ underway.holds
  holdsToo := sameToo.program ▸ underway.holdsToo

theorem Session.Underway.consistent (underway : s.Underway fact o) : s.program.Consistent ∧
    o.program.Consistent := by
  rcases underway.stage with ⟨unset, unsetToo⟩ | ⟨hs, soundToo⟩
  · exact ⟨unset.consistent, unsetToo.consistent⟩
  · exact ⟨hs.consistent, soundToo.consistent⟩

namespace Build

open Program

variable {s o : Session} {folding : Build Unit} {pass : Pass} {fact : Program → Prop}
  {opts : Options}

/-! ## Running a pass -/

theorem ensures_checkOrder_iff (pass : Pass) : Ensures (checkOrder pass) s
    (fun _ next => next = s ∧ s.program.firstMisplaced? = none)
    fun _ => s.program.firstMisplaced? ≠ none := by
  simp only [checkOrder, ensures_bind, ensures_program]
  cases placed : s.program.firstMisplaced? with
  | none => exact ⟨rfl, rfl⟩
  | some k =>
    simp only [nodeAt, ensures_bind, ensures_edit, Edit.nodeAt, ensures_get]
    refine ensures_checked ?_ ?_
    · intro n _
      simp
    · intro _ _
      simp

theorem ensures_writeDump_silent (silent : s.program.options.dumpDirectory = none) (pass : Pass)
    {failed : Fault → Prop} : Ensures (writeDump pass) s (fun _ next => next = s) failed := by
  simp only [writeDump, ensures_bind, ensures_get, silent]
  rfl

/-- What comes after the body of a pass succeeds if every node stands at a correct place. -/
theorem ensures_followUp (silent : s.program.options.dumpDirectory = none) : Ensures (do
      modify fun s : Session => { s with runs := s.runs + 1 }
      checkOrder pass
      writeDump pass) s
      (fun _ after => s.program.firstMisplaced? = none ∧ s.Agrees after)
      fun _ => s.program.firstMisplaced? ≠ none := by
  simp only [ensures_bind, ensures_modify]
  apply (ensures_checkOrder_iff pass).weaken
  rintro _ next ⟨rfl, placed⟩
  have quiet : ({ s with runs := s.runs + 1 } : Session).program.options.dumpDirectory = none := silent
  apply (ensures_writeDump_silent quiet pass).weaken
  intro _ after e
  subst e
  exact ⟨placed, rfl, rfl, rfl⟩

/-- A pass ends alike when its body does, if the orders that are left are both in order or neither. -/
theorem alike_runWith {reached related : Session → Session → Prop}
    (opts : o.program.options = s.program.options)
    (body : EndsAlike (pass.body folding) s o reached)
    (silent : ∀ next last, reached next last → next.program.options.dumpDirectory = none ∧
      last.program.options.dumpDirectory = none)
    (placed : ∀ next last, reached next last → (next.program.firstMisplaced? = none ↔
      last.program.firstMisplaced? = none))
    (ended : ∀ next last after afterToo, reached next last → next.program.firstMisplaced? = none →
      next.Agrees after → last.Agrees afterToo → related after afterToo)
    (skipped : ¬ s.program.options.enables pass.name → ∀ {after afterToo},
      s.Agrees after → o.Agrees afterToo → related after afterToo) :
    EndsAlike (runWith folding pass) s o related := by
  rw [EndsAlike, runWith, alike_program, opts]
  split
  · next enabled =>
    apply alike_bind body
    intro _ next _ last h
    obtain ⟨quiet, quietToo⟩ := silent next last h
    apply alike_of_ensures (ensures_followUp quiet) (ensures_followUp quietToo)
    · intro _ after done failed
      exact failed ((placed next last h).mp done.1)
    · intro _ after done failed
      exact failed ((placed next last h).mpr done.1)
    · intro _ after _ afterToo done doneToo
      exact ended next last after afterToo h done.1 done.2 doneToo.2
  · next disabled => exact skipped disabled ⟨rfl, rfl, rfl⟩ ⟨rfl, rfl, rfl⟩

/-- A pass other than the first one and the folding of constants keeps a fact about programs. -/
structure KeepsFact (folding : Build Unit) (fact : Program → Prop) (pass : Pass) : Prop where
  notFirst : pass ≠ .setUp
  notFolding : pass ≠ .foldConstants
  body : ∀ s : Session, s.program.Sound → fact s.program →
    Ensures (pass.body folding) s (fun _ next => fact next.program)
  ordering : pass = .orderBreadthFirst → ∀ program, fact program → fact program.orderBreadthFirst

/-- A pass whose body leaves sound twins behind leaves them behind. -/
theorem alike_runWith_sound (opts : o.program.options = s.program.options)
    (body : EndsAlike (pass.body folding) s o fun next last =>
      next.SoundTwins last ∧ fact next.program ∧ fact last.program)
    (disabled : ¬ s.program.options.enables pass.name → s.Underway fact o) :
    EndsAlike (runWith folding pass) s o (Session.Underway fact) := by
  refine alike_runWith opts body ?_ ?_ ?_ fun skipped => (disabled skipped).congr
  · intro next last h
    exact ⟨h.1.silent, h.1.options ▸ h.1.silent⟩
  · intro next last h
    rw [h.1.sound.complete.firstMisplaced?, h.1.soundToo.complete.firstMisplaced?]
  · intro next last after afterToo h _ e sameToo
    have underway : next.Underway fact last :=
      ⟨h.1.toTwins, .inr ⟨h.1.sound, h.1.soundToo⟩, h.2.1, h.2.2⟩
    exact underway.congr e sameToo

/-- A pass whose body leaves definite twins behind leaves them behind. -/
theorem alike_runWith_exactly {next last : Session} (underway : s.Underway fact o)
    (body : EndsAlike (pass.body folding) s o fun left leftToo => left = next ∧ leftToo = last)
    (opts : next.program.options = s.program.options)
    (optionsToo : last.program.options = s.program.options)
    (placed : next.program.firstMisplaced? = none ↔ last.program.firstMisplaced? = none)
    (ended : next.program.firstMisplaced? = none → next.Underway fact last) :
    EndsAlike (runWith folding pass) s o (Session.Underway fact) := by
  refine alike_runWith underway.options body ?_ ?_ ?_ fun _ => underway.congr
  · rintro _ _ ⟨rfl, rfl⟩
    rw [opts, optionsToo]
    exact ⟨underway.silent, underway.silent⟩
  · rintro _ _ ⟨rfl, rfl⟩
    exact placed
  · rintro _ _ after afterToo ⟨rfl, rfl⟩ inPlace
    exact (ended inPlace).congr

section Underway

variable {fact : Program → Prop} (keeps : KeepsFact folding fact pass)
include keeps

theorem alike_run_sound (tw : s.SoundTwins o) (holds : fact s.program) (holdsToo : fact o.program) :
    EndsAlike (runWith folding pass) s o (Session.Underway fact) := by
  apply alike_runWith_sound tw.options
  · exact (alike_body tw folding keeps.notFirst keeps.notFolding).and
      (keeps.body s tw.sound holds) (keeps.body o tw.soundToo holdsToo)
  · exact fun _ => ⟨tw.toTwins, .inr ⟨tw.sound, tw.soundToo⟩, holds, holdsToo⟩

/-- Without cycles both programs are sound when an order has been made. -/
theorem alike_run_unset (tw : s.Twins o) (unset : s.program.Unset)
    (unsetToo : o.program.Unset) (holds : fact s.program) (holdsToo : fact o.program) :
    EndsAlike (runWith folding pass) s o (Session.Underway fact) := by
  have underway : s.Underway fact o := ⟨tw, .inl ⟨unset, unsetToo⟩, holds, holdsToo⟩
  by_cases ordering : pass = .orderBreadthFirst
  · subst ordering
    have body : EndsAlike (Pass.orderBreadthFirst.body folding) s o fun next last =>
        next = { s with program := s.program.orderBreadthFirst } ∧
          last = { o with program := o.program.orderBreadthFirst } := ⟨rfl, rfl⟩
    refine alike_runWith_exactly underway body rfl tw.options ?_ fun placed => ?_
    · rw [unset.firstMisplaced?_orderBreadthFirst, unsetToo.firstMisplaced?_orderBreadthFirst,
        tw.network]
    · have free := unset.firstMisplaced?_orderBreadthFirst.mp placed
      have sounds := unset.consistent.sound_orderBreadthFirst unset.unordered free
      have soundsToo := unsetToo.consistent.sound_orderBreadthFirst unsetToo.unordered
        (tw.network.symm ▸ free)
      exact ⟨⟨⟨tw.network, tw.handling⟩, tw.surroundings, tw.sees, tw.options,
        tw.silent⟩, .inr ⟨sounds, soundsToo⟩, keeps.ordering rfl _ holds,
        keeps.ordering rfl _ holdsToo⟩
  · have body : EndsAlike (pass.body folding) s o fun next last =>
        next = { s with outputSizeHandling := handlingAfter pass s } ∧
          last = { o with outputSizeHandling := handlingAfter pass o } := by
      apply alike_of_ensures (ensures_body_unset unset keeps.notFirst ordering keeps.notFolding)
        (ensures_body_unset unsetToo keeps.notFirst ordering keeps.notFolding) (fun _ _ _ => id)
        (fun _ _ _ => id)
      exact fun _ _ _ _ done doneToo => ⟨done, doneToo⟩
    have decided : handlingAfter pass o = handlingAfter pass s := by
      rw [handlingAfter, handlingAfter, tw.options, tw.handling]
    refine alike_runWith_exactly underway body rfl tw.options ?_ fun _ => ?_
    · rw [unset.firstMisplaced?, unsetToo.firstMisplaced?]
    · exact ⟨⟨⟨tw.network, decided⟩, tw.surroundings, tw.sees, tw.options, tw.silent⟩,
        underway.stage, holds, holdsToo⟩

theorem alike_run (underway : s.Underway fact o) :
    EndsAlike (runWith folding pass) s o (Session.Underway fact) := by
  rcases underway.stage with ⟨unset, unsetToo⟩ | ⟨hs, soundToo⟩
  · exact alike_run_unset keeps underway.toTwins unset unsetToo underway.holds underway.holdsToo
  · exact alike_run_sound keeps ⟨underway.toTwins, hs, soundToo⟩ underway.holds underway.holdsToo

end Underway

theorem alike_runAll {passes : List Pass}
    (keeps : ∀ pass ∈ passes, KeepsFact folding fact pass) (underway : s.Underway fact o) :
    EndsAlike (passes.forM (runWith folding)) s o (Session.Underway fact) :=
  alike_forM (fun pass mem _ _ => alike_run (keeps pass mem)) underway

/-! ## Setting up -/

/-- Without split layers, a program is set up by marking outputs, making an order and finding out the
layouts. -/
theorem setUp_eq (wf : s.program.Consistent) (unsplit : s.program.network.Unsplit) :
    setUp s = (do edit Edit.orderDepthFirst; edit Edit.refreshLayouts : Build Unit)
      { s with program := s.program.markSinks } := by
  have noSplits : s.program.splitKeys = [] := by
    rw [splitKeys, List.filter_eq_nil_iff]
    intro k hl isSplit
    obtain ⟨n, hk⟩ := contains_iff.mp (wf.mem_keys.mp hl)
    rw [hk] at isSplit
    exact unsplit n.id _ (wf.cell?_of_node? hk) (beq_iff_eq.mp isSplit)
  show (s.program.splitKeys.forM removeSplit >>= fun _ => do
    modifyProgram (·.markSinks)
    edit Edit.orderDepthFirst
    edit Edit.refreshLayouts : Build Unit) s = _
  rw [noSplits]
  rfl

/-- A first order is made for both programs or for neither. -/
theorem alike_orderDepthFirst (tw : s.Twins o) (wf : s.program.Consistent)
    (consistentToo : o.program.Consistent) :
    EndsAlike (edit Edit.orderDepthFirst) s o Session.SoundTwins := by
  have orders : ∀ {s : Session}, s.program.Consistent → Ensures (edit Edit.orderDepthFirst) s
        (fun _ next => next.program.Sound ∧ next.program.options = s.program.options ∧
          next.program.network = s.program.network ∧
          next.surroundings = s.surroundings ∧
          next.outputSizeHandling = s.outputSizeHandling)
        fun _ => ¬ s.program.network.Acyclic := by
    intro s wf
    rw [ensures_edit]
    apply wf.orderDepthFirst.weaken
    rintro _ next ⟨hs, -, order, rfl⟩
    exact ⟨hs, rfl, rfl, rfl, rfl⟩
  apply alike_of_ensures (orders wf) (orders consistentToo)
  · intro _ next h cyclic
    rw [tw.network, ← h.2.2.1] at cyclic
    exact cyclic h.1.acyclic
  · intro _ last h cyclic
    rw [← tw.network, ← h.2.2.1] at cyclic
    exact cyclic h.1.acyclic
  · intro _ next _ last h givenToo
    obtain ⟨hs, opts, network, env, handling⟩ := h
    obtain ⟨soundToo, optionsToo, networkToo, surroundingsToo, handlingToo⟩ := givenToo
    refine ⟨⟨⟨?_, ?_⟩, ?_, ?_, ?_, ?_⟩, hs, soundToo⟩
    · rw [network, networkToo, tw.network]
    · rw [handling, handlingToo, tw.handling]
    · rw [env, surroundingsToo, tw.surroundings]
    · rw [env]
      exact tw.sees
    · rw [opts, optionsToo, tw.options]
    · rw [opts, tw.silent]

/-- **Setting up ends alike on twins without split layers.** -/
theorem alike_setUp (tw : s.Twins o) (wf : s.program.Consistent)
    (consistentToo : o.program.Consistent) (unsplit : s.program.network.Unsplit) :
    EndsAlike setUp s o Session.SoundTwins := by
  have hm := Prepares.markSinks wf
  have markedToo := Prepares.markSinks consistentToo
  have markedTwins : Session.Twins { s with program := s.program.markSinks }
      { o with program := o.program.markSinks } := by
    refine ⟨⟨wf.network_markSinks consistentToo tw.network, tw.handling⟩,
      tw.surroundings, tw.sees, ?_, ?_⟩
    · rw [hm.2.options, markedToo.2.options, tw.options]
    · rw [hm.2.options, tw.silent]
  rw [EndsAlike, Alike, setUp_eq wf unsplit, setUp_eq consistentToo (tw.network ▸ unsplit)]
  apply alike_bind (alike_orderDepthFirst markedTwins hm.1 markedToo.1)
  intro _ next _ last ordered
  exact alike_advance ordered (alike_refreshLayouts ordered)
    (ensures_edit_refreshLayouts ordered.sound) (ensures_edit_refreshLayouts ordered.soundToo)

/-- The first pass ends alike. When it is disabled, twins must be left that have not been set up. -/
theorem alike_run_setUp (tw : s.Twins o)
    (wf : s.program.Consistent) (consistentToo : o.program.Consistent)
    (unsplit : s.program.network.Unsplit)
    (one : Ensures setUp s (fun _ next => fact next.program))
    (two : Ensures setUp o (fun _ last => fact last.program))
    (disabled : ¬ s.program.options.enables Pass.setUp.name → s.Underway fact o) :
    EndsAlike (runWith folding .setUp) s o (Session.Underway fact) := by
  apply alike_runWith_sound tw.options _ disabled
  exact (alike_setUp tw wf consistentToo unsplit).and one two

/-! ## Builds of constant parts -/

/-- A program has certain options. -/
abbrev HasOptions (options : Options) (program : Program) : Prop := program.options = options

theorem keepsFact_options (notFirst : pass ≠ .setUp) (notFolding : pass ≠ .foldConstants) :
    KeepsFact folding (HasOptions opts) pass where
  notFirst := notFirst
  notFolding := notFolding
  body _ hs e := (ensures_body hs folding notFirst notFolding).mono fun _ _ adv => adv.rewrites.options.trans e
  ordering _ _ e := e

variable {kept : Options} {cp copiedToo : Program}

/-- The passes around the folding of constants keep the options. -/
theorem keepsFact_around (mem : pass ∈ Pass.beforeFolding opts ++ Pass.afterFolding opts) : KeepsFact
    folding (HasOptions kept) pass := by
  have others : pass ∈ .markNodes :: Pass.reshaping ++
      [Pass.shareBuffers, .compileNodes, .reorderInputs, .computeConflicts, .cleanUp] := by
    rcases List.mem_append.mp mem with pre | after
    · exact List.mem_append_left _ (Pass.mem_beforeFolding pre)
    · exact List.mem_append_right _ (Pass.mem_afterFolding after)
  apply keepsFact_options
  · intro e
    subst e
    simp at others
  · intro e
    subst e
    simp at others

theorem ensures_setUp_options (wf : s.program.Consistent) :
    Ensures setUp s (fun _ next => next.program.options = s.program.options) :=
  (ensures_setUp wf).mono fun _ _ h => h.2.1.options

/-- **Builds of internal twins end alike.** -/
theorem alike_buildInternal (tw : s.Twins o) (wf : s.program.Consistent)
    (consistentToo : o.program.Consistent) (unsplit : s.program.network.Unsplit)
    (enabled : s.program.options.enables Pass.setUp.name)
    (isInternal : s.program.isInternal) (isInternalToo : o.program.isInternal) :
    EndsAlike buildInternal s o (Session.Underway (HasOptions s.program.options)) := by
  have passes : Pass.pipeline s.program.options true = .setUp ::
      (Pass.beforeFolding s.program.options ++ Pass.afterFolding s.program.options) := by
    rw [Pass.pipeline_cut]
    simp [Pass.only]
  rw [EndsAlike, buildInternal, buildWith, alike_program, tw.options, isInternal, isInternalToo,
    passes, List.forM]
  have starts : EndsAlike (runWith (pure ()) .setUp) s o (Session.Underway (HasOptions
      s.program.options)) := alike_run_setUp tw wf consistentToo unsplit (ensures_setUp_options wf)
      (tw.options ▸ ensures_setUp_options consistentToo) (absurd enabled)
  apply alike_bind starts
  intro _ next _ last underway
  exact alike_runAll (fun pass mem => keepsFact_around mem) underway

/-! ## Folding constants -/

theorem alike_takeNumber {α β : Type} {after : Nat → Build α} {afterToo : Nat → Build β}
    {related : α → Session → β → Session → Prop} :
    Alike (takeNumber >>= after) s (takeNumber >>= afterToo) o related ↔
      Alike (after s.nextProgram) { s with nextProgram := s.nextProgram + 1 }
        (afterToo o.nextProgram) { o with nextProgram := o.nextProgram + 1 } related :=
  Iff.rfl

/-- Builds of other programs end alike when they do on their own. -/
theorem alike_within {inner innerToo : Program} {build : Build Unit}
    {related : Program → Session → Program → Session → Prop}
    (alike : Alike build (innerSession s inner) build (innerSession o innerToo)
      fun _ fin _ finishedToo => related fin.program (outerSession s fin)
        finishedToo.program (outerSession o finishedToo)) :
    Alike (within inner build) s (within innerToo build) o related := by
  revert alike
  simp only [Alike, within]
  cases build (innerSession s inner) with
  | ok v fin =>
    cases build (innerSession o innerToo) with
    | ok m finishedToo => exact id
    | error fault finishedToo => exact id
  | error fault fin =>
    cases build (innerSession o innerToo) with
    | ok m finishedToo => exact id
    | error fault finishedToo => exact id

/-- Calls that get the same answer end alike. -/
theorem alike_call {req requestToo : BackendCall}
    (e : o.surroundings.backend.answer o.trace.calls requestToo =
      s.surroundings.backend.answer s.trace.calls req) :
    Alike (call req) s (call requestToo) o fun _ next _ last => s.Agrees next ∧ o.Agrees last := by
  have calls : ∀ (s : Session) (req : BackendCall), Ensures (call req) s
      (fun _ next => s.surroundings.backend.answer s.trace.calls req = .ok () ∧ s.Agrees next)
      fun _ => s.surroundings.backend.answer s.trace.calls req ≠ .ok () := by
    intro s req
    refine (ensures_call_answered req).mono ?_ ?_
    · rintro _ next ⟨accepted, rfl⟩
      exact ⟨accepted, rfl, rfl, rfl⟩
    · intro fault refused accepted
      rw [refused] at accepted
      cases accepted
  apply alike_of_ensures (calls s req) (calls o requestToo)
  · intro _ next done failed
    exact failed (e.trans done.1)
  · intro _ last done failed
    exact failed (e.symm.trans done.1)
  · intro _ next _ last done doneToo
    exact ⟨done.2, doneToo.2⟩

/-- **Replacing the boundary and removing what is left does to the network what is done to the
program.** -/
theorem yields_replaceConstants {p : Program} (isProgram : s.program = p)
    (hs : p.Sound) (ht : p.Attached) (regular : p.network.Regular) :
    Yields (do
      edit (p.boundaryConstants.forM Edit.replaceByData)
      edit (p.constantKeys.forM fun k => discard (Edit.prune k))) s
      ((Network.run Network.fold (p.boundaryConstants.map p.idOf) p.network).bind
        (Network.run Network.prune (p.constantKeys.map p.idOf))) := by
  subst isProgram
  rw [Yields, ensures_bind, ensures_edit]
  refine (hs.replaceBoundary ht).mono ?_ ?_
  · rintro _ next ⟨replaced, folded⟩
    rw [folded, Option.bind_some, ensures_edit]
    apply (ensures_pruneLeftovers replaced.sound.consistent hs.nodup_constantKeys _).weaken
    · intro _ last pruned
      exact ⟨pruned, rfl⟩
    · intro k mem
      obtain ⟨n, hk⟩ := contains_iff.mp (hs.constantKeys_live mem)
      apply replaced.isLeftover hk
      exact regular.isConstant ((hs.mem_constantKeys hk).mp mem) (hs.consistent.cell?_of_node? hk)
  · intro _ stopped
    rw [stopped, Option.bind_none]

/-- The constant parts of twins are twins. -/
theorem twins_constantSession (tw : s.SoundTwins o) (res : copiedConstants s = .ok cp)
    (resultToo : copiedConstants o = .ok copiedToo) :
    (constantSession s cp).Twins (constantSession o copiedToo) := by
  have isInner := isInner_constantSession tw.sound.consistent res
  have isInnerToo := isInner_constantSession tw.soundToo.consistent resultToo
  refine ⟨⟨?_, rfl⟩, tw.surroundings, tw.sees, ?_, ?_⟩
  · show (o.program.exposeBoundary o.program.boundaryConstants copiedToo).network =
      (s.program.exposeBoundary s.program.boundaryConstants cp).network
    rw [tw.sound.network_constants res, tw.soundToo.network_constants resultToo, tw.network]
  · rw [isInner.options, isInnerToo.options, tw.options]
  · rw [isInner.options]
    rfl

/-- Copies of nodes are no split layers, if the nodes are none. -/
theorem unsplit_constants {net : Network} (unsplit : net.Unsplit) : net.constants.Unsplit := by
  intro id c hc
  simp only [Network.constants] at hc
  split at hc
  · obtain ⟨orig, lookedOriginal, rfl⟩ := Option.map_eq_some_iff.mp hc
    show (copiedPrimitive orig.toNode).kind.tag ≠ .split
    rw [copiedPrimitive]
    split
    · exact KindTag.noConfusion
    · exact unsplit id orig lookedOriginal
  · cases hc

/-- There are computed constants in both programs or in neither. -/
theorem isEmpty_computedConstants (hs : s.program.Sound) (soundToo : o.program.Sound)
    (e : o.program.network = s.program.network) :
    o.program.computedConstants.isEmpty = s.program.computedConstants.isEmpty := by
  have empty : ∀ {p : Program}, p.Sound →
      (p.computedConstants.isEmpty ↔ ∀ id, ¬ p.network.Computed id) := by
    intro p hs
    rw [List.isEmpty_iff, List.eq_nil_iff_forall_not_mem]
    constructor
    · rintro none id ⟨c, hc, isComputed⟩
      obtain ⟨k, n, hk, rfl, rfl⟩ := hs.consistent.exists_node_of_cell? hc
      exact none k ((hs.mem_computedConstants hk).mpr ⟨_, hc, isComputed⟩)
    · intro none k mem
      obtain ⟨-, n, hk, -⟩ := mem_matching.mp mem
      exact none n.id ((hs.mem_computedConstants hk).mp mem)
  rw [Bool.eq_iff_iff, empty hs, empty soundToo, e]

/-- **The constant parts of twins are built alike.** -/
theorem alike_buildConstants (tw : s.SoundTwins o) (unsplit : s.program.network.Unsplit)
    (res : copiedConstants s = .ok cp) (resultToo : copiedConstants o = .ok copiedToo) :
    Alike buildInternal (constantSession s cp) buildInternal (constantSession o copiedToo)
      fun _ next _ last => next.Underway (HasOptions (constantSession s cp).program.options) last := by
  have isInner := isInner_constantSession tw.sound.consistent res
  have isInnerToo := isInner_constantSession tw.soundToo.consistent resultToo
  apply alike_buildInternal (twins_constantSession tw res resultToo) isInner.consistent
    isInnerToo.consistent
  · show (s.program.exposeBoundary s.program.boundaryConstants cp).network.Unsplit
    rw [tw.sound.network_constants res]
    exact unsplit_constants unsplit
  · rw [isInner.options]
    rfl
  · exact congrArg (·.2.2) isInner.settings
  · exact congrArg (·.2.2) isInnerToo.settings

theorem alike_foldConstants_matches (tw : s.SoundTwins o)
    (regular : s.program.network.Regular) (ht : s.program.Attached)
    (attachedToo : o.program.Attached) (unsplit : s.program.network.Unsplit) :
    EndsAlike (foldConstants buildInternal) s o Session.Matches := by
  have hs := tw.sound
  have soundToo := tw.soundToo
  rw [EndsAlike, foldConstants, alike_program, hs.consistent.constantPart,
    soundToo.consistent.constantPart]
  simp only [Checked.lift, pure_bind, isEmpty_computedConstants hs soundToo tw.network]
  cases s.program.computedConstants.isEmpty with
  | true => exact alike_pure tw.toMatches
  | false =>
    simp only [Bool.false_eq_true, if_false]
    rw [alike_takeNumber]
    apply alike_bind (alike_error _)
    · rintro cp next copiedToo last ⟨⟨res, rfl⟩, resultToo, rfl⟩
      have built : Alike (within (s.program.exposeBoundary s.program.boundaryConstants cp)
            buildInternal) { s with nextProgram := s.nextProgram + 1 } (within (o.program.exposeBoundary
            o.program.boundaryConstants copiedToo) buildInternal) { o with nextProgram := o.nextProgram +
            1 } fun built next builtToo last => (∀ id, builtToo.hasId id = built.hasId id) ∧ s.Agrees
            next ∧ o.Agrees last := by
        apply alike_within
        apply (alike_buildConstants tw unsplit res resultToo).mono
        intro _ fin _ finishedToo underway
        obtain ⟨wf, consistentToo⟩ := underway.consistent
        exact ⟨hasId_congr wf consistentToo underway.network, ⟨rfl, rfl, rfl⟩, rfl, rfl, rfl⟩
      apply alike_bind built
      rintro built next builtToo last ⟨sameIds, agrees, agreesToo⟩
      apply alike_bind (alike_call _)
      · rintro _ asked _ askedToo ⟨e, sameToo⟩
        apply alike_of_yields
        · rw [sameToo.handling, agreesToo.handling, e.handling, agrees.handling, tw.handling]
        · exact yields_replaceConstants (e.program.trans agrees.program) hs ht regular
        · exact yields_replaceConstants (sameToo.program.trans agreesToo.program) soundToo
            attachedToo (tw.network ▸ regular)
        · exact hs.run_fold_prune_eq soundToo tw.network
      · rw [agrees.surroundings, agreesToo.surroundings, tw.surroundings]
        exact tw.sees.fold _ _ _ _ sameIds
    · rw [hs.exists_ofNodes_iff, soundToo.exists_ofNodes_iff, tw.network]

/-- **Constants are folded alike in twins.** -/
theorem alike_foldConstants (tw : s.SoundTwins o)
    (foldable : s.program.Foldable) (foldableToo : o.program.Foldable) :
    EndsAlike (foldConstants buildInternal) s o Session.SoundTwins := by
  have matched := alike_foldConstants_matches tw foldable.regular foldable.attached
    foldableToo.attached fun _ _ hc => foldable.unsplit.cell? tw.sound.consistent hc
  apply (matched.and (ensures_foldConstants_buildInternal tw.sound)
    (ensures_foldConstants_buildInternal tw.soundToo)).mono
  intro _ next _ last h
  obtain ⟨e, ⟨hs, settings, env⟩, soundToo, settingsToo, surroundingsToo⟩ := h
  refine ⟨⟨e, ?_, ?_, ?_, ?_⟩, hs, soundToo⟩
  · rw [env, surroundingsToo, tw.surroundings]
  · rw [env]
    exact tw.sees
  · rw [options_of_settings settings, options_of_settings settingsToo, tw.options]
  · rw [options_of_settings settings, tw.silent]

theorem alike_run_foldConstants (underway : s.Underway (fun p => Foldable p ∧ p.options = opts) o) :
    EndsAlike (run .foldConstants) s o (Session.Underway (HasOptions opts)) := by
  have idle : s.Underway (HasOptions opts) o :=
    ⟨underway.toTwins, underway.stage, underway.holds.2, underway.holdsToo.2⟩
  rcases underway.stage with ⟨unset, unsetToo⟩ | ⟨hs, soundToo⟩
  · have body : EndsAlike (foldConstants buildInternal) s o fun next last =>
        next = s ∧ last = o := by
      apply alike_of_ensures (ensures_foldConstants_unset unset)
        (ensures_foldConstants_unset unsetToo) (fun _ _ _ => id) (fun _ _ _ => id)
      exact fun _ _ _ _ done doneToo => ⟨done, doneToo⟩
    refine alike_runWith_exactly idle body rfl underway.options ?_ fun _ => idle
    rw [unset.firstMisplaced?, unsetToo.firstMisplaced?]
  · apply alike_runWith_sound underway.options _ fun _ => idle
    have tw : s.SoundTwins o := ⟨underway.toTwins, hs, soundToo⟩
    apply ((alike_foldConstants tw underway.holds.1 underway.holdsToo.1).and
      (ensures_foldConstants_buildInternal hs) (ensures_foldConstants_buildInternal soundToo)).mono
    rintro _ next _ last ⟨left, folded, foldedToo⟩
    exact ⟨left, (options_of_settings folded.2.1).trans underway.holds.2,
      (options_of_settings foldedToo.2.1).trans underway.holdsToo.2⟩

/-! ## The whole build -/

theorem keepsFact_foldable (mem : pass ∈ Pass.beforeFolding opts) : KeepsFact folding (fun p => Foldable
    p ∧ p.options = kept) pass := by
  have keeps : KeepsFact folding (HasOptions kept) pass :=
    keepsFact_around (List.mem_append_left (Pass.afterFolding opts) mem)
  refine ⟨keeps.notFirst, keeps.notFolding, fun s hs h => ?_, fun _ _ h =>
    ⟨⟨h.1.regular, h.1.attached, h.1.unsplit⟩, h.2⟩⟩
  obtain ⟨foldable, e⟩ := h
  have regular : Ensures (pass.body folding) s (fun _ next => next.program.network.Regular) := ensures_body_regular hs foldable.regular (Pass.mem_beforeFolding mem)
  apply (regular.and (ensures_body hs folding keeps.notFirst keeps.notFolding)).weaken
  intro _ next h
  have rewrites := h.2.rewrites
  exact ⟨⟨h.1, rewrites.attached hs foldable.attached, rewrites.hasKinds hs (fun _ =>
    KindTag.noConfusion) foldable.unsplit⟩, rewrites.options.trans e⟩

/-- Constants are folded alike, if they are folded at all. -/
theorem alike_runOnly {folds : Bool} (underway : s.Underway
      (fun p => Foldable p ∧ p.options = opts) o) :
    EndsAlike ((Pass.only folds .foldConstants).forM run) s o
      (Session.Underway (HasOptions opts)) := by
  cases folds with
  | false => exact ⟨underway.toTwins, underway.stage, underway.holds.2, underway.holdsToo.2⟩
  | true =>
    apply alike_bind (alike_run_foldConstants underway)
    exact fun _ _ _ _ h => alike_pure h

/-- **Builds of fresh twins end alike.** -/
theorem alike_build (tw : s.Twins o) (fr : s.program.Fresh)
    (freshToo : o.program.Fresh) (external : s.program.isInternal = false)
    (externalToo : o.program.isInternal = false) :
    EndsAlike build s o (Session.Underway (HasOptions s.program.options)) := by
  rw [EndsAlike, build, buildWith, alike_program, tw.options, external, externalToo,
    Pass.pipeline_cut, List.forM]
  have unsplit : s.program.network.Unsplit := fun _ _ hc => fr.unsplit.cell? fr.consistent hc
  have sets : ∀ {s : Session}, s.program.Fresh → Ensures setUp s (fun _ next =>
      Foldable next.program ∧ next.program.options = s.program.options) :=
    fun fr => (ensures_setUp_foldable fr).and (ensures_setUp_options fr.consistent)
  have starts : EndsAlike (run .setUp) s o (Session.Underway fun p =>
      Foldable p ∧ p.options = s.program.options) :=
    alike_run_setUp tw fr.consistent freshToo.consistent unsplit (sets fr)
      (tw.options ▸ sets freshToo) fun _ => ⟨tw, .inl ⟨fr.toUnset, freshToo.toUnset⟩,
        ⟨fr.foldable, rfl⟩, freshToo.foldable, tw.options⟩
  apply alike_bind starts
  intro _ ready _ readyToo started
  apply alike_forM_append (alike_runAll (fun pass mem => keepsFact_foldable mem) started)
  intro hm markedToo underway
  apply alike_forM_append (alike_runOnly underway)
  intro folded foldedToo left
  exact alike_runAll (fun pass mem => keepsFact_around (List.mem_append_right _ mem)) left

end Build

end LayerGraph
