import LayerGraph.Proofs.Build.CompleteOrder
import Mathlib

/-!
# Memory dependencies of finished programs

Computing the memory dependencies of a program for a second time changes nothing
(`HasCurrentConflicts`), and neither do they depend on layouts, which the last pass computes anew. So
the memory dependencies of a finished program are up to date, unless the build is one for debugging:
then the last pass makes nodes outputs, after their buffers have been decided on. What is noted are
the conflicts of the program as it was before (`Program.exposed`).
-/

namespace LayerGraph

open List Option

namespace Program

variable {p q : Program} {k : NodeKey} {strat : MemoryStrategy}

/-! ## What memory dependencies depend on -/

section Roles

variable (alters : Alters Node.role p q)

include alters

theorem alters_role_buffersFrom (skipInPlace : Bool) (pos : Nat) (ks : List NodeKey) :
    q.buffersFrom skipInPlace pos ks = p.buffersFrom skipInPlace pos ks := by
  induction ks generalizing pos with
  | nil => rfl
  | cons k rest ih =>
    rcases alters_role_cases alters k with ⟨gone, goneAfter⟩ | ⟨n, after, hk, foundAfter, tag,
      place, buffers⟩
    · simp only [buffersFrom, nodeAt, gone, goneAfter, bind, Except.bind]
    · simp only [buffersFrom, nodeAt_of_node? hk, nodeAt_of_node? foundAfter, ih, tag, place,
        buffers, bind, Except.bind]

/-- Conflicts depend on nothing else in a node than its role. -/
theorem alters_role_conflictingPairs (strat : MemoryStrategy) :
    q.conflictingPairs strat = p.conflictingPairs strat := by
  have order : q.order = p.order := by rw [alters.rest]
  simp only [conflictingPairs, buffers, alters_role_buffersFrom alters, order,
    alters_role_ancestors alters]

end Roles

/-! ## Computing them again -/

/-- Computing the memory dependencies anew changes nothing. -/
def HasCurrentConflicts (program : Program) (strategy : MemoryStrategy) : Prop :=
  Edit.computeConflicts strategy program = .ok () program

/-- What is computed starts from a program in which nothing is noted. -/
theorem computeConflicts_cases (p : Program) (strat : MemoryStrategy) :
    Edit.computeConflicts strat p = match p.conflictingPairs strat with
      | .ok pairs => .ok () (p.clearConflicts.noteConflicts pairs)
      | .error cause => .error (.aborted cause) p.clearConflicts := by
  have cleared := alters_role_conflictingPairs (noted_clearConflicts p).roles strat
  rw [Edit.computeConflicts]
  show ((p.clearConflicts.conflictingPairs strat).lift >>= _) p.clearConflicts = _
  rw [cleared]
  cases p.conflictingPairs strat with
  | ok pairs => rfl
  | error cause => rfl

/-- The memory dependencies are up to date when they are those that are noted from the beginning. -/
theorem hasCurrentConflicts_iff : p.HasCurrentConflicts strat ↔ ∃ pairs,
    p.conflictingPairs strat = .ok pairs ∧ p.clearConflicts.noteConflicts pairs = p := by
  rw [HasCurrentConflicts, computeConflicts_cases]
  cases p.conflictingPairs strat with
  | ok pairs => simp
  | error cause => simp

theorem clearConflicts_modifyNode (p : Program) (k : NodeKey) {change : Node → Node}
    (keeps : ∀ n, (change n).withoutConflicts = n.withoutConflicts) :
    (p.modifyNode k change).clearConflicts = p.clearConflicts := by
  have cells : (p.store.cells.modify k (Option.map change)).map (Option.map Node.withoutConflicts) =
      p.store.cells.map (Option.map Node.withoutConflicts) := by
    apply ext_getElem?
    intro place
    rw [getElem?_map, getElem?_modify, getElem?_map]
    split
    · cases p.store.cells[place]? with
      | none => rfl
      | some c =>
        cases c with
        | none => rfl
        | some n => simp [keeps]
    · simp
  simp only [clearConflicts, modifyNode, NodeStore.modify, NodeStore.map]
  rw [show (fun n : Node => { n with conflicts := [] }) = Node.withoutConflicts from rfl, cells]

theorem clearConflicts_noteConflicts (p : Program) (pairs : List (NodeKey × NodeKey)) :
    (p.noteConflicts pairs).clearConflicts = p.clearConflicts := by
  induction pairs generalizing p with
  | nil => rfl
  | cons pair rest ih =>
    have step : (p.addConflict pair.1 pair.2).clearConflicts = p.clearConflicts := by
      rw [addConflict]
      split
      · rfl
      · split
        · refine (clearConflicts_modifyNode _ _ ?_).trans (clearConflicts_modifyNode _ _ ?_)
          · exact fun _ => rfl
          · exact fun _ => rfl
        · rfl
    exact (ih (p.addConflict pair.1 pair.2)).trans step

theorem clearConflicts_clearConflicts (p : Program) :
    p.clearConflicts.clearConflicts = p.clearConflicts := by
  simp only [clearConflicts, NodeStore.map, List.map_map, Option.map_comp_map]
  rfl

/-- **The memory dependencies are up to date once they have been computed.** -/
theorem hasCurrentConflicts_of_computeConflicts (hc : Edit.computeConflicts strat p = .ok () q) :
    q.HasCurrentConflicts strat := by
  rw [computeConflicts_cases] at hc
  cases hk : p.conflictingPairs strat with
  | error cause =>
    rw [hk] at hc
    cases hc
  | ok pairs =>
    rw [hk] at hc
    obtain ⟨-, rfl⟩ := EStateM.Result.ok.inj hc
    rw [hasCurrentConflicts_iff]
    refine ⟨pairs, ?_, ?_⟩
    · exact (alters_role_conflictingPairs (noted_noteConflicts p pairs).roles strat).trans hk
    · rw [clearConflicts_noteConflicts, clearConflicts_clearConflicts]

/-! ## Layouts -/

/-- A change of a node that neither shows in the conflicts nor touches the notes about them. -/
structure LeavesConflicts (change : Node → Node) : Prop where
  id : ∀ node, (change node).id = node.id
  role : ∀ node, (change node).role = node.role
  conflicts : ∀ node ids, change { node with conflicts := ids } = { change node with conflicts := ids }
  noted : ∀ node, (change node).conflicts = node.conflicts

theorem leavesConflicts_withLayout (lay : Option Layout) : LeavesConflicts (·.withLayout lay) :=
  ⟨fun _ => rfl, fun _ => rfl, fun _ _ => rfl, fun _ => rfl⟩

theorem modifyNode_modifyNode_comm (p : Program) (a b : NodeKey)
    {one o : Node → Node} (commute : ∀ n, one (o n) = o (one n)) :
    (p.modifyNode a one).modifyNode b o = (p.modifyNode b o).modifyNode a one := by
  have cells : (p.store.cells.modify a (Option.map one)).modify b (Option.map o) =
        (p.store.cells.modify b (Option.map o)).modify a (Option.map one) := by
    apply ext_getElem?
    intro place
    simp only [getElem?_modify]
    cases p.store.cells[place]? with
    | none => simp
    | some c =>
      cases c with
      | none => split <;> split <;> simp
      | some n => split <;> split <;> simp [commute]
  simp only [modifyNode, NodeStore.modify, cells]

section Changes

variable {change : Node → Node} (leaves : LeavesConflicts change)

include leaves

theorem clearConflicts_change (p : Program) (k : NodeKey) :
    (p.modifyNode k change).clearConflicts = p.clearConflicts.modifyNode k change := by
  have cells : (p.store.cells.modify k (Option.map change)).map (Option.map Node.withoutConflicts) =
      (p.store.cells.map (Option.map Node.withoutConflicts)).modify k (Option.map change) := by
    apply ext_getElem?
    intro place
    simp only [getElem?_map, getElem?_modify]
    cases p.store.cells[place]? with
    | none => simp
    | some c =>
      cases c with
      | none => split <;> rfl
      | some n =>
        split
        · exact congrArg (fun n => some (some n)) (leaves.conflicts n []).symm
        · rfl
  simp only [clearConflicts, modifyNode, NodeStore.modify, NodeStore.map]
  rw [show (fun n : Node => { n with conflicts := [] }) = Node.withoutConflicts from rfl, cells]

theorem addConflict_change (p : Program) (k a b : NodeKey) :
    (p.modifyNode k change).addConflict a b = (p.addConflict a b).modifyNode k change := by
  have ids : ∀ o, ((p.modifyNode k change).node? o).map Node.id = (p.node? o).map Node.id := by
    intro o
    rw [node?_modifyNode]
    split
    · rw [Option.map_map]
      exact congrArg (fun view => (p.node? o).map view) (funext leaves.id)
    · rfl
  have commute : ∀ id n, change (Node.withConflict n id) = (change n).withConflict id := by
    intro id n
    rw [Node.withConflict, leaves.conflicts, Node.withConflict, leaves.noted]
  have notes : ∀ (st : Program) o id, (st.modifyNode k change).modifyNode o (·.withConflict id) =
      (st.modifyNode o (·.withConflict id)).modifyNode k change := fun st o id =>
    modifyNode_modifyNode_comm st k o (commute id)
  have firstId := ids a
  have secondId := ids b
  rw [addConflict, addConflict]
  split
  · rfl
  · cases foundFirst : p.node? a with
    | none =>
      rw [foundFirst, map_none, map_eq_none_iff] at firstId
      rw [firstId]
    | some one =>
      rw [foundFirst, map_some, map_eq_some_iff] at firstId
      obtain ⟨oneAfter, foundFirstAfter, sameFirst⟩ := firstId
      cases foundSecond : p.node? b with
      | none =>
        rw [foundSecond, map_none, map_eq_none_iff] at secondId
        simp only [foundFirstAfter, secondId]
      | some o =>
        rw [foundSecond, map_some, map_eq_some_iff] at secondId
        obtain ⟨otherAfter, foundSecondAfter, sameSecond⟩ := secondId
        simp only [foundFirstAfter, foundSecondAfter, sameFirst, sameSecond, notes]

theorem noteConflicts_change (p : Program) (k : NodeKey) (pairs : List (NodeKey × NodeKey)) :
    (p.modifyNode k change).noteConflicts pairs = (p.noteConflicts pairs).modifyNode k change := by
  induction pairs generalizing p with
  | nil => rfl
  | cons pair rest ih =>
    have step := addConflict_change leaves p k pair.1 pair.2
    calc (p.modifyNode k change).noteConflicts (pair :: rest) = ((p.addConflict pair.1 pair.2).modifyNode
        k change).noteConflicts rest := congrArg (noteConflicts · rest) step
      _ = (p.noteConflicts (pair :: rest)).modifyNode k change := ih _

theorem HasCurrentConflicts.modifyNode (current : p.HasCurrentConflicts strat)
    (k : NodeKey) : (p.modifyNode k change).HasCurrentConflicts strat := by
  obtain ⟨pairs, hk, noted⟩ := hasCurrentConflicts_iff.mp current
  have alters : Alters Node.role p (p.modifyNode k change) := .modifyNode p k leaves.role
  rw [hasCurrentConflicts_iff]
  refine ⟨pairs, ?_, ?_⟩
  · rw [alters_role_conflictingPairs alters, hk]
  · rw [clearConflicts_change leaves, noteConflicts_change leaves, noted]

end Changes

/-- Computing layouts anew leaves the memory dependencies up to date. -/
theorem HasCurrentConflicts.ensures_refreshLayouts
    (current : p.HasCurrentConflicts strat) (wf : p.Consistent) :
    Ensures Edit.refreshLayouts p (fun _ q => q.HasCurrentConflicts strat) := by
  exact (ensures_refreshLayouts_keeps (·.HasCurrentConflicts strat) wf current
    fun _ k lay pre => pre.modifyNode (leavesConflicts_withLayout lay) k).mono fun _ _ h => h.2

/-! ## Debugging -/

/-- The program with a node made an output, unless it is a constant buffer. -/
def exposeNode (program : Program) (key : NodeKey) : Program :=
  if program.isConstantBuffer key then program else program.setOutput key true

/-- The program with all nodes of the order made outputs, except for constant buffers. -/
def exposed (program : Program) : Program := program.order.toList.foldl exposeNode program

theorem ensures_expose_eq (p : Program) (k : NodeKey) :
    Ensures (Edit.expose k) p (fun _ q => q = p.exposeNode k) := by
  cases hk : p.node? k with
  | none =>
    simp only [Edit.expose, Edit.nodeAt, ensures_bind, ensures_get, nodeAt, hk, Checked.lift,
      ensures_throw]
  | some n =>
    simp only [Edit.expose, ensures_bind, ensures_nodeAt hk, exposeNode, isConstantBuffer, hk, any_some]
    split
    · rfl
    · rfl

theorem ensures_exposeAll (p : Program) (ks : List NodeKey) :
    Ensures (ks.forM Edit.expose) p (fun _ q => q = ks.foldl exposeNode p) := by
  induction ks generalizing p with
  | nil => rfl
  | cons k rest ih =>
    rw [List.forM, ensures_bind]
    refine (ensures_expose_eq p k).weaken ?_
    rintro _ _ rfl
    exact ih (p.exposeNode k)

end Program

namespace Build

open Program

variable {s : Session}

/-! ## The last two passes -/

/-- What a finished program is, given the options of its build. -/
def FinishesCurrent (options : Options) (finished : Program) : Prop :=
  ∃ settled : Program, settled.HasCurrentConflicts options.memoryStrategy ∧
    finished = if options.debug then settled.exposed else settled

section

variable (hs : s.program.Sound)

include hs

variable {opts : Options}

theorem ensures_cleanUp_current (e : s.program.options = opts) (current : s.program.HasCurrentConflicts
    opts.memoryStrategy) : Ensures cleanUp s (fun _ next => FinishesCurrent opts next.program) fun _ =>
    True := by
  simp only [cleanUp, ensures_bind, ensures_edit]
  have settles := (current.ensures_refreshLayouts hs.consistent).and
    (ensures_refreshLayouts hs.consistent)
  refine settles.weaken ?_
  rintro _ mid ⟨settled, ann⟩
  have sameMiddle : mid.options = opts := by rw [ann.rest, ← e]
  rw [ensures_program, sameMiddle]
  split
  · next debug =>
    rw [ensures_edit]
    refine (ensures_exposeAll mid mid.order.toList).weaken ?_
    rintro _ _ rfl
    exact ⟨mid, settled, by rw [if_pos debug]; rfl⟩
  · next plain => exact ⟨mid, settled, by rw [if_neg plain]⟩

/-- A pass after the first one leaves a sound program, and its options as they are. -/
theorem ensures_runWith_options {pass : Pass} (notFirst : pass ≠ .setUp) :
    Ensures (runWith (foldConstants buildInternal) pass) s (fun _ next =>
      next.program.Sound ∧ next.program.options = s.program.options) := by
  refine ensures_runWith_program (fun next => next.Sound ∧ next.options = s.program.options) ?_
    fun _ => ⟨hs, rfl⟩
  by_cases isFolding : pass = .foldConstants
  · subst isFolding
    apply (ensures_foldConstants_buildInternal hs).weaken
    intro _ next h
    exact ⟨⟨h.1, h.2.2⟩, h.1, options_of_settings h.2.1⟩
  · refine (ensures_body hs _ notFirst isFolding).weaken fun _ next adv => ?_
    have left := adv.rewrites.sound hs
    exact ⟨⟨left, adv.surroundings⟩, left, adv.rewrites.options⟩

theorem ensures_runAll_options {passes : List Pass} (notFirst : Pass.setUp ∉ passes) :
    Ensures (passes.forM (runWith (foldConstants buildInternal))) s (fun _ next =>
      next.program.Sound ∧ next.program.options = s.program.options) := by
  refine ensures_forM_mem (fun st : Session => st.program.Sound ∧
    st.program.options = s.program.options) ?_ ⟨hs, rfl⟩
  rintro pass mem st ⟨kept, opts⟩
  exact (ensures_runWith_options kept (ne_of_mem_of_not_mem mem notFirst)).weaken
    fun _ next h => ⟨h.1, h.2.trans opts⟩

theorem ensures_runWith_computeConflicts
    (enabled : s.program.options.enables Pass.computeConflicts.name) :
    Ensures (runWith (foldConstants buildInternal) .computeConflicts) s (fun _ next =>
      next.program.Sound ∧ next.program.options = s.program.options ∧
      next.program.HasCurrentConflicts s.program.options.memoryStrategy) := by
  refine ensures_runWith_program (fun next => next.Sound ∧ next.options = s.program.options ∧
    next.HasCurrentConflicts s.program.options.memoryStrategy) ?_ (absurd enabled)
  have computes : Ensures computeConflicts s (fun _ next =>
      next.program.HasCurrentConflicts s.program.options.memoryStrategy) := by
    simp only [computeConflicts, ensures_bind, ensures_program, ensures_edit]
    refine (Program.ensures_computeConflicts hs.consistent _).with_ok.weaken ?_
    exact fun _ _ h => hasCurrentConflicts_of_computeConflicts h.1
  apply ((ensures_computeConflicts hs).and computes).weaken
  rintro _ next ⟨adv, current⟩
  have left := adv.rewrites.sound hs
  exact ⟨⟨left, adv.surroundings⟩, left, adv.rewrites.options, current⟩

theorem ensures_runWith_cleanUp (e : s.program.options = opts) (enabled : opts.enables Pass.cleanUp.name)
    (current : s.program.HasCurrentConflicts opts.memoryStrategy) : Ensures (runWith (foldConstants
    buildInternal) .cleanUp) s (fun _ next => FinishesCurrent opts next.program) := by
  refine ensures_runWith_program (FinishesCurrent opts) ?_ fun disabled =>
    absurd enabled (e ▸ disabled)
  refine ((ensures_cleanUp hs).and (ensures_cleanUp_current hs e current)).weaken ?_
  rintro _ next ⟨adv, finishes⟩
  exact ⟨⟨adv.rewrites.sound hs, adv.surroundings⟩, finishes⟩

end

end Build

namespace Pass

/-- The last two passes compute memory dependencies and clean up. -/
theorem exists_pipeline_eq {opts : Options} (isInternal : Bool)
    (pools : opts.enableMemoryPool) (optimizes : opts.noOptimizations = false) :
    ∃ mid, pipeline opts isInternal = setUp :: (mid ++ [computeConflicts, cleanUp]) := by
  refine ⟨markNodes :: (optimizationPhase opts isInternal ++ [compileNodes] ++
    only opts.optimizeData reorderInputs), ?_⟩
  simp [pipeline, setUpPhase, finishingPhase, optimizes, pools, only]

end Pass

namespace Build

open Program

variable {s : Session}

theorem ensures_build_current (wf : s.program.Consistent)
    (pools : s.program.options.enableMemoryPool)
    (optimizes : s.program.options.noOptimizations = false)
    (enabled : ∀ pass : Pass, s.program.options.enables pass.name) :
    Ensures build s (fun _ next => FinishesCurrent s.program.options next.program) := by
  obtain ⟨mid, phases⟩ := Pass.exists_pipeline_eq s.program.isInternal pools optimizes
  have ha : Pass.setUp ∉ mid := by
    have nd := Pass.nodup_pipeline s.program.options s.program.isInternal
    rw [phases, nodup_cons] at nd
    exact fun mem => nd.1 (mem_append_left _ mem)
  simp only [build, buildWith, ensures_bind, ensures_program, phases]
  rw [List.forM, ensures_bind]
  refine (ensures_runWith_setUp wf (enabled .setUp)).mono ?_
  rintro _ ready ⟨hs, prep, -⟩
  rw [ensures_forM_append]
  refine (ensures_runAll_options hs ha).weaken ?_
  rintro _ late ⟨soundLate, opts⟩
  have sameLate : late.program.options = s.program.options := opts.trans prep.options
  rw [List.forM, ensures_bind]
  refine (ensures_runWith_computeConflicts soundLate (sameLate ▸ enabled _)).weaken ?_
  rintro _ noted ⟨soundNoted, optionsNoted, current⟩
  rw [ensures_forM_singleton]
  exact ensures_runWith_cleanUp soundNoted (optionsNoted.trans sameLate) (enabled _) (sameLate ▸ current)

end Build

namespace Topology

/-- **The memory dependencies of a finished program are up to date, up to debugging.** They are those
that computing them anew gives for the finished program, and in a build for debugging those of the
program before its nodes were made outputs. -/
theorem conflicts_current_unless_exposed (topology : Topology) (options : Options)
    (surroundings : Surroundings) (number : Nat) (finished : Program)
    (pools : options.enableMemoryPool) (optimizes : options.noOptimizations = false)
    (enabled : ∀ pass : Pass, options.enables pass.name)
    (built : (topology.build options surroundings number).outcome = .ok finished) :
    ∃ settled : Program, settled.HasCurrentConflicts options.memoryStrategy ∧
      finished = if options.debug then settled.exposed else settled := by
  rw [build] at built
  cases result : Program.ofTopology number topology options false with
  | error error =>
      rw [result] at built
      cases built
  | ok program =>
      obtain ⟨consistent, rfl⟩ := consistent_ofTopology result
      have ends := @Build.ensures_build_current (.start surroundings program number) consistent pools
        optimizes enabled
      simp only [result] at built
      split at built
      · next last finishes =>
        cases built
        exact ends.of_ok finishes
      · cases built

/-- Three layers one after the other. -/
def chain : Topology where
  primitives := [
    .inputLayout "x" ⟨.bfyx, ⟨1, 1, 1, 1⟩, {}⟩,
    { id := "y", kind := .softmax, inputs := ["x"] },
    { id := "z", kind := .softmax, inputs := ["y"] }]
  outputs := ["z"]

/-- The ids noted with the node of a key. -/
def notedWith (program : Program) (key : NodeKey) : Option (List String) :=
  (program.node? key).map (·.conflicts)

/-- The ids noted with the node of a key after memory dependencies have been computed anew. -/
def notedAnew (strategy : MemoryStrategy) (program : Program) (key : NodeKey) : Option (List String) :=
  match Edit.computeConflicts strategy program with
  | .ok () computed => notedWith computed key
  | .error _ _ => none

theorem notedAnew_of_current {strat : MemoryStrategy} {p : Program} {k : NodeKey}
    (current : p.HasCurrentConflicts strat) : notedAnew strat p k = notedWith p k := by
  rw [notedAnew, current]

theorem conflicts_current_unless_exposed_chain : ∃ finished,
    (chain.build {} {} 0).outcome = .ok finished ∧ notedWith finished 0 = some ["y"] ∧
      finished.HasCurrentConflicts .skippedBranchAware := by
  have evaluates : (chain.build {} {} 0).outcome.map (notedWith · 0) = .ok (some ["y"]) := by cbv
  cases built : (chain.build {} {} 0).outcome with
  | error fault =>
      rw [built] at evaluates
      cases evaluates
  | ok finished =>
      rw [built] at evaluates
      obtain ⟨settled, current, same⟩ := conflicts_current_unless_exposed chain {} {} 0 finished rfl
        rfl (fun _ => rfl) built
      have plain : finished = settled := same
      exact ⟨finished, rfl, Except.ok.inj evaluates, plain ▸ current⟩

/-- **In a build for debugging, memory dependencies can be out of date:** the first of three layers
stays readable to the end, but its buffer may be used by the last one. -/
theorem not_hasCurrentConflicts_of_debug : ∃ finished,
    (chain.build { debug := true } {} 0).outcome = .ok finished ∧
      ¬ finished.HasCurrentConflicts .skippedBranchAware := by
  have evaluates : (chain.build { debug := true } {} 0).outcome.map (fun finished =>
      (notedWith finished 0, notedAnew .skippedBranchAware finished 0)) =
        .ok (some ["y"], some ["y", "z"]) := by cbv
  cases built : (chain.build { debug := true } {} 0).outcome with
  | error fault =>
      rw [built] at evaluates
      cases evaluates
  | ok finished =>
      rw [built] at evaluates
      obtain ⟨before, after⟩ := Prod.mk.inj (Except.ok.inj evaluates)
      refine ⟨finished, rfl, fun current => ?_⟩
      rw [notedAnew_of_current current, before] at after
      revert after
      decide

end Topology

end LayerGraph
