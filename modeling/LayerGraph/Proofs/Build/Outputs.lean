import LayerGraph.Proofs.Build.CompleteOrder
import LayerGraph.Proofs.Meaning.Rewriting
import LayerGraph.Proofs.Network.Cycles
import Mathlib

/-!
# The outputs of a build

The outputs of a network are its interface. They are the declared ones or, when none are declared, the
nodes that nobody reads after split layers have been removed (`Topology.interface`). A build that ends
well keeps them: the same ids are listed first, in the same order (`Topology.outputs_keep_their_places`).

No step of a pass renames an output, removes it or moves it in the list, and only debug builds add to
the list (`Program.KeepsOutputs`). When an output is replaced by a constant buffer, the buffer takes
both its id and its place.
-/

namespace LayerGraph

open List

namespace Program

variable {p q : Program} {key : NodeKey} {node : Node}

/-- The ids of the nodes that nobody reads, in the order of registration. -/
def unreadIds (program : Program) : List String :=
  (program.keys.filter fun key => (program.users key).isEmpty).map program.idOf

/-- The program without its split layers, which are looked at in the order of registration. One that
is an output or is still read then stays. -/
def withoutSplits (program : Program) : Program :=
  program.splitKeys.foldl (fun program key => (program.prune? key).getD program) program

/-! ## Folding constants -/

/-- A node that takes the place of another one takes its place among the outputs. -/
theorem Refills.outputIds {new : NodeKey} {rep : Node} {lay : Layout}
    (refills : Refills p q key new node rep lay)
    (wf : p.Consistent) : q.outputIds = p.outputIds := by
  rw [Program.outputIds, Program.outputIds, refills.outputs, List.map_map]
  refine map_congr_left fun o hl => ?_
  obtain ⟨m, hk, hm⟩ := (wf.mem_outputs o).mp hl
  rw [Function.comp_apply, redirected, idOf_of_node? hk]
  split
  · next isKey =>
    rw [isKey, refills.found] at hk
    cases hk
    exact (idOf_of_node? refills.node?_new).trans rfl
  · next isOther =>
    have notNew : o ≠ new := by
      rintro rfl
      rcases refills.origin with ⟨-, vacant, -⟩ | ⟨-, foundNew, -⟩
      · rw [vacant] at hk
        cases hk
      · cases hk.symm.trans foundNew
        rw [refills.unmarked] at hm
        cases hm
    exact idOf_of_node? (by rw [refills.nodes, if_neg isOther, if_neg notNew, hk])

/-- Buffers in the place of the boundary keep the outputs. -/
theorem ensures_replaceBoundary_keepsOutputs (hs : p.Sound) :
    Ensures (p.boundaryConstants.forM Edit.replaceByData) p
      (fun _ q => q.Sound ∧ KeepsOutputs p q) Fault.SparesProgram := by
  refine ensures_replaceAllByData (KeepsOutputs p) ?_ hs (.refl _)
    hs.consistent.boundaryConstants_nodup hs.consistent.boundaryConstants_live
  intro key st kept hv pre
  obtain ⟨node, hk⟩ := contains_iff.mp hv
  refine (ensures_replaceByData_refills kept hk).mono ?_ fun _ h => h.1
  rintro _ q ⟨-, ⟨-, rfl⟩ | ⟨new, rep, lay, refills⟩⟩
  · exact pre
  · exact pre.trans (.of_eq (options_of_settings refills.settings)
      (refills.outputIds kept.consistent))

/-- Outputs that stay, and of which there are no others, stay the same. -/
theorem Prepares.outputIds (prep : Prepares p q) (wf : p.Consistent) (kept : q.Consistent)
    (nodes : ∀ key node, q.node? key = some node → p.node? key = some node) :
    q.outputIds = p.outputIds := by
  obtain ⟨added, outputs⟩ := prep.outputs
  have none : added = [] := by
    refine eq_nil_iff_forall_not_mem.mpr fun key mem => ?_
    obtain ⟨node, hk, hm⟩ := (kept.mem_outputs key).mp (outputs ▸ mem_append_right _ mem)
    have hl := (wf.mem_outputs key).mpr ⟨node, nodes key node hk, hm⟩
    have nd := kept.outputs_nodup
    rw [← outputs] at nd
    exact (nodup_append.mp nd).2.2 key hl key mem rfl
  rw [none, append_nil] at outputs
  rw [Program.outputIds, Program.outputIds, outputs]
  refine map_congr_left fun key hl => ?_
  obtain ⟨node, hk, -⟩ := (kept.mem_outputs key).mp hl
  rw [idOf_of_node? hk, idOf_of_node? (nodes key node hk)]

end Program

namespace Build

open Program

variable {s : Session}

/-- Folding constants keeps the outputs, whatever the build of the constant part does. -/
theorem ensures_foldConstants_keepsOutputs (hs : s.program.Sound) :
    Ensures (foldConstants buildInternal) s
      (fun _ next => KeepsOutputs s.program next.program) s.surroundings.Excuses := by
  refine ensures_foldConstants_of (fun _ => True) hs (.refl _) (fun cp res => ?_) fun fin _ => ?_
  · have isInner := isInner_constantSession hs.consistent res
    exact (ensures_buildInternal isInner).weaken fun _ _ _ => trivial
  · refine (ensures_replaceBoundary_keepsOutputs hs).weaken ?_
    rintro _ replaced ⟨kept, pre⟩
    refine ⟨kept, fun pruned last prep nodes => pre.trans (.of_eq prep.options ?_)⟩
    exact prep.outputIds kept.consistent last.consistent nodes

/-- **Every pass but the first one keeps the outputs.** -/
theorem ensures_run_keepsOutputs (hs : s.program.Sound) {pass : Pass} (notFirst : pass ≠ .setUp) :
    Ensures (run pass) s (fun _ next => LeavesSound s next ∧
      KeepsOutputs s.program next.program) s.surroundings.Excuses := by
  have leaves := keepsSound_foldConstants s.surroundings
  have keeps : Ensures (pass.body (foldConstants buildInternal)) s
      (fun _ next => KeepsOutputs s.program next.program) s.surroundings.Excuses := by
    by_cases isFolding : pass = .foldConstants
    · subst isFolding
      exact ensures_foldConstants_keepsOutputs hs
    · exact (ensures_body hs _ notFirst isFolding).weaken fun _ next adv =>
        adv.rewrites.keepsOutputs hs
  exact (ensures_runWith_sound leaves (.inl hs)).and (ensures_runWith_program (KeepsOutputs s.program)
    ((ensures_body_sound leaves (.inl hs)).and keeps) fun _ => .refl _)

theorem ensures_runAll_keepsOutputs (hs : s.program.Sound) {passes : List Pass}
    (notFirst : .setUp ∉ passes) : Ensures (passes.forM run) s (fun _ next => LeavesSound s next ∧
      KeepsOutputs s.program next.program) s.surroundings.Excuses := by
  refine ensures_forM_mem (fun st => LeavesSound s st ∧
    KeepsOutputs s.program st.program) ?_ ⟨⟨hs, rfl⟩, .refl _⟩
  rintro pass mem st ⟨⟨kept, env⟩, pre⟩
  rw [← env]
  refine (ensures_run_keepsOutputs kept (ne_of_mem_of_not_mem mem notFirst)).weaken ?_
  rintro _ next ⟨⟨soundNext, e⟩, step⟩
  exact ⟨⟨soundNext, e.trans env⟩, pre.trans step⟩

end Build

/-! ## Setting up -/

namespace Program

variable {p : Program}

theorem Consistent.getD_prune? (wf : p.Consistent) (key : NodeKey) :
    ((p.prune? key).getD p).Consistent ∧ ((p.prune? key).getD p).outputIds = p.outputIds := by
  cases res : p.prune? key with
  | none => exact ⟨wf, rfl⟩
  | some q =>
    have kept := (wf.prune? res).1
    exact ⟨kept, (Prepares.prune wf res).outputIds wf kept fun _ _ => node?_of_prune? wf res⟩

theorem Consistent.withoutSplits (wf : p.Consistent) :
    p.withoutSplits.Consistent ∧ p.withoutSplits.outputIds = p.outputIds := by
  rw [Program.withoutSplits]
  generalize p.splitKeys = ks
  induction ks generalizing p with
  | nil => exact ⟨wf, rfl⟩
  | cons key rest ih =>
    obtain ⟨kept, e⟩ := wf.getD_prune? key
    obtain ⟨last, sameAfter⟩ := ih kept
    exact ⟨last, sameAfter.trans e⟩

theorem idOf_setOutput (p : Program) (key : NodeKey) (output : Bool) :
    (p.setOutput key output).idOf = p.idOf := by
  funext o
  rw [idOf, idOf, node?_setOutput]
  by_cases isKey : o = key
  · rw [if_pos isKey]
    cases p.node? o with
    | none => rfl
    | some node => rfl
  · rw [if_neg isKey]

/-- Nodes are made outputs one after the other. -/
theorem outputs_foldl_setOutput (ks : List NodeKey) (hv : ∀ key ∈ ks, p.contains key)
    (nd : (p.outputs ++ ks).Nodup) :
    (ks.foldl (fun p key => p.setOutput key true) p).outputs = p.outputs ++ ks ∧
      (ks.foldl (fun p key => p.setOutput key true) p).idOf = p.idOf := by
  induction ks generalizing p with
  | nil => exact ⟨(append_nil _).symm, rfl⟩
  | cons key rest ih =>
    have fr : key ∉ p.outputs := fun hl =>
      (nodup_append.mp nd).2.2 key hl key mem_cons_self rfl
    have outputs : (p.setOutput key true).outputs = p.outputs ++ [key] := by
      rw [outputs_setOutput (hv key mem_cons_self), if_neg fr]
    have split : p.outputs ++ key :: rest = (p.setOutput key true).outputs ++ rest := by
      rw [outputs, append_assoc, singleton_append]
    rw [split] at nd ⊢
    obtain ⟨hl, ids⟩ := ih (fun o mem =>
      (p.contains_setOutput key o true).mpr (hv o (mem_cons_of_mem _ mem)))
      nd
    exact ⟨hl, ids.trans (p.idOf_setOutput key true)⟩

/-- Without outputs, those nodes become outputs that nobody reads. -/
theorem Consistent.outputIds_markSinks (wf : p.Consistent) : p.markSinks.outputIds =
      if p.outputIds = [] then p.unreadIds else p.outputIds := by
  rw [markSinks]
  have empty : p.outputIds = [] ↔ p.outputs = [] := map_eq_nil_iff
  simp only [empty]
  by_cases none : p.outputs = []
  · have sinks : (p.keys.filter fun key => p.userCount key == 0) = p.keys.filter fun key => (p.users
        key).isEmpty := filter_congr fun key _ => by
        rw [userCount]
        cases p.users key with
        | nil => rfl
        | cons user rest => rfl
    rw [if_pos (List.isEmpty_iff.mpr none), if_pos none, sinks]
    obtain ⟨outputs, ids⟩ := outputs_foldl_setOutput (p.keys.filter fun key => (p.users key).isEmpty)
      (fun key hl => wf.mem_keys.mp (mem_of_mem_filter hl)) (none ▸ wf.keys_nodup.filter _)
    rw [outputIds, outputs, ids, none]
    rfl
  · rw [if_neg (by simpa using none), if_neg none]

end Program

namespace Build

open Program

variable {s : Session}

theorem ensures_removeSplit_program (key : NodeKey) : Ensures (removeSplit key) s
      (fun _ next => next.program = (s.program.prune? key).getD s.program) := by
  simp only [removeSplit, ensures_bind, ensures_edit, Edit.prune]
  refine ensures_attempt (fun q res => ?_) fun res => ?_
  · rw [res]
    rfl
  · simp only [Bool.false_eq_true, if_false, ensures_bind, nodeAt, ensures_edit, Edit.nodeAt,
      ensures_get, res]
    exact ensures_checked fun _ _ => rfl

/-- Removing the split layers gives the program without them. -/
theorem ensures_removeSplits_program : Ensures (s.program.splitKeys.forM removeSplit) s
      (fun _ next => next.program = s.program.withoutSplits) := by
  rw [withoutSplits]
  generalize s.program.splitKeys = ks
  induction ks generalizing s with
  | nil => exact rfl
  | cons key rest ih =>
    rw [List.forM, ensures_bind]
    refine (ensures_removeSplit_program key).weaken fun _ next e => ?_
    refine ih.weaken fun _ last sameLast => ?_
    rw [sameLast, e, foldl_cons]

/-- Setting up decides about the outputs when split layers have been removed. -/
theorem ensures_setUp_outputIds (wf : s.program.Consistent) : Ensures setUp s
      (fun _ next => next.program.outputIds = s.program.withoutSplits.markSinks.outputIds) := by
  simp only [setUp, ensures_bind, ensures_program, ensures_modifyProgram]
  refine ensures_removeSplits_program.weaken fun _ st e => ?_
  have kept := wf.withoutSplits.1
  rw [← e] at kept ⊢
  obtain ⟨hm, -⟩ := Prepares.markSinks kept
  rw [ensures_edit]
  refine (hm.orderDepthFirst).mono ?_
  rintro _ _ ⟨hs, -, order, rfl⟩
  rw [ensures_edit]
  refine (ensures_refreshLayouts hs.consistent).mono ?_
  intro _ q annotated
  exact (outputIds_of_alters annotated.label).trans rfl

/-- A build decides about the outputs when it sets the program up, and keeps them from then on. -/
theorem ensures_build_outputIds (wf : s.program.Consistent)
    (enabled : s.program.options.enables Pass.setUp.name) :
    Ensures build s (fun _ next => next.program.Sound ∧ ∃ ready : Program,
      ready.options = s.program.options ∧
      ready.outputIds = s.program.withoutSplits.markSinks.outputIds ∧
      KeepsOutputs ready next.program) := by
  simp only [build, buildWith, ensures_bind, ensures_program, Pass.pipeline_eq]
  rw [List.forM, ensures_bind]
  refine (ensures_runWith_setUp_and (·.outputIds = s.program.withoutSplits.markSinks.outputIds)
    wf enabled (ensures_setUp_outputIds wf)).mono ?_
  rintro _ ready ⟨⟨hs, prep, -⟩, decided⟩
  refine (ensures_runAll_keepsOutputs hs (Pass.setUp_not_mem_afterSetUp _ _)).mono ?_
  rintro _ last ⟨⟨soundLast, -⟩, keeps⟩
  exact ⟨soundLast, ready.program, prep.options, decided, keeps⟩

end Build

namespace Topology

/-- The outputs that a topology is to have, given the program that it declares: the ids that it names,
each at its first occurrence or, if it names none, those that nobody reads without split layers. -/
def interface (topology : Topology) (declared : Program) : List String :=
  if topology.outputs = [] then declared.withoutSplits.unreadIds else topology.outputs.eraseDups

theorem interface_eq {topo : Topology} {hd : Program} (wf : hd.Consistent)
    (declares : hd.Declares topo) : topo.interface hd = hd.withoutSplits.markSinks.outputIds := by
  obtain ⟨kept, e⟩ := wf.withoutSplits
  have hl : hd.outputIds = topo.outputs.eraseDups := declares.outputs
  have none : topo.outputs.eraseDups = [] ↔ topo.outputs = [] := by
    cases topo.outputs with
    | nil => simp
    | cons id rest => simp [eraseDups_cons]
  rw [kept.outputIds_markSinks, e, hl, interface]
  simp only [none]

/-- **A build keeps the outputs of the network.** When the program is set up at all, the outputs of
the finished program begin with the interface of the topology, in this order; each of them is live and
marked as an output. Unless the build is a debug build, there are no other outputs and no other nodes
are marked. -/
theorem outputs_keep_their_places (topology : Topology) (options : Options)
    (surroundings : Surroundings) (number : Nat) (declared finished : Program)
    (enabled : options.enables Pass.setUp.name)
    (accepted : Program.ofTopology number topology options false = .ok declared)
    (built : (topology.build options surroundings number).outcome = .ok finished) :
    topology.interface declared <+: finished.outputIds ∧
      (∀ id ∈ topology.interface declared, ∃ key node, finished.keyOf? id = some key ∧
        finished.node? key = some node ∧ node.isOutput ∧ key ∈ finished.outputs) ∧
      (options.debug = false → finished.outputIds = topology.interface declared ∧
        ∀ key node, finished.node? key = some node → node.isOutput →
          node.id ∈ topology.interface declared) := by
  obtain ⟨consistent, rfl⟩ := consistent_ofTopology accepted
  obtain ⟨_, session, again, finishes, rfl, -⟩ := exists_of_build built
  cases accepted.symm.trans again
  obtain ⟨sound, ready, options, decided, keeps⟩ :=
    (Build.ensures_build_outputIds consistent enabled).of_ok finishes
  have interface : topology.interface declared = ready.outputIds :=
    (interface_eq consistent (Program.declares_of_ofTopology accepted)).trans decided.symm
  rw [interface]
  refine ⟨keeps.first, fun id listed => ?_, fun quiet => ?_⟩
  · obtain ⟨key, node, found, marked, rfl⟩ :=
      sound.consistent.hasOutput_iff.mpr (keeps.first.subset listed)
    exact ⟨key, node, sound.consistent.keyOf?_eq_some.mpr ⟨node, found, rfl⟩, found, marked,
      (sound.consistent.mem_outputs key).mpr ⟨node, found, marked⟩⟩
  · have same := keeps.alone (options ▸ quiet)
    refine ⟨same, fun key node found marked => ?_⟩
    rw [← same]
    exact sound.consistent.hasOutput_iff.mp ⟨key, node, found, marked, rfl⟩

/-- A split layer and a computed constant, without any declared outputs. -/
def splitAndScale : Topology where
  primitives := [
    .inputLayout "x" ⟨.bfyx, ⟨1, 2, 1, 1⟩, {}⟩,
    { id := "s", kind := .split [⟨"a", 0⟩, ⟨"b", 1⟩], inputs := ["x"] },
    .data "w" ⟨.bfyx, ⟨1, 1, 1, 1⟩, {}⟩,
    { id := "v", kind := .activation .abs, inputs := ["w"] }]

/-- The split layer is gone, and the constant has been replaced, but the outputs are where they were. -/
theorem outputs_keep_their_places_splitAndScale : ∃ declared finished,
    Program.ofTopology 0 splitAndScale {} false = .ok declared ∧
      (splitAndScale.build {} {} 0).outcome = .ok finished ∧
      splitAndScale.interface declared = ["v", "s:a", "s:b"] ∧
      finished.outputIds = splitAndScale.interface declared ∧
      (∀ id ∈ splitAndScale.interface declared, ∃ key node, finished.keyOf? id = some key ∧
        finished.node? key = some node ∧ node.isOutput ∧ key ∈ finished.outputs) := by
  obtain ⟨finished, built, -⟩ : ∃ fin, (splitAndScale.build {} {} 0).outcome = .ok fin ∧ True :=
    exists_of_outcome (by decide +kernel)
  obtain ⟨declared, session, accepted, -⟩ := exists_of_build built
  have named : (Program.ofTopology 0 splitAndScale {} false).map splitAndScale.interface =
      .ok ["v", "s:a", "s:b"] := by decide +kernel
  rw [accepted] at named
  obtain ⟨-, marked, quiet⟩ :=
    outputs_keep_their_places splitAndScale {} {} 0 declared finished rfl accepted built
  exact ⟨declared, finished, accepted, built, Except.ok.inj named, (quiet rfl).1, marked⟩

end Topology

end LayerGraph
