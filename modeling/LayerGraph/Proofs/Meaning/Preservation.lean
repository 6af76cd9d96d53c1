import LayerGraph.Proofs.Build.Outputs
import LayerGraph.Proofs.Meaning.Folding

/-!
# Builds keep the meaning

Once a program is set up, its build keeps the outputs and their values. Every pass but the folding of
constants rewrites the program. Folding puts constant buffers in the place of computed constants, and
their values are those that the constant program gives out, which the backend has evaluated
(`ReadsConstants`).

Folding happens once, and relies on no node having the id under which a constant buffer is registered
at first. Without such ids in the topology there are none, apart from reorders that a pass has
inserted, and those read something.
-/

universe u

namespace LayerGraph

open List

variable {V : Type u} {interpretation : Interpretation V} {constants value reference : String → V}
  {s next : Session}

/-- What constant buffers hold. A constant program gives out the values of the buffers that have the
ids of its outputs; all other buffers have been there from the start. -/
structure ReadsConstants (interpretation : Interpretation V) (folded : List Program)
    (constants : String → V) : Prop where
  givenOut : ∀ inner ∈ folded, ∀ key ∈ inner.outputs,
    inner.Denotes interpretation interpretation.environment key (constants (inner.idOf key))
  fromStart : ∀ id, (∀ inner ∈ folded, id ∉ inner.outputs.map inner.idOf) →
    constants id = interpretation.environment id

theorem ReadsConstants.eq_environment (hr : ReadsConstants interpretation [] constants) :
    constants = interpretation.environment :=
  funext fun id => hr.fromStart id fun _ mem => absurd mem not_mem_nil

/-- The constant programs decide what constant buffers hold. -/
theorem ReadsConstants.unique {folded : List Program} {others : String → V}
    (hr : ReadsConstants interpretation folded constants)
    (again : ReadsConstants interpretation folded others) : constants = others := by
  funext id
  by_cases hl : ∃ inner ∈ folded, id ∈ inner.outputs.map inner.idOf
  · obtain ⟨inner, mem, output⟩ := hl
    obtain ⟨k, isOutput, rfl⟩ := List.mem_map.mp output
    exact (hr.givenOut inner mem k isOutput).unique (again.givenOut inner mem k isOutput)
  · have ha : ∀ inner ∈ folded, id ∉ inner.outputs.map inner.idOf :=
      fun inner mem output => hl ⟨inner, mem, output⟩
    rw [hr.fromStart id ha, again.fromStart id ha]

theorem readsConstants_nil (interpretation : Interpretation V) :
    ReadsConstants interpretation [] interpretation.environment :=
  ⟨fun _ mem => absurd mem not_mem_nil, fun _ _ => rfl⟩

/-- The outputs that a program had at first are still there, with the values that they had. -/
structure Session.Keeps (interpretation : Interpretation V) (start : Program)
    (reference : String → V) (session : Session) : Prop where
  sound : session.program.Sound
  fusable : session.program.OnlyFusable
  valued : ∃ constants value, ReadsConstants interpretation session.trace.folded constants ∧
    session.program.Valuation interpretation constants value ∧
    ∀ id, start.HasOutput id → session.program.HasOutput id ∧ value id = reference id

namespace Session.Keeps

variable {start : Program}

/-- Rewriting keeps the values of the outputs. -/
theorem advances (keeps : Keeps interpretation start reference s)
    (adv : s.Advances next) : Keeps interpretation start reference next := by
  obtain ⟨constants, value, hr, val, kept⟩ := keeps.valued
  obtain ⟨after, valued, e⟩ := adv.rewrites.valuation keeps.sound keeps.fusable val
  refine ⟨adv.rewrites.sound keeps.sound, adv.rewrites.onlyFusable keeps.sound keeps.fusable,
    constants, after, ?_, valued, fun id h => ?_⟩
  · rwa [adv.folded]
  · obtain ⟨stays, equal⟩ := kept id h
    exact ⟨(e id stays).1, (e id stays).2.trans equal⟩

end Session.Keeps

/-! ## Folding constants -/

/-- There is a table that holds what a constant program gives out. -/
theorem exists_readsConstants {inner : Program} (wf : inner.Consistent)
    (gives : ∀ k n, inner.node? k = some n → n.isOutput →
      inner.Denotes interpretation interpretation.environment k (value n.id)) :
    ∃ constants, ReadsConstants interpretation [inner] constants ∧
      (∀ id, inner.HasOutput id → constants id = value id) ∧
      ∀ id, constants id = value id ∨ constants id = interpretation.environment id := by
  classical
  refine ⟨fun id => if inner.HasOutput id then value id else interpretation.environment id, ⟨fun only mem
    k hl => ?_, fun id ha => if_neg fun h => ?_⟩, fun id h => if_pos h, fun id => ?_⟩
  · cases mem_singleton.mp mem
    obtain ⟨n, hk, hm⟩ := (wf.mem_outputs k).mp hl
    rw [Program.idOf_of_node? hk, if_pos ⟨k, n, hk, hm, rfl⟩]
    exact gives k n hk hm
  · exact ha inner (mem_singleton.mpr rfl) (wf.hasOutput_iff.mp h)
  · dsimp only
    split
    · exact .inl rfl
    · exact .inr rfl

namespace Build

open Program

variable {start : Program}

theorem folded_foldedSession {finished : Session} {program : Program} :
    (foldedSession s finished program).trace.folded =
      finished.trace.folded ++ [finished.program] := by
  simp [foldedSession, Trace.folded, BackendCall.folded?]

/-- **Folding constants keeps the outputs and their values,** when nothing has been folded yet. -/
theorem ensures_foldConstants_keeps (keeps : s.Keeps interpretation start reference)
    (unfolded : s.trace.folded = []) (ht : s.program.Attached) :
    Ensures (foldConstants buildInternal) s
      (fun _ next => LeavesSound s next ∧ next.Keeps interpretation start reference)
      s.surroundings.Excuses := by
  obtain ⟨constants, value, hr, val, kept⟩ := keeps.valued
  rw [unfolded] at hr
  cases hr.eq_environment
  refine ensures_foldConstants_of (fun finished => finished.trace.folded = [] ∧
    finished.program.Consistent ∧ (∀ k n, finished.program.node? k = some n → n.isOutput →
    finished.program.Denotes interpretation interpretation.environment k (value n.id)) ∧ ∀ k ∈
    s.program.boundaryConstants, finished.program.HasOutput (s.program.idOf k)) keeps.sound
    ⟨⟨keeps.sound, rfl⟩, keeps⟩ (fun cp res => ?_) ?_
  · refine (ensures_buildInternal (isInner_constantSession keeps.sound.consistent res)).weaken ?_
    rintro _ finished ⟨ready, soundReady, prep, rewrites, continues⟩
    exact ⟨continues.folded.trans unfolded, (rewrites.sound soundReady).consistent,
      keeps.sound.constants_givenOut res soundReady prep rewrites keeps.fusable val,
      keeps.sound.hasOutput_of_boundary res soundReady prep rewrites⟩
  · rintro finished ⟨unfoldedInner, wf, gives, covers⟩
    obtain ⟨after, readsAfter, holds, either⟩ := exists_readsConstants wf gives
    refine ((ensures_replaceBoundary _ (fun _ => True) keeps.sound ht covers trivial fun _ _ _ _ _ _ _
      _ _ _ _ => trivial).and (ensures_replaceBoundary_keepsOutputs keeps.sound)).weaken ?_
    rintro _ replaced ⟨⟨soundReplaced, retains, -⟩, -, outputs⟩
    refine ⟨soundReplaced, fun pruned soundPruned prep nodes => ⟨⟨soundPruned, rfl⟩, ?_⟩⟩
    have retained := retains.trans ((prep.retains soundPruned.consistent).mono fun _ => False.elim)
    have stays := outputs.trans (.of_eq prep.options
      (prep.outputIds soundReplaced.consistent soundPruned.consistent nodes))
    refine ⟨soundPruned, retained.onlyFusable keeps.fusable, after, value, ?_, ?_, fun id h => ?_⟩
    · rw [folded_foldedSession, unfoldedInner]
      exact readsAfter
    · refine retained.valuation (val.of_agree keeps.fusable fun k n hk tag => ?_) holds
      have unfused := keeps.fusable.fused_eq_none hk (by rw [tag]; rfl)
      have fromStart : value n.id = interpretation.environment n.id := by
        rw [val k n hk, Interpretation.nodeValue_data tag unfused]
      rcases either n.id with isValue | isGiven
      · rw [isValue, fromStart]
      · exact isGiven
    · exact ⟨stays.hasOutput keeps.sound.consistent soundPruned.consistent (kept id h).1,
        (kept id h).2⟩

/-! ## The passes -/

/-- The passes of a build that are still to run. -/
structure Running (interpretation : Interpretation V) (start : Program) (reference : String → V)
    (surroundings : Surroundings) (rest : List Pass) (session : Session) : Prop where
  surroundings : session.surroundings = surroundings
  keeps : session.Keeps interpretation start reference
  nodup : rest.Nodup
  notFirst : Pass.setUp ∉ rest
  unfolded : Pass.foldConstants ∈ rest → session.trace.folded = [] ∧ session.program.Attached

section Running

variable {env : Surroundings} {rest : List Pass}

theorem Running.ensures_foldConstants
    (running : Running interpretation start reference env (.foldConstants :: rest) s) :
    Ensures (run .foldConstants) s
      (fun _ next => Running interpretation start reference env rest next) env.Excuses := by
  obtain ⟨unfolded, ht⟩ := running.unfolded mem_cons_self
  obtain ⟨ha, nd⟩ := nodup_cons.mp running.nodup
  have notFirst := fun mem => running.notFirst (mem_cons_of_mem _ mem)
  have ends : Ensures (run .foldConstants) s (fun _ next => next.surroundings = s.surroundings ∧
        next.Keeps interpretation start reference) s.surroundings.Excuses := by
    refine ensures_runWith ?_ (fun _ => ?_) fun _ => ⟨rfl, running.keeps⟩
    · rintro pre after e continues ⟨env, keeps⟩
      exact ⟨continues.surroundings.trans env, keeps.advances ⟨continues, e ▸ .refl⟩⟩
    · exact (ensures_foldConstants_keeps running.keeps unfolded ht).weaken
        fun _ next ⟨left, keeps⟩ => ⟨left, left.2, keeps⟩
  rw [running.surroundings] at ends
  exact ends.weaken fun _ next ⟨e, keeps⟩ =>
    ⟨e, keeps, nd, notFirst, fun mem => absurd mem ha⟩

theorem Running.ensures_run {pass : Pass}
    (running : Running interpretation start reference env (pass :: rest) s) :
    Ensures (run pass) s (fun _ next => Running interpretation start reference env rest next)
      env.Excuses := by
  by_cases isFolding : pass = .foldConstants
  · subst isFolding
    exact running.ensures_foldConstants
  · have hs := running.keeps.sound
    have notFirst : pass ≠ .setUp := fun e => running.notFirst (e ▸ mem_cons_self)
    have ends := ensures_runWith_advances hs
      (ensures_body hs (foldConstants buildInternal) notFirst isFolding)
    rw [running.surroundings] at ends
    refine ends.weaken fun _ next adv => ?_
    refine ⟨adv.surroundings.trans running.surroundings, running.keeps.advances adv,
      (nodup_cons.mp running.nodup).2,
      fun mem => running.notFirst (mem_cons_of_mem _ mem), fun mem => ?_⟩
    obtain ⟨unfolded, ht⟩ := running.unfolded (mem_cons_of_mem _ mem)
    exact ⟨adv.folded.trans unfolded, adv.rewrites.attached hs ht⟩

end Running

/-- **A build keeps the outputs of the program that has been set up, and their values.** -/
theorem ensures_build_keeps (interpretation : Interpretation V) (wf : s.program.Consistent)
    (enabled : s.program.options.enables Pass.setUp.name) (unfolded : s.trace.folded = [])
    (unfused : ∀ k n, s.program.node? k = some n → n.fused = none)
    (unreserved : ∀ k n, s.program.node? k = some n → ¬ Reserved n.id) :
    Ensures build s (fun _ last => ∃ ready reference, run .setUp s = .ok () ready ∧
      ready.program.Sound ∧
      ready.program.Valuation interpretation interpretation.environment reference ∧
      last.Keeps interpretation ready.program reference) s.surroundings.Excuses := by
  simp only [build, buildWith, ensures_bind, ensures_program, Pass.pipeline_eq]
  rw [List.forM, ensures_bind]
  refine (ensures_runWith_setUp wf enabled).with_ok.weaken ?_
  rintro _ ready ⟨res, hs, prep, continues⟩
  obtain ⟨reference, val⟩ := hs.exists_valuation interpretation interpretation.environment
  have foldedReady := continues.folded.trans unfolded
  have keeps : ready.Keeps interpretation ready.program reference := by
    refine ⟨hs, fun k n hk isFused => ?_, _, reference, ?_, val, fun _ h => ⟨h, rfl⟩⟩
    · obtain ⟨orig, foundOrig, -, fused⟩ := prep.nodes k n hk
      rw [← fused, unfused k orig foundOrig] at isFused
      cases isFused
    · rw [foldedReady]
      exact readsConstants_nil interpretation
  have ht := prep.attached unreserved
  have nd := nodup_cons.mp (Pass.pipeline_eq _ _ ▸ Pass.nodup_pipeline
    s.program.options s.program.isInternal)
  have running : Running interpretation ready.program reference s.surroundings
      (Pass.afterSetUp s.program.options s.program.isInternal) ready :=
    ⟨continues.surroundings, keeps, nd.2, nd.1, fun _ => ⟨foldedReady, ht⟩⟩
  exact (ensures_forM (fun rest st =>
    Running interpretation ready.program reference s.surroundings rest st)
    (fun _ _ _ running => running.ensures_run) running).weaken
    fun _ last ended => ⟨ready, reference, res, hs, val, ended.keeps⟩

end Build

/-! ## The build of a topology -/

namespace Topology

/-- The program of a build right after its first pass. -/
def setUp? (topology : Topology) (options : Options) (surroundings : Surroundings) (number : Nat) :
    Option Program :=
  match Program.ofTopology number topology options false with
  | .error _ => none
  | .ok program =>
    match Build.run .setUp (.start surroundings program number) with
    | .ok () s => some s.program
    | .error _ _ => none

variable {topology : Topology} {opts : Options} {env : Surroundings} {number : Nat}
  {finished : Program}

/-- A finished build has set its program up and kept the values of its outputs. -/
theorem exists_keeps_of_build (interpretation : Interpretation V)
    (unreserved : ∀ prim ∈ topology.primitives, ¬ Program.Reserved prim.id)
    (enabled : opts.enables Pass.setUp.name)
    (built : (topology.build opts env number).outcome = .ok finished) :
    ∃ (start : Program) (reference : String → V) (last : Session),
      topology.setUp? opts env number = some start ∧ start.Sound ∧
      start.Valuation interpretation interpretation.environment reference ∧
      last.program = finished ∧ last.trace = (topology.build opts env number).trace ∧
      last.Keeps interpretation start reference := by
  obtain ⟨hd, last, accepted, finishes, rfl, trace⟩ := exists_of_build built
  obtain ⟨wf, rfl⟩ := consistent_ofTopology accepted
  have declares := Program.declares_of_ofTopology accepted
  have ends : Ensures Build.build (.start env hd number) _ env.Excuses :=
    Build.ensures_build_keeps interpretation wf enabled rfl (fun _ _ => declares.unfused)
      fun _ _ => declares.unreserved unreserved
  obtain ⟨ready, reference, ran, hs, val, keeps⟩ := ends.of_ok finishes
  refine ⟨ready.program, reference, last, ?_, hs, val, rfl, trace, keeps⟩
  simp only [setUp?, accepted, ran]

/-- **A build keeps the meaning of the program.** Whatever its nodes compute, every output of the
program that has been set up is there under its id in the finished program, and denotes the same
value, when the constant buffers that have replaced computed constants hold what the constant program
gives out under their ids. -/
theorem outputs_keep_their_values (interpretation : Interpretation V) (topology : Topology)
    (options : Options) (surroundings : Surroundings) (number : Nat) (finished : Program)
    (unreserved : ∀ primitive ∈ topology.primitives, ¬ primitive.id.startsWith "_const_prop_")
    (enabled : options.enables Pass.setUp.name)
    (built : (topology.build options surroundings number).outcome = .ok finished) :
    ∃ start, topology.setUp? options surroundings number = some start ∧
      (∃ constants, ReadsConstants interpretation
        (topology.build options surroundings number).trace.folded constants) ∧
      ∀ constants, ReadsConstants interpretation
          (topology.build options surroundings number).trace.folded constants →
        ∀ key ∈ start.outputs, ∃ kept value, finished.keyOf? (start.idOf key) = some kept ∧
          kept ∈ finished.outputs ∧
          start.Denotes interpretation interpretation.environment key value ∧
          finished.Denotes interpretation constants kept value := by
  obtain ⟨start, reference, last, ran, sound, valuation, rfl, trace, keeps⟩ :=
    exists_keeps_of_build interpretation unreserved enabled built
  obtain ⟨constants, value, reads, valued, same⟩ := keeps.valued
  rw [trace] at reads
  refine ⟨start, ran, ⟨constants, reads⟩, fun others again key listed => ?_⟩
  cases reads.unique again
  obtain ⟨node, found, marked⟩ := (sound.consistent.mem_outputs key).mp listed
  obtain ⟨⟨kept, after, foundAfter, markedAfter, sameId⟩, equal⟩ :=
    same node.id ⟨key, node, found, marked, rfl⟩
  refine ⟨kept, reference node.id, ?_, ?_, valuation.denotes sound found, ?_⟩
  · rw [Program.idOf_of_node? found]
    exact keeps.sound.consistent.keyOf?_eq_some.mpr ⟨after, foundAfter, sameId⟩
  · exact (keeps.sound.consistent.mem_outputs kept).mpr ⟨after, foundAfter, markedAfter⟩
  · rw [← equal, ← sameId]
    exact valued.denotes keeps.sound foundAfter

/-- Integers as values: the buffer `w` holds -2, all else that is given is 3, and layers multiply. -/
def integers : Interpretation Int where
  environment id := if id = "w" then -2 else 3
  activate function value := if function = .abs then value.natAbs else value
  compute _ arguments := arguments.foldl (· * ·) 1

theorem outputs_keep_their_values_scaledInput :
    (scaledInput.setUp? {} {} 0).map (fun start => start.outputs.map start.idOf) =
        some ["product"] ∧
      (scaledInput.build {} {} 0).trace.folded.length = 1 ∧
      ∃ finished, (scaledInput.build {} {} 0).outcome = .ok finished ∧
      ∃ start, scaledInput.setUp? {} {} 0 = some start ∧
        (∃ constants, ReadsConstants integers (scaledInput.build {} {} 0).trace.folded constants) ∧
        ∀ constants, ReadsConstants integers (scaledInput.build {} {} 0).trace.folded constants →
          ∀ key ∈ start.outputs, ∃ kept value, finished.keyOf? (start.idOf key) = some kept ∧
            kept ∈ finished.outputs ∧ start.Denotes integers integers.environment key value ∧
            finished.Denotes integers constants kept value := by
  have outputs : (scaledInput.setUp? {} {} 0).map (fun start => start.outputs.map start.idOf) =
    some ["product"] := by cbv
  have ends : ((scaledInput.build {} {} 0).outcome.isOk,
    (scaledInput.build {} {} 0).trace.folded.length) = (true, 1) := by cbv
  obtain ⟨succeeds, folds⟩ := Prod.mk.inj ends
  obtain ⟨finished, built⟩ : ∃ finished, (scaledInput.build {} {} 0).outcome = .ok finished := by
    cases outcome : (scaledInput.build {} {} 0).outcome with
    | error fault =>
        rw [outcome] at succeeds
        cases succeeds
    | ok finished => exact ⟨finished, rfl⟩
  exact ⟨outputs, folds, finished, built,
    outputs_keep_their_values integers scaledInput {} {} 0 finished (by decide) rfl built⟩

end Topology

end LayerGraph
