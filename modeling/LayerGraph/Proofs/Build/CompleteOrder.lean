import LayerGraph.Proofs.Build.Pipeline
import LayerGraph.Proofs.Program.Declaration

/-!
# The order is complete after every pass

The check that follows every pass looks at the nodes of the order only, so it says nothing about a
node that the order has lost. Here a build is observed: a step is taken after every pass that
finishes, also in the build of the constant part (`Build.runObserved`). When the step demands that
the order be complete, observing changes nothing (`Topology.buildObserved_eq`). So every order is
complete whenever a pass finishes, and a build never fails with a fault that blames the program,
unless it is one that the backend has answered.
-/

namespace LayerGraph

open Program

namespace Build

/-- Runs a pass, unless it is disabled, and takes a step when its body has finished. -/
def runObserved (observe folding : Build Unit) (pass : Pass) : Build Unit := do
  let p ← program
  if p.options.enables pass.name then
    pass.body folding
    observe
    modify fun session => { session with runs := session.runs + 1 }
    checkOrder pass
    writeDump pass
  else
    warn (.passSkipped pass.name p.id)

/-- Runs all passes of the pipeline, and takes a step after each of them. -/
def runAllObserved (observe folding : Build Unit) : Build Unit := do
  let p ← program
  (Pass.pipeline p.options p.isInternal).forM (runObserved observe folding)

/-- Builds the program of a session, and takes a step after every pass that finishes, also in the
build of the constant part. -/
def buildObserved (observe : Build Unit) : Build Unit :=
  runAllObserved observe (foldConstants (runAllObserved observe (pure ())))

/-- Raises an alarm unless the program of a session has a property. -/
def demand (property : Program → Prop) [DecidablePred property] (alarm : Fault) : Build Unit := do
  unless property (← program) do throw alarm

end Build

/-- The session at the beginning of the build of a program. -/
def Session.start (surroundings : Surroundings) (program : Program) (number : Nat) : Session :=
  { surroundings, program, nextProgram := number + 1 }

/-- Builds a topology, and takes a step after every pass that finishes. -/
def Topology.buildObserved (observe : Build Unit) (topology : Topology) (options : Options)
    (surroundings : Surroundings) (number : Nat) : BuildResult :=
  match ofTopology number topology options false with
  | .error error => { outcome := .error (.refused error), trace := {} }
  | .ok p =>
    match Build.buildObserved observe (.start surroundings p number) with
    | .ok () s => { outcome := .ok s.program, trace := s.trace }
    | .error fault s => { outcome := .error fault, trace := s.trace }

namespace Build

section Agreement

variable {σ α β : Type}

/-- Steps that agree on a state, followed by steps that agree on what comes out, agree. -/
theorem bind_congr_at {a o : EStateM Fault σ α} {b m : α → EStateM Fault σ β}
    {st : σ} (e : a st = o st) (sameNext : ∀ v next, o st = .ok v next → b v next = m v next) :
    (a >>= b) st = (o >>= m) st := by
  simp only [bind, EStateM.bind, e]
  cases res : o st with
  | ok v next => exact sameNext v next res
  | error fault next => rfl

theorem bind_of_ok {a : EStateM Fault σ α} {b : α → EStateM Fault σ β} {st next : σ}
    {v : α} (res : a st = .ok v next) : (a >>= b) st = b v next := by
  simp only [bind, EStateM.bind, res]

end Agreement

/-- A step that leaves every session with a complete order as it is. -/
def Harmless (observe : Build Unit) : Prop :=
  ∀ s : Session, s.program.HasCompleteOrder → observe s = .ok () s

theorem harmless_demand (alarm : Fault) : Harmless (demand Program.HasCompleteOrder alarm) := by
  intro s complete
  have passes : demand Program.HasCompleteOrder alarm s =
      (if s.program.HasCompleteOrder then pure () else throw alarm : Build Unit) s := rfl
  rw [passes, if_pos complete]
  rfl

variable {s : Session} {observe folding watched : Build Unit}

theorem body_congr (e : watched s = folding s) (pass : Pass) :
    pass.body watched s = pass.body folding s := by
  cases pass with
  | foldConstants => exact e
  | _ => rfl

/-- Observing a pass changes nothing when its body leaves a complete order behind. -/
theorem runObserved_eq (harmless : Harmless observe) {pass : Pass}
    (e : pass.body watched s = pass.body folding s)
    (complete : ∀ next, s.program.options.enables pass.name →
      pass.body folding s = .ok () next → next.program.HasCompleteOrder) :
    runObserved observe watched pass s = runWith folding pass s := by
  refine bind_congr_at rfl fun p next res => ?_
  cases res
  split
  · next enabled =>
    refine bind_congr_at e fun _ next fin => ?_
    exact bind_of_ok (harmless next (complete next enabled fin))
  · rfl

/-- Observing the passes changes nothing when each of them leaves a sound program behind. -/
theorem forM_runObserved_eq (harmless : Harmless observe)
    (keeps : KeepsSound s.surroundings folding)
    (e : ∀ st : Session, st.surroundings = s.surroundings → st.program.Sound →
      watched st = folding st) (hs : s.program.Sound) (passes : List Pass) :
    passes.forM (runObserved observe watched) s = passes.forM (runWith folding) s := by
  induction passes generalizing s with
  | nil => rfl
  | cons pass rest ih =>
    rw [List.forM, List.forM]
    refine bind_congr_at ?_ fun _ next fin => ?_
    · exact runObserved_eq harmless (body_congr (e s rfl hs) pass) fun next _ res =>
        ((ensures_body_sound keeps (.inl hs)).of_ok res).1.complete
    · obtain ⟨left, env⟩ := (ensures_runWith_sound keeps (.inl hs)).of_ok fin
      rw [← env] at keeps e
      exact ih keeps e left

theorem runAllObserved_eq (harmless : Harmless observe) (keeps : KeepsSound s.surroundings folding)
    (e : ∀ st : Session, st.surroundings = s.surroundings → st.program.Sound →
      watched st = folding st)
    (wf : s.program.Consistent) (enabled : s.program.options.enables Pass.setUp.name) :
    runAllObserved observe watched s = buildWith folding s := by
  refine bind_congr_at rfl fun p next res => ?_
  cases res
  rw [Pass.pipeline_eq, List.forM, List.forM]
  refine bind_congr_at ?_ fun _ next fin => ?_
  · exact runObserved_eq harmless rfl fun next _ res =>
      ((ensures_body_sound keeps (.inr ⟨rfl, wf⟩)).of_ok res).1.complete
  · obtain ⟨left, env⟩ := (ensures_runWith_sound keeps (.inr ⟨rfl, wf, enabled⟩)).of_ok fin
    rw [← env] at keeps e
    exact forM_runObserved_eq harmless keeps e left _

/-- Folding constants depends on the build of the constant part only where that can be built. -/
theorem foldConstants_congr {a b : Build Unit} (wf : s.program.Consistent)
    (e : ∀ inner, IsInner s inner → a inner = b inner) : foldConstants a s = foldConstants b s := by
  refine bind_congr_at rfl fun p next res => ?_
  cases res
  refine bind_congr_at rfl fun part next res => ?_
  rw [wf.constantPart] at res
  cases res
  split
  · rfl
  refine bind_congr_at rfl fun number next res => ?_
  cases res
  refine bind_congr_at rfl fun cp next res => ?_
  refine bind_congr_at ?_ fun _ _ _ => rfl
  cases made : ofNodes s.nextProgram s.program s.program.selectedConstants
      s.program.options.forConstants with
  | error error =>
    rw [made] at res
    cases res
  | ok cp =>
    rw [made] at res
    cases res
    have agree := e _ (isInner_constantSession wf made)
    rw [constantSession] at agree
    simp only [within, agree]

theorem buildObserved_eq (harmless : Harmless observe) (wf : s.program.Consistent)
    (enabled : s.program.options.enables Pass.setUp.name) : buildObserved observe s = build s := by
  refine runAllObserved_eq harmless (keepsSound_foldConstants _) ?_ wf enabled
  intro st env hs
  refine foldConstants_congr hs.consistent fun inner isInner => ?_
  have enabledInner : inner.program.options.enables Pass.setUp.name := by
    rw [isInner.options]
    rfl
  exact runAllObserved_eq harmless (keepsSound_pure _) (fun _ _ _ => rfl) isInner.consistent enabledInner

end Build

namespace Topology

variable {topology : Topology} {opts : Options} {p : Program} {number : Nat}

variable {env : Surroundings} {fin : Program}

/-- A build that ends well has declared a program and carried its build out. -/
theorem exists_of_build (built : (topology.build opts env number).outcome = .ok fin) : ∃ hd s,
    ofTopology number topology opts false = .ok hd ∧ Build.build (.start env hd
    number) = .ok () s ∧ s.program = fin ∧ s.trace = (topology.build opts env number).trace := by
  rw [build] at built ⊢
  cases res : ofTopology number topology opts false with
  | error error =>
    rw [res] at built
    cases built
  | ok hd =>
    simp only [res] at built ⊢
    split at built
    · next last finishes =>
      exact ⟨hd, last, rfl, finishes, Except.ok.inj built, rfl⟩
    · cases built

/-- What can be seen of a finished program, in a form that is decided by carrying the build out. -/
theorem exists_of_outcome {res : BuildResult} {holds : Program → Prop}
    (evaluates : ∃ fin ∈ res.outcome.toOption, holds fin) :
    ∃ fin, res.outcome = .ok fin ∧ holds fin := by
  obtain ⟨fin, finishes, seen⟩ := evaluates
  cases outcome : res.outcome with
  | error fault =>
    rw [outcome] at finishes
    cases finishes
  | ok same =>
    rw [outcome] at finishes
    cases finishes
    exact ⟨fin, rfl, seen⟩

theorem consistent_ofTopology (res : ofTopology number topology opts false = .ok p) :
    p.Consistent ∧ p.options = opts :=
  ⟨consistent_of_ofTopology res, (settings_of_ofTopology res).2.1⟩

/-- Observing the build of a topology changes nothing when the step that is taken leaves complete
orders alone. -/
theorem buildObserved_eq {observe : Build Unit} (harmless : Build.Harmless observe)
    (enabled : opts.enables Pass.setUp.name) (env : Surroundings) :
    topology.buildObserved observe opts env number = topology.build opts env number := by
  rw [buildObserved, build]
  cases res : ofTopology number topology opts false with
  | error error => rfl
  | ok p =>
    obtain ⟨wf, e⟩ := consistent_ofTopology res
    have enabledHere : p.options.enables Pass.setUp.name := e ▸ enabled
    have observed : Build.buildObserved observe (.start env p number) = Build.build (.start env p number)
        := Build.buildObserved_eq harmless wf enabledHere
    simp only [observed]
    rfl

/-- A build fails with a fault that blames the program only if the backend has answered it. -/
theorem excuses_of_error (enabled : opts.enables Pass.setUp.name) (env : Surroundings)
    {fault : Fault} (failed : (topology.build opts env number).outcome = .error fault) :
    env.Excuses fault := by
  rw [build] at failed
  cases res : ofTopology number topology opts false with
  | error error =>
    rw [res] at failed
    cases failed
    exact fun blames => absurd blames (ofTopology_refused res)
  | ok p =>
    obtain ⟨wf, e⟩ := consistent_ofTopology res
    have enabledHere : p.options.enables Pass.setUp.name := e ▸ enabled
    have left : Ensures Build.build (.start env p number) _ env.Excuses :=
      Build.ensures_buildWith (Build.keepsSound_foldConstants _) wf enabledHere
    simp only [res] at failed
    split at failed
    · cases failed
    · next built =>
      cases failed
      exact left.of_error built

/-- A finished program is sound. -/
theorem sound_of_build (enabled : opts.enables Pass.setUp.name) (built : (topology.build opts env
    number).outcome = .ok fin) : fin.Sound := by
  obtain ⟨hd, s, accepted, finishes, rfl, -⟩ := exists_of_build built
  obtain ⟨wf, rfl⟩ := consistent_ofTopology accepted
  have left : Ensures Build.build (.start env hd number) _ env.Excuses :=
    Build.ensures_buildWith (Build.keepsSound_foldConstants _) wf enabled
  exact (left.of_ok finishes).1

/-- **The order is complete whenever a pass finishes.** To demand after every pass, in the build of
the program and in that of its constant part, that the order lists every live node exactly once and
every node after what it reads, changes nothing about a build. Hence a build never ends because a
node is at a wrong place or because a key names nothing, unless the backend has said so itself. -/
theorem order_complete_after_every_pass (topology : Topology) (options : Options)
    (surroundings : Surroundings) (number : Nat) (enabled : options.enables Pass.setUp.name) :
    (∀ alarm, topology.buildObserved (Build.demand Program.HasCompleteOrder alarm) options
        surroundings number = topology.build options surroundings number) ∧
      ∀ fault, (topology.build options surroundings number).outcome = .error fault →
        fault.BlamesProgram →
        ∃ calls call, surroundings.backend.answer calls call = .error fault :=
  ⟨fun alarm => buildObserved_eq (Build.harmless_demand alarm) enabled surroundings,
    fun _ failed => excuses_of_error enabled surroundings failed⟩

/-- An input that is multiplied by a constant, which is computed from a constant buffer. -/
def scaledInput : Topology where
  primitives := [
    .inputLayout "x" ⟨.bfyx, ⟨1, 1, 1, 1⟩, {}⟩,
    .data "w" ⟨.bfyx, ⟨1, 1, 1, 1⟩, {}⟩,
    { id := "scale", kind := .activation .abs, inputs := ["w"] },
    { id := "product", kind := .eltwise .prod, inputs := ["x", "scale"] }]
  outputs := ["product"]

theorem order_complete_after_every_pass_scaledInput :
    ({} : Options).enables Pass.setUp.name ∧
      (∀ alarm, scaledInput.buildObserved (Build.demand Program.HasCompleteOrder alarm) {} {} 0 =
        scaledInput.build {} {} 0) ∧
      ∀ fault, (scaledInput.build {} {} 0).outcome = .error fault → fault.BlamesProgram →
        ∃ calls call, (Backend.accepting).answer calls call = .error fault :=
  ⟨rfl, order_complete_after_every_pass scaledInput {} {} 0 rfl⟩

end Topology

end LayerGraph
