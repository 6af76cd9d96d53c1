import LayerGraph.Proofs.Build.DeclarationOrder

/-!
# What is said to the backend

A build hands nodes to the backend, and constant parts when their nodes have been handed over. Most
passes say nothing (`Build.Quiet`).

The constant part of a program is built in the midst of the build of the program. Programs are told
apart by their numbers, and the number of a constant part is a new one (`Session.Tells`). What it means
that all nodes of a program are handed over once is said by `CompilesOnce`.
-/

namespace LayerGraph

open List

/-- The node that a call hands over for the program with a given number, and the program as it is
then. -/
def BackendCall.handed? (number : Nat) : BackendCall → Option (Program × NodeKey)
  | compile program key => if program.id = number then some (program, key) else none
  | fold _ => none

/-- The nodes that are handed over for the program with a given number, in the order of the calls. -/
def handedOver (number : Nat) (calls : List BackendCall) : List (Program × NodeKey) :=
  calls.filterMap (·.handed? number)

theorem handedOver_append (num : Nat) (calls more : List BackendCall) :
    handedOver num (calls ++ more) = handedOver num calls ++ handedOver num more :=
  filterMap_append

theorem handedOver_fold (num : Nat) (inner : Program) : handedOver num [.fold inner] = [] := rfl

theorem handedOver_compile {num : Nat} {program : Program} (e : program.id = num)
    (ks : List NodeKey) : handedOver num (ks.map (.compile program)) = ks.map (program, ·) := by
  rw [handedOver, filterMap_map]
  exact filterMap_eq_map_iff_forall_eq_some.mpr fun k _ => if_pos e

theorem handedOver_compile_other {num : Nat} {program : Program} (o : program.id ≠ num)
    (ks : List NodeKey) : handedOver num (ks.map (.compile program)) = [] := by
  rw [handedOver, filterMap_map]
  exact filterMap_eq_nil_iff.mpr fun k _ => if_neg o

/-- The nodes that are handed over for a program are those of its processing order. -/
structure CompilesOnce (calls : List BackendCall) (program : Program) : Prop where
  /-- The ids under which nodes are handed over are the final ones, each as often as there are nodes
  with that id in the order. -/
  handed : ((handedOver program.id calls).map fun pair => pair.1.idOf pair.2).Perm program.ids
  nodup : program.ids.Nodup
  /-- The nodes of the order at one moment are handed over in that order, then the reorders that
  have been put behind inputs since. -/
  ordered : ∃ (ready after : Program) (inserted : List NodeKey), handedOver program.id calls =
    ready.order.toList.map (ready, ·) ++ inserted.map (after, ·) ∧
      Program.Grows ready after inserted ∧ ∀ key ∈ inserted, ∃ input ∈ ready.inputs, ∃ format,
        after.idOf key = reorderId (ready.idOf input) format

theorem CompilesOnce.congr {calls more : List BackendCall} {program : Program}
    (e : handedOver program.id more = handedOver program.id calls)
    (once : CompilesOnce calls program) : CompilesOnce more program :=
  ⟨e ▸ once.handed, once.nodup, e ▸ once.ordered⟩

/-- It matters only which ids are listed, and in which order. -/
theorem CompilesOnce.of_ids {calls : List BackendCall} {program q : Program}
    (num : q.id = program.id) (ids : q.ids = program.ids)
    (once : CompilesOnce calls program) : CompilesOnce calls q := by
  refine ⟨?_, ids ▸ once.nodup, ?_⟩
  · rw [num, ids]
    exact once.handed
  · rw [num]
    exact once.ordered

/-! ## Steps that say nothing to the backend -/

namespace Session

/-- Nothing has been said to the backend, and no number has been taken. -/
structure Silent (session next : Session) : Prop where
  calls : next.trace.calls = session.trace.calls
  numbers : next.nextProgram = session.nextProgram

theorem Silent.refl (s : Session) : s.Silent s := ⟨rfl, rfl⟩

theorem Silent.trans {s next last : Session} (a : s.Silent next)
    (b : next.Silent last) : s.Silent last :=
  ⟨b.calls.trans a.calls, b.numbers.trans a.numbers⟩

end Session

namespace Build

open Program

variable {s : Session} {α β : Type}

/-- A step that says nothing to the backend. -/
def Quiet (step : Build α) : Prop :=
  ∀ s, Ensures step s (fun _ next => s.Silent next)

theorem quiet_pure (v : α) : Quiet (pure v : Build α) := fun s => .refl s

theorem Quiet.bind {step : Build α} {next : α → Build β} (a : Quiet step)
    (b : ∀ v, Quiet (next v)) : Quiet (step >>= next) := by
  intro s
  rw [ensures_bind]
  apply (a s).weaken
  intro v mid silent
  apply (b v mid).weaken
  intro _ last later
  exact silent.trans later

theorem quiet_edit (change : Edit α) : Quiet (edit change) := by
  intro s
  rw [ensures_edit, Ensures]
  cases change s.program with
  | ok v program => exact ⟨rfl, rfl⟩
  | error fault program => trivial

theorem quiet_program : Quiet program := fun s => .refl s

theorem quiet_get : Quiet (get : Build Session) := fun s => .refl s

theorem quiet_modify {change : Session → Session} (silent : ∀ s, Session.Silent s (change s)) :
    Quiet (modify change : Build Unit) := fun s => silent s

theorem quiet_modifyProgram (change : Program → Program) : Quiet (modifyProgram change) :=
  fun _ => ⟨rfl, rfl⟩

theorem quiet_warn (warning : Warning) : Quiet (warn warning) := fun _ => ⟨rfl, rfl⟩

theorem quiet_checked (res : Checked α) : Quiet (Checked.lift res : Build α) := by
  intro s
  exact ensures_checked fun _ _ => .refl s

theorem quiet_forM {step : α → Build Unit} (quiet : ∀ x, Quiet (step x))
    (xs : List α) : Quiet (xs.forM step) := by
  intro s
  refine ensures_forM (fun _ st => s.Silent st) ?_ (.refl s)
  intro x rest st pre
  apply (quiet x st).weaken
  intro _ next later
  exact pre.trans later

theorem quiet_removeSplit (k : NodeKey) : Quiet (removeSplit k) := by
  refine (quiet_edit _).bind fun removed => ?_
  cases removed with
  | true => exact quiet_pure ()
  | false => exact (quiet_edit _).bind fun n => quiet_warn _

theorem quiet_decideOutputSizes : Quiet decideOutputSizes := by
  refine quiet_program.bind fun program => ?_
  split
  · exact (quiet_pure _).bind fun _ => quiet_modify fun _ => ⟨rfl, rfl⟩
  · exact (quiet_checked _).bind fun _ => quiet_modify fun _ => ⟨rfl, rfl⟩

theorem quiet_cleanUp : Quiet cleanUp := by
  refine (quiet_edit _).bind fun _ => quiet_program.bind fun program => ?_
  split
  · exact quiet_edit _
  · exact quiet_pure ()

/-- **Only three passes talk to the backend.** -/
theorem quiet_body (folding : Build Unit) {pass : Pass}
    (silent : pass ∉ [.foldConstants, .compileNodes, .reorderInputs]) : Quiet (pass.body folding) := by
  cases pass with
  | setUp =>
    exact quiet_program.bind fun _ => (quiet_forM quiet_removeSplit _).bind fun _ =>
      (quiet_modifyProgram _).bind fun _ => (quiet_edit _).bind fun _ => quiet_edit _
  | markNodes => exact quiet_program.bind fun _ => quiet_edit _
  | trim =>
    exact quiet_program.bind fun _ => (quiet_checked _).bind fun _ => quiet_modifyProgram _
  | orderBreadthFirst => exact quiet_modifyProgram _
  | decideOutputSizes => exact quiet_decideOutputSizes
  | fuseActivations => exact quiet_program.bind fun _ => quiet_edit _
  | prepareWindows => exact quiet_get.bind fun _ => quiet_edit _
  | dropReorders => exact quiet_program.bind fun _ => quiet_edit _
  | shareBuffers =>
    rw [Pass.body, shareBuffers]
    exact quiet_modifyProgram _
  | computeConflicts => exact quiet_program.bind fun _ => quiet_edit _
  | cleanUp => exact quiet_cleanUp
  | foldConstants => exact absurd (by simp) silent
  | compileNodes => exact absurd (by simp) silent
  | reorderInputs => exact absurd (by simp) silent

/-! ## What follows a pass -/

/-- Writing a listing leaves the program as it is and says nothing to the backend. -/
theorem ensures_writeDump_silent_program (pass : Pass) : Ensures (writeDump pass) s
    (fun _ next => next.program = s.program ∧ s.Silent next) := by
  simp only [writeDump, ensures_bind, ensures_get]
  split
  · exact ⟨rfl, .refl s⟩
  next directory _ =>
  rw [ensures_bind]
  apply (ensures_refuseDump _).mono
  intro _ next e
  subst e
  rw [ensures_bind]
  refine ensures_checked fun text _ => ?_
  rw [ensures_bind]
  apply (ensures_refuseDump _).mono
  intro _ next e
  subst e
  exact ⟨rfl, rfl, rfl⟩

/-- What holds after the body of a pass, if all nodes stand at correct places, holds after the pass. -/
theorem ensures_runWith_placed {folding : Build Unit} {pass : Pass} {done : Session → Prop}
    (stable : ∀ pre after, after.program = pre.program → Session.Silent pre after →
      done pre → done after)
    (finishes : s.program.options.enables pass.name → Ensures (pass.body folding) s
      (fun _ next => next.program.firstMisplaced? = none → done next))
    (skipped : ¬ s.program.options.enables pass.name → done s) :
    Ensures (runWith folding pass) s (fun _ next => done next) := by
  simp only [runWith, ensures_bind, ensures_program]
  split
  · next enabled =>
    rw [ensures_bind]
    apply (finishes enabled).weaken
    intro _ next holds
    simp only [ensures_bind, ensures_modify]
    apply (ensures_checkOrder_iff pass).mono
    rintro _ checked ⟨rfl, placed⟩
    apply (ensures_writeDump_silent_program pass).weaken
    intro _ last h
    exact stable next last h.1 ⟨h.2.calls, h.2.numbers⟩ (holds placed)
  · next disabled => exact stable s _ rfl ⟨rfl, rfl⟩ (skipped disabled)

end Build

/-! ## What is said during a build -/

namespace Session

open Program

variable {start s next : Session} {told : List BackendCall}

/-- What has been said to the backend since a build started. Nodes are handed over for the program
that is built, and for constant parts, whose numbers were taken since. Constant parts are handed over
with all their nodes before they are evaluated. -/
structure Tells (start session : Session) (told : List BackendCall) : Prop where
  calls : session.trace.calls = start.trace.calls ++ told
  grows : start.nextProgram ≤ session.nextProgram
  numbers : ∀ number, handedOver number told ≠ [] → number = start.program.id ∨
    start.nextProgram ≤ number ∧ number < session.nextProgram
  inner : ∀ inner, .fold inner ∈ told → (start.nextProgram ≤ inner.id ∧
    inner.id < session.nextProgram) ∧ inner.Sound ∧ CompilesOnce told inner

theorem Tells.refl (start : Session) : start.Tells start [] where
  calls := (append_nil _).symm
  grows := Nat.le_refl _
  numbers _ handed := absurd rfl handed
  inner _ mem := absurd mem not_mem_nil

theorem Tells.silent (tells : start.Tells s told) (silent : s.Silent next) : start.Tells next told where
  calls := silent.calls.trans tells.calls
  grows := silent.numbers ▸ tells.grows
  numbers := silent.numbers ▸ tells.numbers
  inner := silent.numbers ▸ tells.inner

/-- Nodes of the program that is built may be handed over. -/
theorem Tells.compile (tells : start.Tells s told) {ks : List NodeKey} {program : Program} (below :
    start.program.id < start.nextProgram) (e : program.id = start.program.id) (calls : next.trace.calls =
    s.trace.calls ++ ks.map (.compile program)) (numbers : next.nextProgram = s.nextProgram) :
    start.Tells next (told ++ ks.map (.compile program)) where
  calls := by rw [calls, tells.calls, append_assoc]
  grows := numbers ▸ tells.grows
  numbers num handed := by
    by_cases own : num = start.program.id
    · exact .inl own
    · rw [handedOver_append, handedOver_compile_other (e ▸ Ne.symm own), append_nil] at handed
      rw [numbers]
      exact tells.numbers num handed
  inner inner mem := by
    have mem : .fold inner ∈ told := by simpa using mem
    obtain ⟨range, hs, once⟩ := tells.inner inner mem
    rw [numbers]
    refine ⟨range, hs, once.congr ?_⟩
    have o : program.id ≠ inner.id := by omega
    rw [handedOver_append, handedOver_compile_other o, append_nil]

/-- A constant part may be built under a new number, and evaluated. -/
theorem Tells.fold (tells : start.Tells s told) {inner fin : Session}
    (below : start.program.id < start.nextProgram) {innerTold : List BackendCall}
    (calls : inner.trace.calls = s.trace.calls) (num : inner.program.id = s.nextProgram)
    (numbers : inner.nextProgram = s.nextProgram + 1)
    (tellsInner : inner.Tells fin innerTold) (e : fin.program.id = inner.program.id)
    (hs : fin.program.Sound) (once : CompilesOnce innerTold fin.program)
    (folded : next.trace.calls = fin.trace.calls ++ [.fold fin.program])
    (numbered : next.nextProgram = fin.nextProgram) :
    start.Tells next (told ++ (innerTold ++ [.fold fin.program])) ∧
      handedOver start.program.id (innerTold ++ [.fold fin.program]) = [] := by
  have growsInner := tellsInner.grows
  have grows := tells.grows
  -- Numbers of nodes that were handed over before are older than those of the constant part.
  have old : ∀ num, s.nextProgram ≤ num → handedOver num told = [] := by
    intro num later
    by_contra handed
    have range := tells.numbers num handed
    omega
  have new : ∀ num, num < s.nextProgram →
      handedOver num (innerTold ++ [.fold fin.program]) = [] := by
    intro o earlier
    rw [handedOver_append, handedOver_fold, append_nil]
    by_contra handed
    have range := tellsInner.numbers o handed
    omega
  refine ⟨⟨?_, by omega, ?_, ?_⟩, new _ (by omega)⟩
  · rw [folded, tellsInner.calls, calls, tells.calls, append_assoc, append_assoc]
  · intro o handed
    rw [handedOver_append, handedOver_append, handedOver_fold, append_nil, Ne,
      append_eq_nil_iff, not_and_or] at handed
    rcases handed with pre | within
    · have range := tells.numbers o pre
      omega
    · have range := tellsInner.numbers o within
      omega
  · intro o mem
    rcases mem_append.mp mem with pre | within
    · obtain ⟨range, soundToo, onceToo⟩ := tells.inner o pre
      refine ⟨by omega, soundToo, onceToo.congr ?_⟩
      rw [handedOver_append, new o.id range.2, append_nil]
    · have onceToo : (s.nextProgram ≤ o.id ∧ o.id < fin.nextProgram) ∧
          o.Sound ∧ CompilesOnce innerTold o := by
        rcases mem_append.mp within with nested | last
        · obtain ⟨range, rest⟩ := tellsInner.inner o nested
          exact ⟨by omega, rest⟩
        · cases mem_singleton.mp last
          exact ⟨by omega, hs, once⟩
      obtain ⟨range, soundToo, onceToo⟩ := onceToo
      refine ⟨by omega, soundToo, onceToo.congr ?_⟩
      rw [handedOver_append, handedOver_append, handedOver_fold, append_nil, old _ range.1, nil_append]

end Session

end LayerGraph
