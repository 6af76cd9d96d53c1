import LayerGraph.Proofs.Memory.Conflicts

/-!
# Sharing storage with a queue that works out of order

With such a queue nothing but data flow orders the nodes: a node may start as soon as everything it
reads has finished, and starts and finishes interleave in any way (`Progress.step?`). At every
moment everything that a started node depends on, directly or not, has finished
(`Program.finished_of_dependsOn`).

A buffer is in use from the start of its owner until the owner and all readers of the buffer have
finished, and for good when an output lies in it (`Program.InUse`). When owners between which data
flow decides nothing have different places, no other owner of the same place runs while a buffer is
in use.
-/

namespace LayerGraph

open List

/-- Something happens to a node. -/
inductive Event where
  | start (key : NodeKey)
  | finish (key : NodeKey)
deriving DecidableEq

/-- How far an execution has come. -/
structure Progress where
  started : List NodeKey := []
  finished : List NodeKey := []
deriving DecidableEq

namespace Progress

/-- A node starts once, when everything it reads has finished, and finishes once after that. -/
def step? (program : Program) (progress : Progress) : Event → Option Progress
  | .start key =>
    if program.contains key ∧ key ∉ progress.started ∧
        ∀ dependency ∈ program.dependencies key, dependency ∈ progress.finished then
      some { progress with started := key :: progress.started }
    else none
  | .finish key =>
    if key ∈ progress.started ∧ key ∉ progress.finished then
      some { progress with finished := key :: progress.finished }
    else none

/-- How far an execution has come after some events, if they can happen in this order. -/
def after? (program : Program) (events : List Event) : Option Progress :=
  events.foldlM (step? program) {}

/-- A node has started and not yet finished. -/
def IsRunning (progress : Progress) (key : NodeKey) : Prop :=
  key ∈ progress.started ∧ key ∉ progress.finished

/-- What has finished has started, and what has started reads only what has finished. -/
structure Sound (program : Program) (progress : Progress) : Prop where
  started : ∀ key ∈ progress.finished, key ∈ progress.started
  finished : ∀ key ∈ progress.started, ∀ dependency ∈ program.dependencies key,
    dependency ∈ progress.finished

variable {p : Program} {progress next : Progress}

theorem Sound.step (hs : Sound p progress) {event : Event}
    (stepped : step? p progress event = some next) : Sound p next := by
  cases event with
  | start key =>
    rw [step?] at stepped
    split at stepped
    case isFalse => cases stepped
    next ready =>
    cases stepped
    refine ⟨fun other done => mem_cons_of_mem _ (hs.started other done), ?_⟩
    intro other mem dep hr
    rcases mem_cons.mp mem with rfl | earlier
    · exact ready.2.2 dep hr
    · exact hs.finished other earlier dep hr
  | finish key =>
    rw [step?] at stepped
    split at stepped
    case isFalse => cases stepped
    next running =>
    cases stepped
    refine ⟨?_, fun other mem dep hr =>
      mem_cons_of_mem _ (hs.finished other mem dep hr)⟩
    intro other mem
    rcases mem_cons.mp mem with rfl | earlier
    · exact running.1
    · exact hs.started other earlier

variable {events : List Event}

theorem Sound.run (hs : Sound p progress) (ran : events.foldlM (step? p) progress = some next) : Sound
    p next := by
  induction events generalizing progress with
  | nil =>
    cases ran
    exact hs
  | cons event rest ih =>
    rw [foldlM_cons, Option.bind_eq_bind, Option.bind_eq_some_iff] at ran
    obtain ⟨mid, stepped, ran⟩ := ran
    exact ih (hs.step stepped) ran

/-- **Every execution is sound at every moment.** -/
theorem sound_after? (ran : after? p events = some progress) : Sound p progress :=
  Sound.run ⟨by simp, by simp⟩ ran

end Progress

namespace Program

variable {p : Program} {progress : Progress}

/-- A node depends on another one, directly or through others. -/
def DependsOn (program : Program) (key ancestor : NodeKey) : Prop :=
  Relation.TransGen (fun dependency key => dependency ∈ program.dependencies key) ancestor key

variable {key ancestor : NodeKey} {found : List NodeKey} {kn : List (NodeKey × List NodeKey)}

theorem finished_of_dependsOn (hs : progress.Sound p) (depends : p.DependsOn key ancestor) (started :
    key ∈ progress.started) : ancestor ∈ progress.finished := by
  induction depends with
  | single hr => exact hs.finished _ started _ hr
  | tail _ hr ih => exact ih (hs.started _ (hs.finished _ started _ hr))

/-! ## Collected ancestors -/

theorem mem_foldl_insert {ks : List NodeKey} : key ∈ ks.foldl (fun found ancestor => found.insert
    ancestor) found ↔ key ∈ found ∨ key ∈ ks := by
  induction ks generalizing found with
  | nil => simp
  | cons head tail ih =>
    rw [foldl_cons, ih, mem_insert_iff, mem_cons, or_assoc]
    exact or_left_comm

/-- What was collected for a key are nodes that it depends on. -/
def Collected (program : Program) (known : List (NodeKey × List NodeKey)) : Prop :=
  ∀ key above, List.lookup key known = some above → ∀ ancestor ∈ above, program.DependsOn key ancestor

theorem Collected.dependsOn (collected : p.Collected kn) {dependencies : List NodeKey} (hr :
    dependencies ⊆ p.dependencies key) (already : ∀ ancestor ∈ found, p.DependsOn key ancestor) (mem :
    ancestor ∈ dependencies.foldl (fun found dep => (dep :: (List.lookup dep kn).getD []).foldl (fun
    found ancestor => found.insert ancestor) found) found) : p.DependsOn key ancestor := by
  induction dependencies generalizing found with
  | nil => exact already ancestor mem
  | cons dep rest ih =>
    rw [cons_subset] at hr
    rw [foldl_cons] at mem
    refine ih hr.2 (fun other inFound => ?_) mem
    rcases mem_foldl_insert.mp inFound with pre | here
    · exact already other pre
    · rcases mem_cons.mp here with rfl | above
      · exact .single hr.1
      · cases lookup : List.lookup dep kn with
        | none => simp [lookup] at above
        | some ancestors =>
          rw [lookup, Option.getD_some] at above
          exact (collected dep ancestors lookup other above).tail hr.1

theorem Collected.collectAncestors (collected : p.Collected kn) (ks : List NodeKey) : p.Collected
    (p.collectAncestors kn ks) := by
  induction ks generalizing kn with
  | nil => exact collected
  | cons key rest ih =>
    rw [Program.collectAncestors]
    refine ih fun other above found ancestor mem => ?_
    rw [lookup_cons] at found
    by_cases e : other = key
    · subst e
      simp only [BEq.rfl, Option.some.injEq] at found
      subst found
      exact collected.dependsOn (fun _ hr => hr) (by simp) mem
    · have differs : (other == key) = false := by simpa using e
      simp only [differs] at found
      exact collected other above found ancestor mem

/-- **The ancestors of a node are nodes that it depends on.** -/
theorem collected_ancestors (p : Program) : p.Collected p.ancestors :=
  Collected.collectAncestors (fun _ _ found => by simp at found) _

/-! ## Buffers in use -/

/-- A buffer is in use: its owner has started, and the owner or a reader of the buffer has not
finished, or an output lies in the buffer. -/
def InUse (program : Program) (progress : Progress) (owner : NodeKey) : Prop :=
  owner ∈ progress.started ∧ (owner ∉ progress.finished ∨ (∃ reader input, program.contains reader ∧
    program.runsInPlace reader = false ∧ input ∈ program.dependencies reader ∧ program.BackedBy input
    owner ∧ reader ∉ progress.finished) ∨ ∃ output, program.isOutput output ∧ program.BackedBy output
    owner)

variable {first second : NodeKey} {place position : Nat} {node other : Node}

theorem exists_ancestors_of_precedes (precedes : Buffer.precedes p.ancestors
      (p.bufferOf true place first node) (p.bufferOf true position second other)) :
    (p.bufferOf true place first node).isKept = false ∧ p.DependsOn second first ∧
      ∀ r ∈ (p.bufferOf true place first node).readers, p.DependsOn second r := by
  rw [Buffer.precedes] at precedes
  split at precedes
  · cases precedes
  · next above found =>
    simp only [Bool.and_eq_true, Bool.not_eq_true', List.all_eq_true, contains_iff_mem] at precedes
    have depends := p.collected_ancestors second above found
    exact ⟨precedes.1.1, depends first precedes.1.2, fun r mem => depends r (precedes.2 r mem)⟩

/-- When data flow puts a buffer before an owner, the buffer is out of use once the owner has
started. -/
theorem not_inUse_of_precedes (registered : p.Registered) (hs : progress.Sound p)
    (found : p.node? first = some node) (precedes : Buffer.precedes p.ancestors
      (p.bufferOf true place first node) (p.bufferOf true position second other))
    (started : second ∈ progress.started) : ¬ p.InUse progress first := by
  obtain ⟨released, owner, readers⟩ := exists_ancestors_of_precedes precedes
  rintro ⟨-, unfinished | ⟨r, i, -, own, hr, backed, unfinished⟩ | ⟨output, hm, backed⟩⟩
  · exact unfinished (finished_of_dependsOn hs owner started)
  · have hl := mem_readers registered backed hr own place node
    exact unfinished (finished_of_dependsOn hs (readers r hl) started)
  · rw [isKept_of_output registered backed hm found place] at released
    cases released

/-- Data flow orders the uses of two buffers. -/
def AreOrdered (program : Program) (first second : NodeKey) : Prop :=
  ∃ place position node other, program.node? first = some node ∧ program.node? second = some other ∧
    (Buffer.precedes program.ancestors (program.bufferOf true place first node) (program.bufferOf true
    position second other) ∨ Buffer.precedes program.ancestors (program.bufferOf true position second
    other) (program.bufferOf true place first node))

theorem AreOrdered.symm (ordered : p.AreOrdered first second) : p.AreOrdered second first := by
  obtain ⟨place, position, node, other, found, ho, precedes⟩ := ordered
  exact ⟨position, place, other, node, ho, found, precedes.symm⟩

section Separated

variable {Place : Type} {storage : NodeKey → Place}

/-- Data flow orders the uses of an owner's buffer and that of a later one at the same place. -/
theorem areOrdered_of_split (unordered : p.NotesConflicts .outOfOrderAware)
    (separates : p.Separates storage) {pre mid after : List NodeKey}
    (split : p.order.toList = pre ++ first :: (mid ++ second :: after))
    (ownsFirst : p.ownsBuffer first) (ownsSecond : p.ownsBuffer second)
    (shared : storage first = storage second) : p.AreOrdered first second := by
  obtain ⟨node, found, ofFirst⟩ := bufferAt?_of_ownsBuffer ownsFirst pre.length
  obtain ⟨other, ho, ofSecond⟩ := bufferAt?_of_ownsBuffer ownsSecond (pre.length + 1 + mid.length)
  refine ⟨pre.length, pre.length + 1 + mid.length, node, other, found, ho, ?_⟩
  by_contra neither
  rw [not_or] at neither
  refine separates first second ownsFirst ownsSecond
    (unordered pre mid after first second split _ _ ofFirst ofSecond ?_) shared
  simp only [bufferConflict, Buffer.isUnordered, Bool.and_eq_true, Bool.not_eq_true']
  exact ⟨Bool.eq_false_iff.mpr neither.1, Bool.eq_false_iff.mpr neither.2⟩

theorem areOrdered_of_shared (complete : p.HasCompleteOrder)
    (unordered : p.NotesConflicts .outOfOrderAware) (separates : p.Separates storage)
    (ownsFirst : p.ownsBuffer first) (ownsSecond : p.ownsBuffer second)
    (ne : first ≠ second) (shared : storage first = storage second) :
    p.AreOrdered first second := by
  have firstListed := (complete.complete first).mpr (contains_of_any ownsFirst)
  have secondListed := (complete.complete second).mpr (contains_of_any ownsSecond)
  obtain ⟨pre, after, split⟩ := append_of_mem firstListed
  rw [split, mem_append, mem_cons] at secondListed
  rcases secondListed with earlier | e | later
  · obtain ⟨front, mid, rfl⟩ := append_of_mem earlier
    exact (areOrdered_of_split unordered separates (by simpa using split) ownsSecond ownsFirst
      shared.symm).symm
  · exact absurd e.symm ne
  · obtain ⟨mid, rest, rfl⟩ := append_of_mem later
    exact areOrdered_of_split unordered separates split ownsFirst ownsSecond shared

end Separated

/-- **Storage is shared safely out of order.** The memory dependencies of a program can be computed.
Whenever owners that are noted with each other have different storage, then at every moment of
every execution that respects data flow, no other owner of the same storage runs while a buffer is
in use. -/
theorem not_running_while_inUse (program : Program) (complete : program.HasCompleteOrder)
    (registered : program.Registered) (single : program.InPlaceReadsOne) :
    ∃ computed, Edit.computeConflicts .outOfOrderAware program = .ok () computed ∧
      Noted program computed ∧
      (∀ key, computed.contains key → ∃ owner, computed.BackedBy key owner) ∧
      ∀ (Place : Type) (storage : NodeKey → Place), computed.Separates storage →
        ∀ events progress, Progress.after? computed events = some progress →
          ∀ first second, computed.ownsBuffer first → computed.ownsBuffer second →
            first ≠ second → storage first = storage second →
            computed.InUse progress first → ¬ progress.IsRunning second := by
  obtain ⟨computed, result, noted, unordered⟩ :=
    exists_computed complete (nofun : MemoryStrategy.outOfOrderAware ≠ .basic)
  have completeComputed := complete.altered noted.annotated
  have registeredComputed := noted.registered registered
  refine ⟨computed, result, noted, ?_, ?_⟩
  · intro key live
    obtain ⟨owner, -, backed⟩ := exists_backedBy completeComputed (noted.inPlaceReadsOne single) key
      ((completeComputed.complete key).mpr live)
    exact ⟨owner, backed⟩
  intro Place storage separates events progress ran first second ownsFirst ownsSecond different
    shared inUse running
  have sound := Progress.sound_after? ran
  obtain ⟨place, position, node, other, found, foundOther, before | after⟩ :=
    areOrdered_of_shared completeComputed unordered separates ownsFirst ownsSecond different shared
  · exact not_inUse_of_precedes registeredComputed sound found before running.1 inUse
  · -- The other owner has finished, for it stands before one that has started.
    obtain ⟨-, depends, -⟩ := exists_ancestors_of_precedes after
    exact running.2 (finished_of_dependsOn sound depends inUse.1)

theorem not_running_while_inUse_inPlaceChain :
    inPlaceChain.HasCompleteOrder ∧ inPlaceChain.Registered ∧ inPlaceChain.InPlaceReadsOne ∧
      ∃ computed, Edit.computeConflicts .outOfOrderAware inPlaceChain = .ok () computed ∧
        ∀ storage : NodeKey → Nat, computed.Separates storage → storage 0 = storage 3 →
          ∀ events progress, Progress.after? computed events = some progress →
            computed.InUse progress 0 → ¬ progress.IsRunning 3 := by
  have complete : inPlaceChain.HasCompleteOrder := by decide
  have registered : inPlaceChain.Registered := by decide
  have single : inPlaceChain.InPlaceReadsOne := by decide
  obtain ⟨computed, result, noted, -, safe⟩ :=
    not_running_while_inUse inPlaceChain complete registered single
  refine ⟨complete, registered, single, computed, result, ?_⟩
  intro storage separates shared events progress ran inUse
  have owns : computed.ownsBuffer 0 ∧ computed.ownsBuffer 3 := by
    rw [noted.ownsBuffer, noted.ownsBuffer]
    decide
  exact safe Nat storage separates events progress ran 0 3 owns.1 owns.2 (by decide) shared inUse

end Program

end LayerGraph
