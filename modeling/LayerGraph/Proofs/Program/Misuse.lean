import LayerGraph.Proofs.Program.Operation

/-!
# Misuse of operations

Keys can be followed safely in an intact program. An operation asks whether the keys that it is given
name live nodes, and the other keys that it follows are ends of edges, names or outputs. So an operation
is done or refused, and refused when a key names nothing. There is one exception: whoever puts a node
between two others is cut short when the reader is missing and what it should read is not
(`Operation.NamesMissingReader`).
-/

namespace LayerGraph

open Program

namespace Operation

variable {p start q left : Program} {operation : Operation} {fault : Fault}

/-- The keys that an operation is refused for when they name nothing. Removals pass over such keys. -/
def asksFor : Operation → List NodeKey
  | .connect prev next | .disconnect prev next => [prev, next]
  | .isolate key | .rename key _ => [key]
  | .insertAt node next _ _ => [node, next]
  | .insertPrimitive _ next _ _ => [next]
  | .insertBetween node next prev _ => [node, next, prev]
  | .replace old new | .redirectReaders old new => [old, new]
  | .exchangeIds first second => [first, second]
  | .reverse dep user => [dep, user]
  | .ensure _ | .bypass _ | .prune _ | .removeAll _ | .setOutput _ _ | .orderDepthFirst
  | .orderBreadthFirst => []

/-- An operation that is done leaves an intact program behind. -/
theorem Does.intact (does : Does p operation q) (intact : p.Intact) : q.Intact := by
  cases does with
  | ensure prim => exact intact.ensure prim
  | connect hv => exact intact.attach hv.1 hv.2
  | disconnect => exact intact.separated _ _
  | isolate => exact intact.detach _
  | insertAt puts => exact intact.puts puts
  | @insertPrimitive prim _ _ _ _ _ puts => exact (intact.ensure prim).puts puts
  | insertBetween _ puts => exact intact.puts puts
  | @bypass k _ res =>
    obtain ⟨n, i, hk, hr, -, rfl⟩ := bypass?_eq_some.mp res
    have inputLive := (intact.reads_live k i (hr ▸ List.mem_singleton_self i)).1
    exact (intact.redirectAll inputLive _).detachAndErase ((node?_redirectAll ..).trans hk)
  | prune res =>
    obtain ⟨n, hk, -, -, rfl⟩ := prune?_eq_some.mp res
    exact intact.detachAndErase hk
  | removeAll ks => exact intact.removeAll ks
  | replace repl => exact intact.replaceNode repl
  | redirectReaders hv => exact intact.redirectAll hv.2 _
  | rename hk unused => exact intact.renameNode hk unused
  | exchangeIds foundFirst foundSecond => exact intact.exchangeNodeIds foundFirst foundSecond
  | reverse turnable => exact intact.turned turnable
  | reverseOrdered turnable => exact (intact.turned turnable).reordered _
  | setOutput k output => exact intact.setOutput k output
  | orderDepthFirst => exact intact.reordered _
  | orderBreadthFirst => exact intact.reordered _
  | notBypassed | notPruned | replaceSame | renameSame => exact intact

/-- An operation is done only when all keys that it asks for name live nodes. -/
theorem Does.live (does : Does p operation q) (intact : p.Intact) :
    ∀ k ∈ operation.asksFor, p.contains k := by
  have one : ∀ {k}, p.contains k → ∀ o ∈ [k], p.contains o := by
    intro k hv o mem
    rwa [List.mem_singleton.mp mem]
  have more : ∀ {k rest}, p.contains k → (∀ o ∈ rest, p.contains o) → ∀ o ∈ k :: rest, p.contains o := by
    intro k rest hv later o mem
    rcases List.mem_cons.mp mem with rfl | mem
    · exact hv
    · exact later o mem
  cases does with
  | connect hv => exact more hv.1 (one hv.2)
  | disconnect hv => exact more hv.1 (one hv.2)
  | isolate hv => exact one hv
  | insertAt puts =>
    obtain ⟨prev, hm, insertable, -⟩ := puts
    exact more insertable.nodeLive (one insertable.nextLive)
  | @insertPrimitive _ next _ _ _ _ puts =>
    -- The new node reads nothing, so that it is not the reader, which was there before.
    obtain ⟨prev, hm, insertable, -⟩ := puts
    have hr := List.mem_of_getElem? insertable.reads
    rw [dependencies_ensure] at hr
    exact one (intact.reads_live next prev hr).2
  | insertBetween prevLive puts =>
    obtain ⟨src, hm, insertable, -⟩ := puts
    exact more insertable.nodeLive (more insertable.nextLive (one prevLive))
  | replace repl =>
    exact more (contains_of_node? repl.foundOld) (one (contains_of_node? repl.foundNew))
  | replaceSame hv => exact more hv (one hv)
  | redirectReaders hv => exact more hv.1 (one hv.2)
  | rename hk => exact one (contains_of_node? hk)
  | renameSame hv => exact one hv
  | exchangeIds foundFirst foundSecond =>
    exact more (contains_of_node? foundFirst) (one (contains_of_node? foundSecond))
  | reverse turnable => exact more turnable.depLive (one turnable.userLive)
  | reverseOrdered turnable => exact more turnable.depLive (one turnable.userLive)
  | _ => exact fun _ mem => absurd mem List.not_mem_nil

theorem Fails.intact (fails : Fails p operation fault left) (intact : p.Intact) : left.Intact := by
  cases fails with
  | refused =>
    cases operation with
    | insertPrimitive prim => exact intact.ensure prim
    | _ => exact intact
  | cut => exact intact
  | cyclic _ turnable => exact intact.turned turnable

/-- **An operation is done, refused or cut short at a missing reader,** and leaves an intact program
behind. It is done only when all keys that it asks for name live nodes. -/
theorem ends_edit (intact : p.Intact) (operation : Operation) : Ends operation.edit p
      (fun _ q => q.Intact ∧ ∀ k ∈ operation.asksFor, p.contains k)
      (fun fault left => left.Intact ∧ (operation.NamesMissingReader p ∧
        (∃ k, fault = .aborted (.deadKey k)) ∨
          ¬ operation.NamesMissingReader p ∧ ∃ error, fault = .refused error)) := by
  refine (ends_does intact operation).mono (fun _ _ does => ⟨does.intact intact, does.live intact⟩)
    fun fault left fails => ⟨fails.intact intact, ?_⟩
  cases fails with
  | refused refusal present => exact .inr ⟨present, refusal.2⟩
  | @cut _ next _ _ missing => exact .inl ⟨missing, next, rfl⟩
  | cyclic refusal => exact .inr ⟨not_false, refusal.2⟩

theorem intact_perform (intact : p.Intact) : (operation.perform p).Intact :=
  perform_keeps intact (fun _ does => does.intact intact) fun _ _ fails => fails.intact intact

theorem intact_run (intact : start.Intact) (operations : List Operation) :
    (run operations start).Intact := by
  induction operations generalizing start with
  | nil => exact intact
  | cons operation rest ih => exact ih (intact_perform intact)

/-- **Misuse is refused, except that a missing reader cuts an insertion short.** After any run, an
operation with any keys follows a key that names nothing exactly when it is to put a node between a live
node and a reader that is not there. In every other case it is refused when a key that it asks for names
nothing. -/
theorem only_missing_readers_cut_short (started : Started start) (operations : List Operation)
    (operation : Operation) :
    ((∃ cause left, operation.edit (run operations start) = .error (.aborted cause) left) ↔
      operation.NamesMissingReader (run operations start)) ∧
    ∀ key ∈ operation.asksFor, ¬ (run operations start).contains key →
      ¬ operation.NamesMissingReader (run operations start) →
        ∃ error left, operation.edit (run operations start) = .error (.refused error) left := by
  have ends := ends_edit (intact_run started.consistent.intact operations) operation
  generalize run operations start = program at ends
  rw [Ends] at ends
  have asks : operation.NamesMissingReader program →
      ∃ key ∈ operation.asksFor, ¬ program.contains key := by
    intro missing
    cases operation with
    | insertBetween node next prev how =>
        exact ⟨next, List.mem_cons_of_mem _ List.mem_cons_self, missing.2⟩
    | _ => exact missing.elim
  cases result : operation.edit program with
  | ok value edited =>
      rw [result] at ends
      have live := ends.2
      refine ⟨⟨?_, fun missing => ?_⟩, fun key member dead _ => absurd (live key member) dead⟩
      · rintro ⟨_, _, failed⟩
        cases failed
      · obtain ⟨key, member, dead⟩ := asks missing
        exact absurd (live key member) dead
  | error fault left =>
      rw [result] at ends
      obtain ⟨missing, key, rfl⟩ | ⟨present, error, rfl⟩ := ends.2
      · exact ⟨⟨fun _ => missing, fun _ => ⟨_, _, rfl⟩⟩, fun _ _ _ present => absurd missing present⟩
      · refine ⟨⟨?_, fun missing => absurd missing present⟩, fun _ _ _ _ => ⟨error, left, rfl⟩⟩
        rintro ⟨_, _, failed⟩
        cases failed

/-- A node reads itself twice and another one, and is replaced. Its slots have a gap then. -/
def replacedLoop : List Operation :=
  [.ensure { id := "loop", kind := .eltwise .sum }, .ensure { id := "source", kind := .softmax },
    .connect 0 0, .connect 1 0, .connect 0 0, .ensure { id := "new", kind := .softmax }, .replace 0 2]

theorem only_missing_readers_cut_short_replacedLoop :
    Started { id := 0 } ∧ ¬ (run replacedLoop { id := 0 }).Consistent ∧
      ¬ (run replacedLoop { id := 0 }).contains 0 ∧
      ∃ error left, edit (.reverse 0 1) (run replacedLoop { id := 0 }) = .error (.refused error) left := by
  have started : Started { id := 0 } := .empty 0 {} false
  have gap : ¬ (run replacedLoop { id := 0 }).Consistent := by
    intro consistent
    have slots := consistent.slots 2
    rw [Program.SlotsExact] at slots
    revert slots
    decide
  have dead : ¬ (run replacedLoop { id := 0 }).contains 0 := by decide
  exact ⟨started, gap, dead, (only_missing_readers_cut_short started replacedLoop (.reverse 0 1)).2 0
    List.mem_cons_self dead id⟩

/-- **An insertion between a live node and a missing reader is cut short** instead of being refused. -/
theorem missing_reader_cuts_short :
    Started { id := 0 } ∧
      edit (.insertBetween 0 7 0 ⟨false, false⟩)
          (run [.ensure { id := "source", kind := .softmax }] { id := 0 }) =
        .error (.aborted (.deadKey 7))
          (run [.ensure { id := "source", kind := .softmax }] { id := 0 }) :=
  ⟨.empty 0 {} false, rfl⟩

end Operation

end LayerGraph
