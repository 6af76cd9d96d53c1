import LayerGraph.Proofs.Program.Declaration
import LayerGraph.Proofs.Program.Intact

/-!
# Runs of operations

The operations on programs, each with what it is given (`Operation`), and the program that an
operation leaves behind, whether it is done, refused or cut short (`Operation.perform`). What each of
them can do and how it can fail is said once (`Operation.Does`, `Operation.Fails`). Operations are
performed one after the other (`Operation.run`).

What every operation keeps is kept by every run (`run_keeps`). Two facts are kept. A program stays
consistent, whatever is done to it, as long as no node that reads itself is replaced. And a valid
order stays valid, as long as every node that is connected is given a place in the order: a bare
connection does not give one, but every insertion of a node without connections does.
-/

namespace LayerGraph

/-- An operation on a program, with what it is given. -/
inductive Operation where
  | ensure (primitive : Primitive)
  | connect (prev next : NodeKey)
  | disconnect (prev next : NodeKey)
  | isolate (key : NodeKey)
  | insertAt (node next slot : NodeKey) (how : Edit.Insertion)
  | insertPrimitive (primitive : Primitive) (next slot : NodeKey) (how : Edit.Insertion)
  | insertBetween (node next prev : NodeKey) (how : Edit.Insertion)
  | bypass (key : NodeKey)
  | prune (key : NodeKey)
  | removeAll (keys : List NodeKey)
  | replace (old new : NodeKey)
  | redirectReaders (old new : NodeKey)
  | rename (key : NodeKey) (id : String)
  | exchangeIds (first second : NodeKey)
  | reverse (dep user : NodeKey)
  | setOutput (key : NodeKey) (output : Bool)
  | orderDepthFirst
  | orderBreadthFirst

namespace Operation

/-- The edit that performs an operation. -/
def edit : Operation → Edit Unit
  | .ensure prim => discard (Edit.ensure prim)
  | .connect prev next => Edit.connect prev next
  | .disconnect prev next => Edit.disconnect prev next
  | .isolate key => Edit.isolate key
  | .insertAt node next slot how => Edit.insertAt node next slot how
  | .insertPrimitive prim next slot how =>
    discard (Edit.insertPrimitive prim next slot how)
  | .insertBetween node next prev how => Edit.insertBetween node next prev how
  | .bypass key => discard (Edit.bypass key)
  | .prune key => discard (Edit.prune key)
  | .removeAll keys => modify (·.removeAll keys)
  | .replace old new => Edit.replace old new
  | .redirectReaders old new => Edit.redirectReaders old new
  | .rename key id => Edit.rename key id
  | .exchangeIds first second => Edit.exchangeIds first second
  | .reverse dep user => Edit.reverse dep user
  | .setOutput key output => modify (·.setOutput key output)
  | .orderDepthFirst => Edit.orderDepthFirst
  | .orderBreadthFirst => modify (·.orderBreadthFirst)

/-! ## Outcomes -/

/-- What an operation can do. -/
inductive Does (program : Program) : Operation → Program → Prop
  | ensure (primitive : Primitive) : Does program (.ensure primitive) (program.ensure primitive).1
  | connect {prev next : NodeKey} (live : program.contains prev ∧ program.contains next) :
      Does program (.connect prev next) (program.attach prev next)
  | disconnect {prev next : NodeKey} (live : program.contains prev ∧ program.contains next) :
      Does program (.disconnect prev next) (program.separated prev next)
  | isolate {key : NodeKey} (live : program.contains key) :
      Does program (.isolate key) (program.detach key)
  | insertAt {node next slot : NodeKey} {how : Edit.Insertion} {edited : Program}
      (puts : program.PutsAt edited node next slot how) :
      Does program (.insertAt node next slot how) edited
  | insertPrimitive {primitive : Primitive} {next slot : NodeKey} {how : Edit.Insertion}
      {edited : Program} (fresh : program.keyOf? primitive.id = none)
      (puts : (program.ensure primitive).1.PutsAt edited (program.ensure primitive).2 next slot how) :
      Does program (.insertPrimitive primitive next slot how) edited
  | insertBetween {node next prev slot : NodeKey} {how : Edit.Insertion} {edited : Program}
      (live : program.contains prev) (puts : program.PutsAt edited node next slot how) :
      Does program (.insertBetween node next prev how) edited
  | bypass {key : NodeKey} {edited : Program} (result : program.bypass? key = some edited) :
      Does program (.bypass key) edited
  | notBypassed (key : NodeKey) : Does program (.bypass key) program
  | prune {key : NodeKey} {edited : Program} (result : program.prune? key = some edited) :
      Does program (.prune key) edited
  | notPruned (key : NodeKey) : Does program (.prune key) program
  | removeAll (keys : List NodeKey) : Does program (.removeAll keys) (program.removeAll keys)
  | replace {old new : NodeKey} {model replacement : Node}
      (replaceable : program.Replaceable old new model replacement) :
      Does program (.replace old new) (program.replaceNode old new model replacement.id)
  | replaceSame {key : NodeKey} (live : program.contains key) : Does program (.replace key key) program
  | redirectReaders {old new : NodeKey} (live : program.contains old ∧ program.contains new) :
      Does program (.redirectReaders old new)
        (program.redirectAll ((program.users old).filter (· != new)) old new)
  | rename {key : NodeKey} {id : String} {node : Node} (found : program.node? key = some node)
      (unused : program.keyOf? id = none) : Does program (.rename key id) (program.renameNode key node id)
  | renameSame {key : NodeKey} {id : String} (live : program.contains key) :
      Does program (.rename key id) program
  | exchangeIds {first second : NodeKey} {one other : Node}
      (foundFirst : program.node? first = some one) (foundSecond : program.node? second = some other) :
      Does program (.exchangeIds first second) (program.exchangeNodeIds first second one.id other.id)
  | reverse {dep user : NodeKey} (turnable : program.Turnable dep user)
      (unordered : (program.turned dep user).order.isEmpty) :
      Does program (.reverse dep user) (program.turned dep user)
  | reverseOrdered {dep user : NodeKey} {order : ProcessingOrder}
      (turnable : program.Turnable dep user)
      (found : (program.turned dep user).graph.depthFirst (program.turned dep user).outputs = .ok order) :
      Does program (.reverse dep user) { program.turned dep user with order }
  | setOutput (key : NodeKey) (output : Bool) :
      Does program (.setOutput key output) (program.setOutput key output)
  | orderDepthFirst {order : ProcessingOrder}
      (found : program.graph.depthFirst program.outputs = .ok order) :
      Does program .orderDepthFirst { program with order }
  | orderBreadthFirst : Does program .orderBreadthFirst program.orderBreadthFirst

/-- A node is to be put between a live node and a reader that is not there. -/
def NamesMissingReader (program : Program) : Operation → Prop
  | .insertBetween _ next prev _ => program.contains prev ∧ ¬ program.contains next
  | _ => False

/-- What an operation leaves behind when it fails: the program as it was, except that a node that was
made to be put somewhere stays. -/
def leftover (program : Program) : Operation → Program
  | .insertPrimitive prim _ _ _ => (program.ensure prim).1
  | _ => program

/-- How an operation can fail, and what it leaves behind then. -/
inductive Fails (program : Program) : Operation → Fault → Program → Prop
  | refused {operation : Operation} {fault : Fault} (refusal : fault.IsRefusal)
      (present : ¬ operation.NamesMissingReader program) :
      Fails program operation fault (operation.leftover program)
  | cut {node next prev : NodeKey} {how : Edit.Insertion}
      (missing : program.contains prev ∧ ¬ program.contains next) :
      Fails program (.insertBetween node next prev how) (.aborted (.deadKey next)) program
  | cyclic {dep user key : NodeKey} {fault : Fault} (refusal : fault.IsRefusal)
      (turnable : program.Turnable dep user)
      (cycle : (program.turned dep user).graph.depthFirst (program.turned dep user).outputs =
        .error key) : Fails program (.reverse dep user) fault (program.turned dep user)

/-- **An operation is done or fails.** -/
theorem ends_does (intact : p.Intact) (operation : Operation) : Ends operation.edit p (fun _ q => Does p
    operation q) (Fails p operation) := by
  cases operation with
  | ensure prim => exact (ends_discard _).mpr (.ensure prim)
  | connect prev next =>
    refine (Program.ends_connect prev next).mono ?_ ?_
    · rintro _ _ ⟨hv, rfl⟩
      exact .connect hv
    · rintro _ _ ⟨refusal, rfl, -⟩
      exact .refused refusal not_false
  | disconnect prev next =>
    refine (Program.ends_disconnect prev next).mono ?_ ?_
    · rintro _ _ ⟨hv, rfl⟩
      exact .disconnect hv
    · rintro _ _ ⟨refusal, rfl, -⟩
      exact .refused refusal not_false
  | isolate k =>
    refine (Program.ends_isolate k).mono ?_ ?_
    · rintro _ _ ⟨hv, rfl⟩
      exact .isolate hv
    · rintro _ _ ⟨refusal, rfl, -⟩
      exact .refused refusal not_false
  | insertAt n next slot how =>
    refine (Program.ends_insertAt intact.reads_live n next slot how).mono
      (fun _ _ puts => .insertAt puts) ?_
    rintro _ _ ⟨refusal, rfl, -⟩
    exact .refused refusal not_false
  | insertPrimitive prim next slot how =>
    refine (ends_discard _).mpr ((Program.ends_insertPrimitive (intact.ensure prim).reads_live
      next slot how).mono ?_ ?_)
    · rintro _ _ ⟨fr, rfl, puts⟩
      exact .insertPrimitive fr puts
    · rintro fault _ ⟨rfl, cause⟩
      have refusal : fault.IsRefusal := by
        split at cause
        · exact cause ▸ ⟨not_false, _, rfl⟩
        · exact cause.1
      exact .refused refusal not_false
  | insertBetween n next prev how =>
    refine (Program.ends_insertBetween intact.reads_live n next prev how).mono ?_ ?_
    · rintro _ _ ⟨hv, slot, puts⟩
      exact .insertBetween hv puts
    · rintro _ _ ⟨rfl, cause⟩
      split at cause
      · next missing =>
        subst cause
        exact .cut missing
      · next present => exact .refused cause present
  | bypass k =>
    exact (ends_discard _).mpr (ends_attempt (fun _ res => .bypass res) fun _ =>
      .notBypassed k)
  | prune k =>
    exact (ends_discard _).mpr (ends_attempt (fun _ res => .prune res) fun _ => .notPruned k)
  | removeAll ks => exact .removeAll ks
  | replace old new =>
    refine (Program.ends_replace old new).mono ?_ ?_
    · rintro _ _ (⟨hv, rfl, rfl⟩ | ⟨model, rep, repl, rfl⟩)
      · exact .replaceSame hv
      · exact .replace repl
    · rintro _ _ ⟨refusal, rfl, -⟩
      exact .refused refusal not_false
  | redirectReaders old new =>
    refine (Program.ends_redirectReaders old new).mono ?_ ?_
    · rintro _ _ ⟨hv, rfl⟩
      exact .redirectReaders hv
    · rintro _ _ ⟨refusal, rfl, -⟩
      exact .refused refusal not_false
  | rename k id =>
    refine (Program.ends_rename k id).mono ?_ ?_
    · rintro _ _ ⟨n, hk, rfl | ⟨unused, rfl⟩⟩
      · exact .renameSame (Program.contains_of_node? hk)
      · exact .rename hk unused
    · rintro _ _ ⟨refusal, rfl⟩
      exact .refused refusal not_false
  | exchangeIds a b =>
    refine (Program.ends_exchangeIds a b).mono ?_ ?_
    · rintro _ _ ⟨one, o, foundFirst, foundSecond, rfl⟩
      exact .exchangeIds foundFirst foundSecond
    · rintro _ _ ⟨refusal, rfl⟩
      exact .refused refusal not_false
  | reverse dep user =>
    refine (Program.ends_reverse dep user).mono ?_ ?_
    · rintro _ _ ⟨turnable, ⟨unordered, rfl⟩ | ⟨order, hk, rfl⟩⟩
      · exact .reverse turnable unordered
      · exact .reverseOrdered turnable hk
    · rintro _ _ (⟨refusal, rfl, -⟩ | ⟨turnable, rfl, k, cycle, refusal⟩)
      · exact .refused refusal not_false
      · exact .cyclic (refusal ((intact.turned turnable).live_of_cycle cycle)) turnable cycle
  | setOutput k output => exact .setOutput k output
  | orderDepthFirst =>
    refine Program.ends_orderDepthFirst.mono ?_ ?_
    · rintro _ _ ⟨order, hk, rfl⟩
      exact .orderDepthFirst hk
    · rintro _ _ ⟨rfl, k, cycle, refusal⟩
      exact .refused (refusal (intact.live_of_cycle cycle)) not_false
  | orderBreadthFirst => exact .orderBreadthFirst

/-! ## Runs -/

/-- The program that an operation leaves behind, however it ends. -/
def perform (operation : Operation) (program : Program) : Program :=
  match operation.edit program with
  | .ok _ q => q
  | .error _ left => left

/-- The program after a sequence of operations. -/
def run (operations : List Operation) (program : Program) : Program :=
  operations.foldl (fun program operation => operation.perform program) program

/-- Every operation of a sequence is allowed on the program on which it is performed. -/
def AllowedAlong (allowed : Program → Operation → Prop) : List Operation → Program → Prop
  | [], _ => True
  | operation :: rest, p =>
    allowed p operation ∧ AllowedAlong allowed rest (operation.perform p)

variable {p start : Program} {operation : Operation} {operations : List Operation}

theorem perform_keeps {kept : Program → Prop} (intact : p.Intact)
    (done : ∀ q, Does p operation q → kept q)
    (failed : ∀ fault left, Fails p operation fault left → kept left) :
    kept (operation.perform p) := by
  have ends := ends_does intact operation
  rw [Ends] at ends
  rw [perform]
  cases res : operation.edit p with
  | ok v q =>
    rw [res] at ends
    exact done q ends
  | error fault left =>
    rw [res] at ends
    exact failed fault left ends

/-- **What every operation keeps is kept by every run.** -/
theorem run_keeps (kept : Program → Prop) {allowed : Program → Operation → Prop}
    (step : ∀ p operation, kept p → allowed p operation → kept (operation.perform p))
    (along : AllowedAlong allowed operations start) (h : kept start) :
    kept (run operations start) := by
  induction operations generalizing start with
  | nil => exact h
  | cons operation rest ih => exact ih along.2 (step start operation h along.1)

/-! ## Consistency -/

/-- A node that reads itself is not to be replaced. -/
def ReplacesNoLoop (program : Program) : Operation → Prop
  | .replace old _ => old ∉ program.dependencies old
  | _ => True

/-- **Every operation leaves a consistent program behind.** -/
theorem consistent_perform (wf : p.Consistent)
    (allowed : ReplacesNoLoop p operation) : (operation.perform p).Consistent := by
  refine perform_keeps wf.intact (fun q does => ?_) fun fault left fails => ?_
  · cases does with
    | ensure prim => exact wf.ensure prim
    | connect hv => exact wf.attach hv.1 hv.2
    | disconnect =>
      exact (Program.readsLess_separated wf.slots _ _).1.consistent wf
    | isolate => exact wf.detach _
    | insertAt puts => exact puts.consistent wf
    | @insertPrimitive prim _ _ _ _ _ puts => exact puts.consistent (wf.ensure prim)
    | insertBetween _ puts => exact puts.consistent wf
    | bypass res => exact (wf.bypass? res).1
    | prune res => exact (wf.prune? res).1
    | removeAll ks => exact (Program.removes_removeAll wf ks).2.1
    | replace repl => exact repl.consistent wf allowed
    | redirectReaders hv => exact wf.redirectAll hv.2 _
    | rename hk unused => exact wf.renameNode hk unused
    | exchangeIds foundFirst foundSecond => exact wf.exchangeNodeIds foundFirst foundSecond
    | reverse turnable => exact turnable.consistent wf
    | reverseOrdered turnable hk => exact ((turnable.consistent wf).depthFirst hk).1
    | setOutput k output => exact wf.setOutput k output
    | orderDepthFirst hk => exact (wf.depthFirst hk).1
    | orderBreadthFirst => exact wf.orderBreadthFirst
    | notBypassed | notPruned | replaceSame | renameSame => exact wf
  · cases fails with
    | refused =>
      cases operation with
      | insertPrimitive prim => exact wf.ensure prim
      | _ => exact wf
    | cut => exact wf
    | cyclic _ turnable => exact turnable.consistent wf

theorem consistent_run (wf : start.Consistent)
    (along : AllowedAlong ReplacesNoLoop operations start) : (run operations start).Consistent := by
  refine run_keeps Program.Consistent ?_ along wf
  intro p operation wf allowed
  exact consistent_perform wf allowed

/-- The programs that a run may start from: an empty one, that of a topology, or one made from nodes
of any other program. -/
inductive Started : Program → Prop
  | empty (number : Nat) (options : Options) (isInternal : Bool) :
      Started { id := number, options, isInternal }
  | ofTopology {number : Nat} {topology : Topology} {options : Options} {isInternal : Bool}
      {program : Program}
      (result : Program.ofTopology number topology options isInternal = .ok program) :
      Started program
  | ofNodes {number : Nat} {source : Program} {keys : List NodeKey} {options : Options}
      {program : Program} (result : Program.ofNodes number source keys options = .ok program) :
      Started program

theorem Started.consistent (started : Started p) : p.Consistent := by
  cases started with
  | empty num opts isInternal => exact Program.consistent_empty num opts isInternal
  | ofTopology res => exact Program.consistent_of_ofTopology res
  | ofNodes res => exact Program.consistent_ofNodes res

/-- **A program stays consistent along every run.** Its names are the ids of its live nodes, each of
which has one; the order and the outputs list live nodes, each once, and the inputs live ones; the
outputs are the nodes with the mark; and the slots of every node are the numbers below the number of
its incoming edges, each once. -/
theorem consistent_after_every_run (started : Started start)
    (along : AllowedAlong ReplacesNoLoop operations start) : (run operations start).Consistent :=
  consistent_run started.consistent along

/-- Two nodes read each other, one of them twice; one is replaced, and a new node gets the key that
becomes free and is put between them. What is asked of missing nodes is refused. -/
def mutualReading : List Operation :=
  [.ensure { id := "first", kind := .eltwise .sum }, .ensure { id := "second", kind := .softmax },
    .connect 0 1, .connect 1 0, .connect 1 0, .connect 0 7, .setOutput 0 true,
    .ensure { id := "third", kind := .eltwise .sum }, .replace 0 2,
    .ensure { id := "fourth", kind := .softmax }, .insertAt 0 2 1 ⟨true, false⟩, .reverse 2 1,
    .removeAll [1, 5], .exchangeIds 0 2, .orderDepthFirst]

theorem consistent_after_every_run_mutualReading :
    Started { id := 0 } ∧ AllowedAlong ReplacesNoLoop mutualReading { id := 0 } ∧
      (run mutualReading { id := 0 }).Consistent := by
  have started : Started { id := 0 } := .empty 0 {} false
  have along : AllowedAlong ReplacesNoLoop mutualReading { id := 0 } := by
    refine ⟨trivial, trivial, trivial, trivial, trivial, trivial, trivial, trivial, ?_, trivial,
      trivial, trivial, trivial, trivial, trivial, trivial⟩
    show 0 ∉ (run (mutualReading.take 8) { id := 0 }).dependencies 0
    decide
  exact ⟨started, along, consistent_after_every_run started along⟩

/-! ## Valid orders -/

/-- Operations that give everything they connect a place in the order: bare connections are left out,
and a node that is put somewhere has no connections and is made to read what was read. -/
def PlacesNodes (program : Program) : Operation → Prop
  | .connect _ _ | .redirectReaders _ _ => False
  | .insertAt node _ _ how | .insertBetween node _ _ how =>
    how.connect ∧ program.dependencies node = [] ∧ program.users node = []
  | .insertPrimitive _ _ _ how => how.connect
  | _ => True

theorem replacesNoLoop_of_valid (valid : p.HasValidOrder) (operation : Operation) :
    ReplacesNoLoop p operation := by
  cases operation with
  | replace old new => exact valid.not_self old
  | _ => trivial

/-- **Every such operation leaves a valid order behind.** -/
theorem hasValidOrder_perform (wf : p.Consistent) (valid : p.HasValidOrder)
    (places : PlacesNodes p operation) : (operation.perform p).HasValidOrder := by
  have unread : ∀ {n}, p.users n = [] → ∀ k, n ∉ p.dependencies k := by
    intro n none k hr
    have r := Program.mem_users_iff.mpr hr
    rw [none] at r
    cases r
  refine perform_keeps wf.intact (fun q does => ?_) fun fault left fails => ?_
  · cases does with
    | ensure prim => exact valid.ensure prim
    | connect => exact places.elim
    | disconnect =>
      exact (Program.readsLess_separated wf.slots _ _).1.hasValidOrder valid
    | isolate => exact valid.detach wf.slots _
    | @insertAt _ _ _ how _ puts =>
      obtain ⟨connect, moveUsers⟩ := how
      obtain ⟨rfl, -, none⟩ := places
      exact puts.hasValidOrder wf valid (unread none)
    | @insertPrimitive prim _ _ how _ fr puts =>
      obtain ⟨connect, moveUsers⟩ := how
      obtain rfl := places
      exact puts.hasValidOrder (wf.ensure prim) (valid.ensure prim)
        (Program.not_mem_dependencies_ensure wf fr)
    | @insertBetween _ _ _ _ how _ _ puts =>
      obtain ⟨connect, moveUsers⟩ := how
      obtain ⟨rfl, -, none⟩ := places
      exact puts.hasValidOrder wf valid (unread none)
    | bypass res => exact (wf.bypass? res).2.1 valid
    | prune res => exact (wf.prune? res).2.1 valid
    | removeAll ks => exact (Program.removes_removeAll wf ks).2.2.1 valid
    | replace repl => exact repl.hasValidOrder wf valid
    | redirectReaders => exact places.elim
    | rename => exact valid.of_subset rfl fun _ => List.Subset.refl _
    | exchangeIds => exact valid.of_subset rfl fun _ => List.Subset.refl _
    | reverse turnable unordered =>
      rw [turnable.order_occupied valid] at unordered
      cases unordered
    | reverseOrdered turnable hk =>
      exact ((turnable.consistent wf).depthFirst hk).2.toHasValidOrder
    | setOutput k output => exact valid.setOutput k output
    | orderDepthFirst hk => exact (wf.depthFirst hk).2.toHasValidOrder
    | orderBreadthFirst => exact (valid.orderBreadthFirst wf).1
    | notBypassed | notPruned | replaceSame | renameSame => exact valid
  · cases fails with
    | refused =>
      cases operation with
      | insertPrimitive prim => exact valid.ensure prim
      | _ => exact valid
    | cut => exact valid
    | cyclic _ turnable cycle =>
      obtain ⟨order, hk⟩ := turnable.exists_order wf valid.acyclic
      cases cycle.symm.trans hk

/-- **A valid order stays valid along every run of such operations.** The order lists live nodes, each
once, and puts the source of every edge before its target. -/
theorem valid_order_after_every_run (consistent : start.Consistent) (valid : start.HasValidOrder)
    (along : AllowedAlong PlacesNodes operations start) :
    (run operations start).Consistent ∧ (run operations start).HasValidOrder := by
  refine run_keeps (fun program => program.Consistent ∧ program.HasValidOrder) ?_ along
    ⟨consistent, valid⟩
  rintro program operation ⟨consistent, valid⟩ places
  exact ⟨consistent_perform consistent (replacesNoLoop_of_valid valid operation),
    hasValidOrder_perform consistent valid places⟩

/-- Two nodes are made, and the second reads the first. -/
def firstReading : List Operation :=
  [.ensure { id := "source", kind := .softmax }, .ensure { id := "reader", kind := .eltwise .sum },
    .connect 0 1]

/-- A node and a reader of it, in this order. -/
def sourceAndReader : Program := { run firstReading { id := 0 } with order := ⟨[0, 1]⟩ }

/-- Nodes are put behind the source and before the reader, and the rest is turned around. -/
def placements : List Operation :=
  [.insertPrimitive { id := "behind", kind := .softmax } 1 0 ⟨true, true⟩,
    .ensure { id := "before", kind := .softmax }, .insertAt 3 1 0 ⟨true, false⟩, .reverse 0 2,
    .bypass 3, .orderBreadthFirst]

theorem valid_order_after_every_run_placements :
    sourceAndReader.Consistent ∧ sourceAndReader.HasValidOrder ∧
      AllowedAlong PlacesNodes placements sourceAndReader ∧
      (run placements sourceAndReader).Consistent ∧
      (run placements sourceAndReader).HasValidOrder := by
  have consistent : sourceAndReader.Consistent := by
    have along : AllowedAlong ReplacesNoLoop firstReading { id := 0 } :=
      ⟨trivial, trivial, trivial, trivial⟩
    exact (consistent_run (Program.consistent_empty 0 {} false) along).reordered (by decide)
      (by decide)
  have complete : sourceAndReader.HasCompleteOrder := by decide
  have along : AllowedAlong PlacesNodes placements sourceAndReader := by
    refine ⟨rfl, trivial, ⟨rfl, ?_, ?_⟩, trivial, trivial, trivial, trivial⟩
    · show (run (placements.take 2) sourceAndReader).dependencies 3 = []
      decide
    · show (run (placements.take 2) sourceAndReader).users 3 = []
      decide
  exact ⟨consistent, complete.toHasValidOrder, along,
    valid_order_after_every_run consistent complete.toHasValidOrder along⟩

end Operation

end LayerGraph
