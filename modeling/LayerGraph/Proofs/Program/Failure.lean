import LayerGraph.Proofs.Program.Operation

/-!
# Failed operations

An operation looks at what it is given before it changes anything. When it fails, the program is what
it was before, and so it is when a node does not qualify for its removal.

Turning a connection around is the only operation that can fail after its first change, for it computes
the order anew at its end. On a graph without cycles this cannot happen, since none arises
(`Program.Turnable.acyclic`).

One operation is different: a new node is made before the place where it is to be put is looked at, and
stays when there is no such place (`Operation.leftover`).
-/

namespace LayerGraph.Operation

variable {program left : Program} {operation : Operation} {fault : Fault}

theorem eq_of_failed {expected : Program} {done : Unit → Program → Prop}
    (ends : Ends operation.edit program done fun _ left => left = expected)
    (failed : operation.edit program = .error fault left) : left = expected := by
  rwa [Ends, failed] at ends

/-- **A failed operation leaves the program as it was,** up to the node that was made. -/
theorem ends_leftover (wf : program.Consistent) (acyclic : Acyclic program.dependencies)
    (operation : Operation) :
    Ends operation.edit program (fun _ _ => True) fun _ left => left = operation.leftover program := by
  refine (ends_does wf.intact operation).mono (fun _ _ _ => trivial) fun fault left fails => ?_
  cases fails with
  | refused => rfl
  | cut => rfl
  | cyclic _ turnable cycle =>
    obtain ⟨order, hk⟩ := turnable.exists_order wf acyclic
    cases cycle.symm.trans hk

theorem eq_of_not_removed {removal : Program → Option Program}
    (res : Edit.attempt removal program = .ok false left) : left = program := by
  have ends : Ends (Edit.attempt removal) program (fun removed left => removed = false → left = program)
      fun _ _ => True := ends_attempt (fun _ _ removed => Bool.noConfusion removed) fun _ _ => rfl
  rw [Ends, res] at ends
  exact ends rfl

/-- **What failed leaves no trace, up to a node that was made to be put somewhere.** Whatever an
operation is given, it leaves the program as it was when it fails, and a node that does not qualify for
its removal leaves it so too. The insertion of a new node leaves the program with the new node, which
has no connections and no place in the order. -/
theorem failure_leaves_no_trace (consistent : program.Consistent)
    (acyclic : Acyclic program.dependencies) :
    (∀ (operation : Operation) fault left, operation.edit program = .error fault left →
      left = operation.leftover program) ∧
    ∀ key left, Edit.bypass key program = .ok false left ∨ Edit.prune key program = .ok false left →
      left = program := by
  refine ⟨fun operation fault left failed => ?_, ?_⟩
  · exact eq_of_failed (ends_leftover consistent acyclic operation) failed
  · rintro key left (stays | stays)
    · exact eq_of_not_removed stays
    · exact eq_of_not_removed stays

theorem consistent_sourceAndReader : sourceAndReader.Consistent := by
  have along : AllowedAlong ReplacesNoLoop firstReading { id := 0 } :=
    ⟨trivial, trivial, trivial, trivial⟩
  exact (consistent_run (Program.consistent_empty 0 {} false) along).reordered (by decide) (by decide)

theorem acyclic_sourceAndReader : Acyclic sourceAndReader.dependencies := by
  have complete : sourceAndReader.HasCompleteOrder := by decide
  exact complete.toHasValidOrder.acyclic

/-- The reader is not read by the source, so that there is nothing to turn around. -/
theorem failure_leaves_no_trace_sourceAndReader :
    sourceAndReader.Consistent ∧ Acyclic sourceAndReader.dependencies ∧
      ∃ left, edit (.reverse 1 0) sourceAndReader =
          .error (.refused (.notADependency "reader" "source")) left ∧
        left = sourceAndReader := by
  refine ⟨consistent_sourceAndReader, acyclic_sourceAndReader, _, rfl, ?_⟩
  exact (failure_leaves_no_trace consistent_sourceAndReader acyclic_sourceAndReader).1
    (.reverse 1 0) _ _ rfl

/-- A node that is to be put where the reader reads nothing. -/
def misplacedPrimitive : Primitive := { id := "between", kind := .softmax }

/-- **A new node that cannot be put in its place stays.** -/
theorem failure_keeps_new_node :
    sourceAndReader.Consistent ∧ Acyclic sourceAndReader.dependencies ∧
      edit (.insertPrimitive misplacedPrimitive 1 5 ⟨true, false⟩) sourceAndReader =
        .error (.refused (.dependencyIndex "reader" 5 1))
          (sourceAndReader.ensure misplacedPrimitive).1 ∧
      (sourceAndReader.ensure misplacedPrimitive).1 ≠ sourceAndReader := by
  exact ⟨consistent_sourceAndReader, acyclic_sourceAndReader, rfl, by decide⟩

end LayerGraph.Operation
