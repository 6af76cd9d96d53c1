import LayerGraph.Proofs.Program.Rewiring

/-!
# Turning connections around

When can a connection be turned around? The edit asks whether another reader of the node leads to the
reader in question (`Edit.hasDetour`). In a graph without cycles this is to ask whether a path of two or
more edges leads from the node to its reader (`Program.HasLongWay`), for such a path cannot begin with
the connection itself.

So exactly the connections beside which there is no such path are turned around. No cycle arises, and
therefore the order, which is computed at the end, is found.
-/

namespace LayerGraph.Program

open Edit

variable {program : Program} {key o dep user : NodeKey}

/-- A path of at least two edges leads from one node to another. -/
def HasLongWay (program : Program) (first last : NodeKey) : Prop :=
  ∃ middle, first ∈ program.dependencies middle ∧
    Relation.TransGen (Feeds program.dependencies) middle last

section

variable (wf : program.Consistent) (acyclic : Acyclic program.dependencies)

include wf

theorem Consistent.leadsTo_iff : program.leadsTo key o ↔
    Relation.ReflTransGen (Feeds program.dependencies) key o := by
  refine ⟨fun leads => ?_, wf.leadsTo_of_path⟩
  obtain seen | ⟨start, mem, path⟩ := path_of_mem_reach (List.contains_iff_mem.mp leads)
  · cases seen
  · obtain rfl := List.mem_singleton.mp mem
    exact Relation.ReflTransGen.mono (fun _ _ leads => mem_users_iff.mp leads) _ _ path

include acyclic

/-- **Another reader leads to the reader exactly when there is a path of two or more edges.** -/
theorem Consistent.hasDetour_iff :
    hasDetour program dep user ↔ program.HasLongWay dep user := by
  simp only [hasDetour, List.any_eq_true, List.mem_filter, mem_users_iff, bne_iff_ne,
    wf.leadsTo_iff]
  constructor
  · rintro ⟨mid, ⟨hr, ne⟩, path⟩
    exact ⟨mid, hr, (Relation.reflTransGen_iff_eq_or_transGen.mp path).resolve_left (Ne.symm ne)⟩
  · rintro ⟨mid, hr, path⟩
    refine ⟨mid, ⟨hr, ?_⟩, path.to_reflTransGen⟩
    rintro rfl
    exact acyclic mid path

/-- A connection that is turned around leaves no cycle and, if there was an order, a complete one. A
connection that cannot be turned around stays. -/
theorem Consistent.ends_reverse : Ends (reverse dep user) program
      (fun _ q => program.Turnable dep user ∧
        (∀ key, q.dependencies key = (program.turned dep user).dependencies key) ∧
        Acyclic q.dependencies ∧ (program.order.isEmpty = false → q.HasCompleteOrder))
      (fun _ left => ¬ program.Turnable dep user ∧ left = program) := by
  refine (Program.ends_reverse dep user).mono ?_ ?_
  · rintro _ q ⟨turnable, res⟩
    have still := turnable.acyclic wf acyclic
    obtain ⟨empty, rfl⟩ | ⟨order, hk, rfl⟩ := res
    · refine ⟨turnable, fun _ => rfl, still, fun occupied => ?_⟩
      rw [turned_rest, occupied] at empty
      cases empty
    · exact ⟨turnable, fun _ => rfl, still, fun _ =>
        ((turnable.consistent wf).depthFirst hk).2⟩
  · rintro _ left (⟨-, e, apart⟩ | ⟨turnable, rfl, key, cycle, -⟩)
    · exact ⟨apart, e⟩
    · obtain ⟨order, hk⟩ := turnable.exists_order wf acyclic
      cases cycle.symm.trans hk

end

/-- **Exactly the only ways are turned around.** The edit succeeds when a connection is there and no path
of two or more edges leads from the node to its reader, and changes nothing otherwise. Afterwards the
reader does not read the node any more, the node reads the reader last, and all other lists are as they
were; there is no cycle, and if there was an order it is now a complete one. -/
theorem only_ways_are_turned_around (consistent : program.Consistent)
    (acyclic : Acyclic program.dependencies) (depLive : program.contains dep)
    (userLive : program.contains user) :
    ((∃ edited, reverse dep user program = .ok () edited) ↔
      dep ∈ program.dependencies user ∧ ¬ program.HasLongWay dep user) ∧
    (∀ fault left, reverse dep user program = .error fault left → left = program) ∧
    ∀ edited, reverse dep user program = .ok () edited →
      edited.dependencies user = (program.dependencies user).filter (· != dep) ∧
      edited.dependencies dep = program.dependencies dep ++ [user] ∧
      (∀ key, key ≠ user → key ≠ dep → edited.dependencies key = program.dependencies key) ∧
      Acyclic edited.dependencies ∧
      (program.order.isEmpty = false → edited.HasCompleteOrder) := by
  have detour : hasDetour program dep user ↔ program.HasLongWay dep user :=
    consistent.hasDetour_iff acyclic
  have ends : Ends (reverse dep user) program _ _ := consistent.ends_reverse acyclic
  rw [Ends] at ends
  cases result : reverse dep user program with
  | ok value edited =>
      rw [result] at ends
      obtain ⟨turnable, lists, still, ordered⟩ := ends
      have direct : ¬ program.HasLongWay dep user := fun path => by
        simpa [turnable.direct] using detour.mpr path
      refine ⟨⟨fun _ => ⟨turnable.reads, direct⟩, fun _ => ⟨edited, rfl⟩⟩, by simp, ?_⟩
      rintro _ ⟨⟩
      have apart : dep ≠ user := fun same => acyclic user (.single (same ▸ turnable.reads))
      simp only [lists, dependencies_turned consistent.slots]
      refine ⟨?_, ?_, fun key notUser notDep => ?_, still, ordered⟩
      · simp [Ne.symm apart]
      · simp [apart]
      · simp [notUser, notDep]
  | error fault left =>
      rw [result] at ends
      obtain ⟨stuck, rfl⟩ := ends
      refine ⟨⟨by simp, fun given => ?_⟩, by simp, by simp⟩
      have direct : hasDetour left dep user = false := by
        rw [Bool.eq_false_iff, Ne, detour]
        exact given.2
      exact absurd ⟨depLive, userLive, given.1, direct⟩ stuck

open Rewiring in
/-- The source leads to its reader through the node in the middle as well, so that only the connection
of that node can be turned around. -/
theorem only_ways_are_turned_around_orderedReadings :
    orderedReadings.Consistent ∧ Acyclic orderedReadings.dependencies ∧
      (¬ ∃ edited, reverse 0 2 orderedReadings = .ok () edited) ∧
      ∃ edited, reverse 1 2 orderedReadings = .ok () edited ∧
        edited.dependencies 2 = [0, 0] ∧ edited.dependencies 1 = [0, 2] ∧
        edited.HasCompleteOrder := by
  have consistent := consistent_orderedReadings
  have acyclic : Acyclic orderedReadings.dependencies := by
    have complete : orderedReadings.HasCompleteOrder := by decide
    exact complete.toHasValidOrder.acyclic
  have direct : ¬ orderedReadings.HasLongWay 1 2 := by
    rintro ⟨middle, reads, path⟩
    obtain ⟨edge, member, source, rfl⟩ := mem_dependencies.mp reads
    have only : ∀ edge ∈ orderedReadings.edges, edge.source = 1 → edge.target = 2 := by decide
    exact acyclic 2 (only edge member source ▸ path)
  refine ⟨consistent, acyclic, fun reversed => ?_, ?_⟩
  · have only := (only_ways_are_turned_around consistent acyclic (by decide) (by decide)).1.mp reversed
    refine only.2 ⟨1, by decide, .single ?_⟩
    show 1 ∈ orderedReadings.dependencies 2
    decide
  · obtain ⟨turns, -, after⟩ :=
      only_ways_are_turned_around consistent acyclic (by decide : orderedReadings.contains 1)
        (by decide : orderedReadings.contains 2)
    obtain ⟨edited, result⟩ := turns.mpr ⟨by decide, direct⟩
    obtain ⟨reader, middle, -, -, ordered⟩ := after edited result
    exact ⟨edited, result, reader.trans (by decide), middle.trans (by decide), ordered (by decide)⟩

end LayerGraph.Program
