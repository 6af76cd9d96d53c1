import LayerGraph.Proofs.Build.Pipeline
import LayerGraph.Proofs.Network.Cycles

/-!
# Programs that have not been set up

When the first pass is disabled there is no processing order and there are no layouts. Passes go
through nodes in processing order, so they find nothing to do (`Build.ensures_body_unset`). Only the
breadth-first pass makes an order of its own, of all nodes; unless there are cycles, the program is
sound from then on.
-/

namespace LayerGraph

open Pass

namespace Program

variable {p : Program} {failed : Fault → Prop}

/-- A program without an order, in which nothing has been derived. -/
structure Unset (program : Program) : Prop where
  consistent : program.Consistent
  unordered : program.order.toList = []
  unshaped : ∀ key node, program.node? key = some node → node.layout = none
  unnoted : ∀ key node, program.node? key = some node → node.conflicts = []

namespace Unset

variable (unset : p.Unset)
include unset

/-- There is no node that could stand at a wrong place. -/
theorem firstMisplaced? : p.firstMisplaced? = none := by
  rw [Program.firstMisplaced?, unset.unordered]
  rfl

/-- All nodes stand at correct places in a breadth-first order if and only if there are no cycles. -/
theorem firstMisplaced?_orderBreadthFirst :
    p.orderBreadthFirst.firstMisplaced? = none ↔ p.network.Acyclic := by
  have wf := unset.consistent
  constructor
  · intro placed
    exact wf.orderBreadthFirst.acyclic_of_placed
      (fun k hv => (wf.mem_orderBreadthFirst unset.unordered).mpr hv) placed
  · intro acyclic
    exact (wf.sound_orderBreadthFirst unset.unordered acyclic).complete.firstMisplaced?

theorem clearConflicts : p.clearConflicts = p := by
  have cells : p.store.cells.map (Option.map fun n => { n with conflicts := [] }) = p.store.cells := by
    rw [List.map_congr_left (g := fun c => c), List.map_id']
    intro c mem
    cases c with
    | none => rfl
    | some n =>
      obtain ⟨k, hk⟩ := List.mem_iff_getElem?.mp mem
      have unnoted := unset.unnoted k n (by rw [node?, NodeStore.get?, hk]; rfl)
      rw [Option.map_some, ← unnoted]
  rw [Program.clearConflicts, NodeStore.map, cells]

theorem computeConflicts (strat : MemoryStrategy) :
    Ensures (Edit.computeConflicts strat) p (fun _ next => next = p) failed := by
  have none : p.conflictingPairs strat = .ok [] := by
    rw [conflictingPairs, buffers, unset.unordered]
    cases strat with
    | basic => rfl
    | skippedBranchAware => rfl
    | outOfOrderAware => rfl
  simp only [Edit.computeConflicts, ensures_bind, ensures_modify, ensures_get, unset.clearConflicts]
  rw [none]
  rfl

/-- Without layouts no input asks for a reorder. -/
theorem reorderEach {ks : List NodeKey} (hv : ∀ k ∈ ks, p.contains k) :
    Ensures (Edit.reorderEach ks) p (fun ins next => ins = [] ∧ next = p) failed := by
  induction ks with
  | nil => exact ⟨rfl, rfl⟩
  | cons k rest ih =>
    obtain ⟨n, hk⟩ := contains_iff.mp (hv k List.mem_cons_self)
    have unneeded : p.neededReorder? k n = none := by
      cases needed : p.neededReorder? k n with
      | none => rfl
      | some pair =>
        obtain ⟨lay, -, kn, -⟩ := neededReorder?_cases needed
        rw [unset.unshaped k n hk] at kn
        cases kn
    simp only [Edit.reorderEach, Edit.reorderInput, ensures_bind, ensures_nodeAt hk,
      ensures_get, unneeded, ensures_pure]
    apply (ih fun o mem => hv o (List.mem_cons_of_mem k mem)).weaken
    intro others next h
    exact ⟨h.1, h.2⟩

theorem refreshLayouts : Ensures Edit.refreshLayouts p (fun _ next => next = p) failed := by
  simp only [Edit.refreshLayouts, ensures_bind, ensures_get, unset.unordered]
  rfl

end Unset

end Program

namespace Build

open Program

variable {s : Session} {folding : Build Unit} {pass : Pass}

/-- Whether explicit output sizes are honoured after a pass that finds nothing to do. -/
def handlingAfter (pass : Pass) (session : Session) : Bool :=
  if pass = .decideOutputSizes then session.program.options.outputSizeHandling.getD false
  else session.outputSizeHandling

variable {failed : Fault → Prop}

/-- **On a program that has not been set up, a pass does nothing** but decide how to treat output sizes,
unless it makes an order. -/
theorem ensures_body_unset (unset : s.program.Unset) (notFirst : pass ≠ .setUp) (notOrdering : pass ≠
    .orderBreadthFirst) (notFolding : pass ≠ .foldConstants) : Ensures (pass.body folding) s (fun _ next
    => next = { s with outputSizeHandling := handlingAfter pass s })
      failed := by
  have unordered := unset.unordered
  cases pass with
  | setUp => exact absurd rfl notFirst
  | orderBreadthFirst => exact absurd rfl notOrdering
  | foldConstants => exact absurd rfl notFolding
  | markNodes =>
    simp only [body, markNodes, ensures_bind, ensures_program, unordered]
    rfl
  | trim =>
    simp only [body, trim, ensures_bind, ensures_program, deadKeys, unordered]
    rfl
  | decideOutputSizes =>
    simp only [body, decideOutputSizes, ensures_bind, ensures_program, unordered, handlingAfter]
    cases s.program.options.outputSizeHandling with
    | some forced => rfl
    | none => rfl
  | fuseActivations =>
    simp only [body, fuseActivations, ensures_bind, ensures_program, unordered]
    rfl
  | prepareWindows =>
    simp only [body, prepareWindows, ensures_bind, ensures_get, unordered]
    rfl
  | dropReorders =>
    simp only [body, dropReorders, ensures_bind, ensures_program, unordered]
    rfl
  | shareBuffers =>
    simp only [body, shareBuffers, ensures_modifyProgram, unordered]
    rfl
  | compileNodes =>
    simp only [body, compileNodes, ensures_bind, ensures_program, unordered]
    rfl
  | reorderInputs =>
    simp only [body, reorderInputs, ensures_bind, ensures_program, ensures_edit]
    refine (unset.reorderEach unset.consistent.inputs_live).weaken ?_
    rintro ins next ⟨rfl, rfl⟩
    rfl
  | computeConflicts =>
    simp only [body, computeConflicts, ensures_bind, ensures_program, ensures_edit]
    refine (unset.computeConflicts _).weaken ?_
    intro _ next e
    subst e
    rfl
  | cleanUp =>
    simp only [body, cleanUp, ensures_bind, ensures_program, ensures_edit]
    refine unset.refreshLayouts.weaken ?_
    intro _ next e
    subst e
    simp only [unordered]
    split
    · rfl
    · rfl

/-- Without an order there is no constant part. -/
theorem ensures_foldConstants_unset (unset : s.program.Unset) {buildInner : Build Unit} : Ensures
    (foldConstants buildInner) s (fun _ next => next = s) failed := by
  have none : s.program.constantPart = .ok ⟨[], [], []⟩ := by
    rw [constantPart, unset.unordered]
    rfl
  simp only [foldConstants, ensures_bind, ensures_program, none, Checked.lift, ensures_pure]
  rfl

end Build

end LayerGraph
