import LayerGraph.Proofs.Program.Misuse
import Mathlib

/-!
# Reported cycles

When no depth-first order is found, a key is reported. It lies on a cycle when it was met on the path
of a walk. A key that no walk led to is reported too, and such a key need not lie on a cycle: it may
only be read by what does (`reported_beside_the_cycle`). So a report says that the key leads to a
cycle, and that it lies on one if the roots or the keys without users depend on it (`Implicates`).
-/

namespace LayerGraph

open DependencyGraph

namespace DependencyGraph

variable {key : NodeKey}

/-- A key without dependencies lies on no cycle. -/
theorem not_transGen_of_source {dependencies : NodeKey → List NodeKey} (src : dependencies key = []) :
    ¬ Relation.TransGen (Feeds dependencies) key key := by
  intro path
  obtain ⟨last, -, hr⟩ := Relation.TransGen.tail'_iff.mp path
  rw [Feeds, src] at hr
  exact List.not_mem_nil hr

end DependencyGraph

namespace Program

variable {p : Program} {id : String}

/-- The id in a reported cycle is the id of a node at which no order was found. -/
theorem exists_of_cycle {left : Program}
    (failed : Edit.orderDepthFirst p = .error (.refused (.cycle id)) left) :
    ∃ key n, p.graph.depthFirst p.outputs = .error key ∧ p.node? key = some n ∧ n.id = id := by
  have ends : Ends Edit.orderDepthFirst p (fun _ _ => True) fun fault _ =>
      fault = .refused (.cycle id) → ∃ key n, p.graph.depthFirst p.outputs = .error key ∧
          p.node? key = some n ∧ n.id = id := by
    simp only [Edit.orderDepthFirst, ends_bind, ends_get]
    cases res : p.graph.depthFirst p.outputs with
    | ok order => trivial
    | error key =>
      rw [ends_bind]
      refine ends_nodeAt_or (fun n hk => ?_) fun dead => ?_
      · rintro ⟨⟩
        exact ⟨key, n, rfl, hk, rfl⟩
      · rintro ⟨⟩
  rw [Ends, failed] at ends
  exact ends rfl

/-- **A reported key leads to a cycle,** and lies on one if a root or a key without users depends on it.
This holds of graphs whose keys are depended on by their users, for all roots, and of intact programs. -/
theorem reported_keys_lead_to_cycles (graph : DependencyGraph) (program : Program) :
    ((∀ key ∈ graph.keys, ∀ user ∈ graph.users key, key ∈ graph.dependenciesOf user) →
      ∀ (roots : List NodeKey) (previous left : ProcessingOrder) (key : NodeKey),
        graph.orderDepthFirst roots previous = .error key left → graph.Implicates roots key) ∧
    (program.Intact → ∀ (left : Program) (id : String),
      Edit.orderDepthFirst program = .error (.refused (.cycle id)) left →
        ∃ key node, program.node? key = some node ∧ node.id = id ∧
          program.graph.Implicates program.outputs key) := by
  refine ⟨fun users roots previous left key failed => ?_, fun intact left id failed => ?_⟩
  · rw [orderDepthFirst] at failed
    cases result : graph.depthFirst roots with
    | ok order =>
        rw [result] at failed
        cases failed
    | error other =>
        rw [result] at failed
        cases failed
        exact implicates_of_error users result
  · obtain ⟨key, node, result, found, same⟩ := exists_of_cycle failed
    exact ⟨key, node, found, same,
      implicates_of_error intact.wellFormed_graph.feeds_of_user result⟩

/-- A node that reads another one and itself. -/
def besideLoop : Program :=
  Operation.run [.ensure { id := "x", kind := .softmax }, .ensure { id := "e", kind := .eltwise .sum },
    .connect 0 1, .connect 1 1] { id := 0 }

theorem orderDepthFirst_besideLoop :
    Edit.orderDepthFirst besideLoop = .error (.refused (.cycle "x")) besideLoop := rfl

theorem reported_keys_lead_to_cycles_besideLoop :
    (ofLists [[], [0, 2], [1], [2]]).orderDepthFirst [3] {} = .error 2 {} ∧
      (ofLists [[], [0, 2], [1], [2]]).Implicates [3] 2 ∧
      besideLoop.Intact ∧
      Edit.orderDepthFirst besideLoop = .error (.refused (.cycle "x")) besideLoop ∧
        ∃ key node, besideLoop.node? key = some node ∧ node.id = "x" ∧
          besideLoop.graph.Implicates besideLoop.outputs key := by
  have failed : (ofLists [[], [0, 2], [1], [2]]).orderDepthFirst [3] {} = .error 2 {} := by
    cbv
  have users := (wellFormed_ofLists (by decide :
    ∀ list ∈ [[], [0, 2], [1], [2]], ∀ key ∈ list, key < 4)).feeds_of_user
  have intact : besideLoop.Intact :=
    Operation.intact_run (Operation.Started.empty 0 {} false).consistent.intact _
  obtain ⟨ofGraph, ofProgram⟩ := reported_keys_lead_to_cycles
    (.ofLists [[], [0, 2], [1], [2]]) besideLoop
  exact ⟨failed, ofGraph users [3] {} {} 2 failed, intact, orderDepthFirst_besideLoop,
    ofProgram intact besideLoop "x" orderDepthFirst_besideLoop⟩

/-- **The reported key need not lie on a cycle.** Two keys, of which one reads the other and itself: the
one that reads nothing is reported. -/
theorem reported_beside_the_cycle :
    (ofLists [[], [0, 1]]).WellFormed ∧
      (ofLists [[], [0, 1]]).orderDepthFirst [] {} = .error 0 {} ∧
      (¬ Relation.TransGen (Feeds (ofLists [[], [0, 1]]).dependenciesOf) 0 0) ∧
      Edit.orderDepthFirst besideLoop = .error (.refused (.cycle "x")) besideLoop ∧
      (besideLoop.node? 0).map Node.id = some "x" ∧
      ¬ Relation.TransGen (Feeds besideLoop.graph.dependenciesOf) 0 0 :=
  ⟨wellFormed_ofLists (by decide), rfl, not_transGen_of_source rfl,
    orderDepthFirst_besideLoop, rfl, not_transGen_of_source rfl⟩

end Program

end LayerGraph
