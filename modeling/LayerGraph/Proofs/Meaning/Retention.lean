import LayerGraph.Proofs.Meaning.Denotation
import LayerGraph.Proofs.Pass.Setup

/-!
# Steps that keep what nodes compute

Most steps of a build leave every node with what it computes from what it reads (`Retains`): deriving facts about nodes, setting a program up, marking outputs, removing nodes that
are not read, and also putting a constant buffer in the place of a node, as long as the buffer holds
the value of the node. Such steps keep the values of all nodes (`Retains.valuation`).

Activations are only ever fused into nodes of a kind that takes them (`OnlyFusable`). So a reorder,
an activation, a network input and a constant buffer have no fused activation.
-/

universe u

namespace LayerGraph

open Interpretation

namespace Program

variable {V : Type u} {interp : Interpretation V} {constants v : String → V}
  {p q : Program} {k : NodeKey} {n : Node} {id : String}

/-- Activations are fused into nodes of a kind that takes them only. -/
def OnlyFusable (program : Program) : Prop :=
  ∀ key node, program.node? key = some node → node.fused.isSome → node.tag.takesActivation

theorem OnlyFusable.fused_eq_none (fusable : p.OnlyFusable)
    (hk : p.node? k = some n) (tag : n.tag.takesActivation = false) : n.fused = none := by
  cases fused : n.fused with
  | none => rfl
  | some fn =>
    have takes := fusable k n hk (by simp [fused])
    rw [tag] at takes
    cases takes

/-- A valuation stays one under another table that agrees on the constant buffers. -/
theorem Valuation.of_agree {others : String → V}
    (val : Valuation interp constants p v) (fusable : p.OnlyFusable)
    (agree : ∀ k n, p.node? k = some n → n.tag = .data →
      others n.id = constants n.id) : Valuation interp others p v := by
  intro k n hk
  rw [val k n hk]
  by_cases tag : n.tag = .data
  · have unfused := fusable.fused_eq_none hk (by rw [tag]; rfl)
    rw [nodeValue_data tag unfused, nodeValue_data tag unfused,
      agree k n hk tag]
  · exact nodeValue_of_not_data tag _

/-! ## Retaining -/

/-- Every node is there before under its id, where it computes the same from nodes with the same ids,
unless it is a constant buffer that has been made. -/
structure Retains (made : String → Prop) (program edited : Program) : Prop where
  nodes : ∀ key node, edited.node? key = some node → ∃ before original, program.node? before = some
    original ∧ original.id = node.id ∧ ((original.primitive = node.primitive ∧ original.fused =
    node.fused ∧ (edited.dependencies key).map edited.idOf = (program.dependencies before).map
    program.idOf) ∨ made node.id ∧ node.tag = .data ∧ node.fused = none)

namespace Retains

variable {made : String → Prop}

theorem refl (p : Program) : Retains made p p :=
  ⟨fun k n hk => ⟨k, n, hk, rfl, .inl ⟨rfl, rfl, rfl⟩⟩⟩

theorem trans {mid : Program} (a : Retains made p mid)
    (b : Retains made mid q) : Retains made p q where
  nodes k n hk := by
    obtain ⟨between, kept, foundKept, sameId, case⟩ := b.nodes k n hk
    obtain ⟨pre, orig, foundOrig, sameBefore, caseBefore⟩ := a.nodes between kept foundKept
    refine ⟨pre, orig, foundOrig, sameBefore.trans sameId, ?_⟩
    rcases case with ⟨prim, fused, hr⟩ | isMade
    · rcases caseBefore with ⟨primitiveBefore, fusedBefore, readsBefore⟩ | ⟨isMade, tag, unfused⟩
      · exact .inl ⟨primitiveBefore.trans prim, fusedBefore.trans fused, hr.trans readsBefore⟩
      · refine .inr ⟨sameId ▸ isMade, ?_, fused ▸ unfused⟩
        rw [← tag, Node.tag, Node.tag, prim]
    · exact .inr isMade

theorem mono {more : String → Prop} (retains : Retains made p q)
    (covers : ∀ id, made id → more id) : Retains more p q where
  nodes k n hk := by
    obtain ⟨pre, orig, foundOrig, sameId, case⟩ := retains.nodes k n hk
    exact ⟨pre, orig, foundOrig, sameId, case.imp_right fun ⟨isMade, data⟩ =>
      ⟨covers _ isMade, data⟩⟩

/-- Values stay, if the buffers that have been made hold them. -/
theorem valuation (retains : Retains made p q) (val : Valuation interp constants p v)
    (holds : ∀ id, made id → constants id = v id) : Valuation interp constants q v := by
  intro k n hk
  obtain ⟨pre, orig, foundOrig, sameId, case⟩ := retains.nodes k n hk
  rcases case with ⟨prim, fused, hr⟩ | ⟨isMade, tag, unfused⟩
  · rw [← sameId, val pre orig foundOrig, arguments, arguments, hr,
      nodeValue_congr prim fused]
  · rw [← holds n.id isMade, nodeValue_data tag unfused]

theorem onlyFusable (retains : Retains made p q) (fusable : p.OnlyFusable) : q.OnlyFusable := by
  intro k n hk isFused
  obtain ⟨pre, orig, foundOrig, -, ⟨prim, fused, -⟩ | ⟨-, -, unfused⟩⟩ := retains.nodes k n hk
  · rw [Node.tag, ← prim]
    exact fusable pre orig foundOrig (fused ▸ isFused)
  · rw [unfused] at isFused
    cases isFused

end Retains

theorem Annotated.label (ann : Annotated p q) : Alters Node.label p q :=
  ann.weaken (fun core => (core.1.id, core.2.2)) fun _ => rfl

theorem idOf_of_alters (alters : Alters Node.label p q) : q.idOf = p.idOf := by
  funext k
  have e := alters.same k
  rw [idOf, idOf]
  cases pre : p.node? k with
  | none =>
    rw [pre, Option.map_none, Option.map_eq_none_iff] at e
    rw [e]
  | some n =>
    rw [pre, Option.map_some] at e
    obtain ⟨after, hk, label⟩ := Option.map_eq_some_iff.mp e
    rw [hk]
    exact congrArg Prod.fst label

theorem Prepares.retains (prep : Prepares p q) (kept : q.Consistent) : Retains (fun _ => False) p q where
  nodes k n hk := by
    obtain ⟨orig, foundOrig, prim, fused⟩ := prep.nodes k n hk
    refine ⟨k, orig, foundOrig, congrArg Primitive.id prim, .inl ⟨prim, fused, ?_⟩⟩
    rw [← prep.reads k (contains_of_node? hk)]
    refine List.map_congr_left fun dep hr => ?_
    obtain ⟨src, foundSrc⟩ := contains_iff.mp (kept.reads_live k dep hr).1
    obtain ⟨pre, hb, e, -⟩ := prep.nodes dep src foundSrc
    rw [idOf_of_node? foundSrc, idOf_of_node? hb]
    exact congrArg Primitive.id e.symm

theorem retains_of_annotated (hs : p.Sound) (ann : Annotated p q) : Retains (fun _ => False) p q :=
  (Prepares.of_annotated ann).retains (hs.consistent.annotated ann)

theorem retains_setOutput (hs : p.Sound) (k : NodeKey) :
    Retains (fun _ => False) p (p.setOutput k true) :=
  (Prepares.setOutput p k).retains (hs.setOutput k true).consistent

end Program

end LayerGraph
