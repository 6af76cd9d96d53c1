import LayerGraph.Proofs.Build.Rewriting
import LayerGraph.Proofs.Program.Construction

/-!
# What programs compute

An interpretation says what the nodes of a program compute in some domain of values. Network inputs
take their values from an environment by id, and constant buffers from a table of constants, which
is the environment as long as no constant has been folded. A reorder gives its first input, an
activation is applied to its first input, and every other kind is an arbitrary function of the kind
and of the values of what the node reads, in slot order. A fused activation is applied in the end.

`Denotes` gives a node its value. A node has at most one value (`Denotes.unique`), and in a sound
program it has one (`Sound.exists_denotes`).

For the proofs about rewriting, values are kept by id: a `Valuation` assigns a value to every id such
that each node gets what it computes from what it reads. In a sound program there is one
(`Sound.exists_valuation`), and it gives the values of all nodes (`Valuation.denotes`).
-/

universe u

namespace LayerGraph

variable {kind : Kind}

theorem Node.tag_of_kind {node : Node} (e : node.kind = kind) : node.tag = kind.tag :=
  congrArg Kind.tag e

theorem Kind.eq_inputLayout_of_tag (tag : kind.tag = .inputLayout) : ∃ lay, kind = .inputLayout lay
    := by
  cases kind with
  | inputLayout lay => exact ⟨lay, rfl⟩
  | _ => cases tag

theorem Kind.eq_data_of_tag (tag : kind.tag = .data) : ∃ lay, kind = .data lay := by
  cases kind with
  | data lay => exact ⟨lay, rfl⟩
  | _ => cases tag

/-- What nodes compute in a domain of values. -/
structure Interpretation (V : Type u) where
  /-- The values of network inputs, and of constant buffers that the network came with. -/
  environment : String → V
  activate : Activation → V → V
  /-- What all other kinds compute. -/
  compute : Kind → List V → V

namespace Interpretation

variable {V : Type u} (interp : Interpretation V) (constants : String → V)

/-- What a kind computes from its arguments, under an id. -/
def kindValue (id : String) : Kind → List V → V
  | .inputLayout _, _ => interp.environment id
  | .data _, _ => constants id
  | .reorder _, first :: _ => first
  | .activation function, first :: _ => interp.activate function first
  | kind, arguments => interp.compute kind arguments

/-- What an optional activation makes of a value. -/
def fusedValue : Option Activation → V → V
  | some function, value => interp.activate function value
  | none, value => value

/-- What a node computes from its arguments. -/
def nodeValue (node : Node) (arguments : List V) : V :=
  interp.fusedValue node.fused (interp.kindValue constants node.id node.kind arguments)

variable {interp constants} {node : Node}

theorem nodeValue_congr {o : Node} (prim : node.primitive = o.primitive)
    (fused : node.fused = o.fused) (arguments : List V) :
    interp.nodeValue constants node arguments = interp.nodeValue constants o arguments := by
  simp only [nodeValue, Node.id, Node.kind, prim, fused]

theorem nodeValue_inputLayout (tag : node.tag = .inputLayout) (unfused : node.fused = none)
    (arguments : List V) :
    interp.nodeValue constants node arguments = interp.environment node.id := by
  obtain ⟨lay, kind⟩ := Kind.eq_inputLayout_of_tag tag
  rw [nodeValue, unfused, Node.kind, kind]
  rfl

/-- Only constant buffers depend on the table of constants. -/
theorem nodeValue_of_not_data {others : String → V} (tag : node.tag ≠ .data) (arguments : List V) :
    interp.nodeValue others node arguments = interp.nodeValue constants node arguments := by
  rw [nodeValue, nodeValue]
  congr 1
  cases kind : node.kind with
  | data lay => exact absurd (Node.tag_of_kind kind) tag
  | reorder fmt => cases arguments <;> rfl
  | activation fn => cases arguments <;> rfl
  | _ => rfl

theorem nodeValue_data (tag : node.tag = .data) (unfused : node.fused = none) (arguments : List V) :
    interp.nodeValue constants node arguments = constants node.id := by
  obtain ⟨lay, kind⟩ := Kind.eq_data_of_tag tag
  rw [nodeValue, unfused, Node.kind, kind]
  rfl

end Interpretation

namespace Program

variable {V : Type u}

/-- A node has a value when everything that it reads has one. -/
inductive Denotes (interpretation : Interpretation V) (constants : String → V) (program : Program) :
    NodeKey → V → Prop
  | node {key : NodeKey} {node : Node} (values : NodeKey → V)
      (found : program.node? key = some node)
      (reads : ∀ dependency ∈ program.dependencies key,
        Denotes interpretation constants program dependency (values dependency)) :
      Denotes interpretation constants program key
        (interpretation.nodeValue constants node ((program.dependencies key).map values))

variable {interp : Interpretation V} {constants : String → V} {p : Program}
  {key : NodeKey} {node : Node}

/-- **A node has at most one value.** -/
theorem Denotes.unique {v o : V} (a : Denotes interp constants p key v)
    (b : Denotes interp constants p key o) : v = o := by
  induction a generalizing o with
  | node values hf hr ih =>
    cases b with
    | node others foundAgain readsAgain =>
      cases hf.symm.trans foundAgain
      congr 1
      exact List.map_congr_left fun dep mem =>
        ih dep mem (readsAgain dep mem)

/-- What passes from the dependencies of a node to the node holds of every live node. -/
theorem Sound.induction (hs : p.Sound) (property : NodeKey → Prop)
    (step : ∀ key node, p.node? key = some node →
      (∀ dep ∈ p.dependencies key, property dep) → property key)
    (hv : p.contains key) : property key := by
  refine hs.complete.isTopological.induction (fun key hl ih => ?_) key
    ((hs.complete.complete key).mpr hv)
  obtain ⟨node, hf⟩ := contains_iff.mp ((hs.complete.complete key).mp hl)
  exact step key node hf ih

/-- **Every node of a sound program has a value.** -/
theorem Sound.exists_denotes (hs : p.Sound) (interp : Interpretation V)
    (constants : String → V) (hv : p.contains key) : ∃ v, Denotes interp constants p key v := by
  refine hs.induction (fun key => ∃ v, Denotes interp constants p key v)
    (fun key node hf ih => ?_) hv
  have pick : ∀ dep, ∃ v, dep ∈ p.dependencies key → Denotes interp constants p dep v := by
    intro dep
    by_cases hr : dep ∈ p.dependencies key
    · obtain ⟨v, denotes⟩ := ih dep hr
      exact ⟨v, fun _ => denotes⟩
    · exact ⟨interp.environment "", fun given => absurd given hr⟩
  choose values denotes using pick
  exact ⟨_, .node values hf denotes⟩

/-! ## Values by id -/

/-- The values of what a node reads, when values are kept by id. -/
def arguments (program : Program) (value : String → V) (key : NodeKey) : List V :=
  ((program.dependencies key).map program.idOf).map value

/-- Every node gets what it computes from what it reads. -/
def Valuation (interpretation : Interpretation V) (constants : String → V) (program : Program)
    (value : String → V) : Prop :=
  ∀ key node, program.node? key = some node →
    value node.id = interpretation.nodeValue constants node (program.arguments value key)

variable {v : String → V}

/-- A valuation of a sound program gives the values of its nodes. -/
theorem Valuation.denotes (val : Valuation interp constants p v)
    (hs : p.Sound) (hf : p.node? key = some node) : Denotes interp constants p key (v node.id) := by
  rw [← idOf_of_node? hf]
  refine hs.induction (fun key => Denotes interp constants p key
    (v (p.idOf key))) (fun key node hf ih => ?_) (contains_of_node? hf)
  rw [idOf_of_node? hf, val key node hf, arguments, List.map_map]
  exact .node _ hf ih

/-- **A sound program has a valuation.** -/
theorem Sound.exists_valuation (hs : p.Sound) (interp : Interpretation V)
    (constants : String → V) : ∃ v, Valuation interp constants p v := by
  have pick : ∀ id, ∃ v, ∀ key node, p.node? key = some node → node.id = id →
      Denotes interp constants p key v := by
    intro id
    by_cases taken : ∃ key node, p.node? key = some node ∧ node.id = id
    · obtain ⟨key, node, hf, e⟩ := taken
      obtain ⟨v, denotes⟩ := hs.exists_denotes interp constants (contains_of_node? hf)
      refine ⟨v, fun o m ho sameOther => ?_⟩
      cases hs.consistent.key_eq_of_id_eq hf ho (e.trans sameOther.symm)
      exact denotes
    · exact ⟨interp.environment id, fun key node hf e =>
        absurd ⟨key, node, hf, e⟩ taken⟩
  choose v denotes using pick
  refine ⟨v, fun key node hf => ?_⟩
  refine (denotes node.id key node hf rfl).unique ?_
  rw [arguments, List.map_map]
  refine .node _ hf fun dep hr => ?_
  obtain ⟨src, foundSource⟩ := contains_iff.mp (hs.consistent.reads_live key dep hr).1
  rw [Function.comp_apply, idOf_of_node? foundSource]
  exact denotes src.id dep src foundSource rfl

end Program

end LayerGraph
