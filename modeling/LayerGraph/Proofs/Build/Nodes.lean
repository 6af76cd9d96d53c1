import LayerGraph.Proofs.Build.Unset
import LayerGraph.Proofs.Network.Insertion

/-!
# What holds of every node

Passes change nodes in few ways: they mark them, fuse activations into them, widen their borders, insert
reorders and replace computed constants by constant buffers. What holds of every node and lasts through
these changes (`Node.Lasting`) holds of every node until buffers are shared
(`Build.ensures_body_each`, `Build.ensures_foldConstants_each`).
-/

namespace LayerGraph

/-- The passes between the marking of nodes and the folding of constants. -/
abbrev Pass.reshaping : List Pass :=
  [trim, orderBreadthFirst, decideOutputSizes, fuseActivations, prepareWindows, dropReorders]

/-- What the passes between the marking of nodes and the folding of constants leave to a node. -/
structure Node.Durable (holds : NodeKey → Node → Prop) : Prop where
  fused : ∀ key node function, holds key node → holds key { node with fused := some function }
  widened : ∀ key node padding, holds key node → holds key (node.mergePadding padding)
  reorder : ∀ key (primitive : Primitive) (source : Node) (layout : Layout) format,
    primitive.kind = .reorder format → primitive.inputs ≠ [] →
      holds key (((Node.ofPrimitive primitive).markedLike source).withLayout (some layout))

/-- What no pass before the sharing of buffers takes from a node. -/
structure Node.Lasting (holds : NodeKey → Node → Prop) : Prop extends Node.Durable holds where
  marked : ∀ key node constant flow, holds key node →
    holds key { node with isConstant := constant, inDataFlow := flow }
  buffer : ∀ key id layout, holds key (.ofPrimitive (.data id layout))
  replaced : ∀ key node model, holds key node → holds key (node.inPlaceOf model)

namespace Program

variable {p q : Program} {k : NodeKey} {holds : NodeKey → Node → Prop}

/-- Something holds of every node. -/
def EachNode (holds : NodeKey → Node → Prop) (program : Program) : Prop :=
  ∀ key node, program.node? key = some node → holds key node

namespace EachNode

variable (each : p.EachNode holds)

include each

theorem of_nodes (e : ∀ k n, q.node? k = some n → p.node? k = some n) : q.EachNode holds :=
  fun k n hk => each k n (e k n hk)

theorem modifyNode (k : NodeKey) {change : Node → Node}
    (keeps : ∀ n, holds k n → holds k (change n)) : (p.modifyNode k change).EachNode holds := by
  intro o n hk
  rw [node?_modifyNode] at hk
  split at hk
  · next isKey =>
    obtain ⟨orig, foundOrig, rfl⟩ := Option.map_eq_some_iff.mp hk
    subst isKey
    exact keeps orig (each o orig foundOrig)
  · exact each o n hk

theorem setOutput (k : NodeKey)
    (keeps : ∀ k n, holds k n → holds k { n with isOutput := true }) :
    (p.setOutput k true).EachNode holds := by
  intro o n hk
  rw [node?_setOutput] at hk
  split at hk
  · obtain ⟨orig, foundOrig, rfl⟩ := Option.map_eq_some_iff.mp hk
    exact keeps o orig (each o orig foundOrig)
  · exact each o n hk

theorem markSinks (keeps : ∀ k n, holds k n → holds k { n with isOutput := true }) :
    p.markSinks.EachNode holds := by
  have loop : ∀ (ks : List NodeKey) (st : Program), st.EachNode holds →
      (ks.foldl (fun p k => p.setOutput k true) st).EachNode holds := by
    intro ks
    induction ks with
    | nil => exact fun _ h => h
    | cons k rest ih => exact fun st h => ih _ (h.setOutput k keeps)
  rw [Program.markSinks]
  split
  · exact loop _ p each
  · exact each

theorem bypass? (wf : p.Consistent) (res : p.bypass? k = some q) : q.EachNode holds := by
  obtain ⟨n, i, hk, hr, -, rfl⟩ := bypass?_eq_some.mp res
  refine each.of_nodes fun o m ho => ?_
  rw [node?_bypass wf hr hk] at ho
  split at ho
  · cases ho
  · exact ho

/-- A reorder is inserted, and its layout is found out. -/
theorem reorder (durable : Node.Durable holds)
    {inserted : NodeKey} {prim : Primitive} {src : Node} {fmt : Format}
    (kind : prim.kind = .reorder fmt) (hr : prim.inputs ≠ [])
    (takes : TakesMarks p q inserted prim src) (lay : Layout) :
    (q.modifyNode inserted (·.withLayout (some lay))).EachNode holds := by
  intro o n hk
  rw [node?_modifyNode] at hk
  split at hk
  · next isNew =>
    rw [isNew, takes.nodes, if_pos rfl] at hk
    cases hk
    exact durable.reorder o prim src lay fmt kind hr
  · next isOld =>
    rw [takes.nodes, if_neg isOld] at hk
    exact each o n hk

end EachNode

/-! ## Edits -/

/-- Layouts are found out, unless a word overflows. -/
theorem ensures_refreshLayouts_each (wf : p.Consistent) (each : p.EachNode holds)
    (keeps : ∀ k n lay, holds k n → holds k (n.withLayout lay)) :
    Ensures Edit.refreshLayouts p (fun _ next => next.EachNode holds) Fault.IsOverflow := by
  exact (ensures_refreshLayouts_keeps (·.EachNode holds) wf each fun _ k lay kept =>
    kept.modifyNode k fun n => keeps k n lay).weaken fun _ _ h => h.2

theorem ensures_markAll_each (lasting : Node.Lasting holds) (each : p.EachNode holds)
    (ks : List NodeKey) :
    Ensures (ks.forM Edit.markNode) p (fun _ next => next.EachNode holds) := by
  refine ensures_forM (fun _ (st : Program) => st.EachNode holds) ?_ each
  intro k rest st kept
  simp only [Edit.markNode, Edit.markConstant, Edit.markDataFlow, Edit.nodeAt, ensures_bind,
    ensures_modify, ensures_get]
  have con : (st.markConstant k).EachNode holds := by
    rw [Program.markConstant]
    split
    · exact kept
    · exact kept.modifyNode k fun n => lasting.marked k n _ n.inDataFlow
  refine ensures_checked fun n _ => ?_
  exact con.modifyNode k fun n => lasting.marked k n n.isConstant _

theorem ensures_prepareWindow_each (durable : Node.Durable holds) (hs : p.Sound)
    (each : p.EachNode holds) (handling : Bool) (hv : p.contains k) :
    Ensures (Edit.prepareWindow handling k) p (fun _ next => next.EachNode holds) := by
  obtain ⟨n, hk⟩ := contains_iff.mp hv
  refine (ensures_prepareWindow_cases handling hs hk).mono ?_
  intro _ next prep
  cases prep with
  | unknown => exact each
  | enough => exact each
  | @widened i _ pad _ _ _ _ _ widens =>
    cases widens with
    | merged => exact each.modifyNode i fun n => durable.widened i n pad
    | inserted _ _ _ _ _ takes => exact each.reorder durable rfl (List.cons_ne_nil _ _) takes _

theorem ensures_replaceByData_each (lasting : Node.Lasting holds) (hs : p.Sound)
    (each : p.EachNode holds) (hv : p.contains k) :
    Ensures (Edit.replaceByData k) p (fun _ next => next.EachNode holds) Fault.SparesProgram := by
  obtain ⟨n, hk⟩ := contains_iff.mp hv
  refine (ensures_replaceByData_refills hs hk).mono ?_ fun _ h => h.1
  rintro _ q ⟨-, ⟨-, rfl⟩ | ⟨new, rep, lay, refills⟩⟩
  · exact each
  intro o m ho
  rw [refills.nodes] at ho
  split at ho
  · cases ho
  · split at ho
    · next isNew =>
      cases ho
      refine lasting.replaced o rep n ?_
      rcases refills.origin with ⟨-, -, rfl⟩ | ⟨-, foundNew, -⟩
      · exact lasting.buffer o (foldedId n.id) lay
      · exact each o rep (isNew ▸ foundNew)
    · exact each o m ho

end Program

/-! ## Passes -/

namespace Build

open Program

variable {s : Session} {folding : Build Unit} {pass : Pass} {holds : NodeKey → Node → Prop}

/-- **Setting up keeps what does not depend on layouts and outputs,** and fails only if there is a cycle
or a word overflows. -/
theorem ensures_setUp_each (wf : s.program.Consistent) (each : s.program.EachNode holds)
    (output : ∀ k n, holds k n → holds k { n with isOutput := true })
    (shaped : ∀ k n lay, holds k n → holds k (n.withLayout lay)) :
    Ensures setUp s (fun _ next => next.program.EachNode holds)
      fun fault => fault = .aborted .overflow ∨ ¬ s.program.network.Acyclic := by
  simp only [setUp, ensures_bind, ensures_program, ensures_modifyProgram]
  refine (ensures_removeSplits wf).weaken ?_
  rintro _ st ⟨kept, prep, -, nodes⟩
  have eachState : st.program.EachNode holds := each.of_nodes nodes
  obtain ⟨hm, step⟩ := Prepares.markSinks kept
  rw [ensures_edit]
  refine hm.orderDepthFirst.mono ?_ ?_
  · rintro _ ordered ⟨hs, -, order, rfl⟩
    rw [ensures_edit]
    exact (ensures_refreshLayouts_each hs.consistent (eachState.markSinks output) shaped).mono
      (fun _ _ h => h) fun _ overflow => .inl overflow
  · intro _ cyclic
    exact .inr fun acyclic => cyclic ((prep.trans step).acyclic wf hm acyclic)

/-- **The passes between the marking of nodes and the folding of constants** keep what is durable. -/
theorem ensures_body_durable (durable : Node.Durable holds) (hs : s.program.Sound)
    (each : s.program.EachNode holds) (mem : pass ∈ Pass.reshaping) :
    Ensures (pass.body folding) s (fun _ next => next.program.EachNode holds) := by
  simp only [List.mem_cons, List.not_mem_nil, or_false] at mem
  rcases mem with rfl | rfl | rfl | rfl | rfl | rfl
  · simp only [Pass.body, trim, ensures_bind, ensures_program, ensures_modifyProgram]
    refine ensures_checked fun dead _ => ?_
    obtain ⟨removes, -⟩ := removes_removeAll hs.consistent dead
    refine each.of_nodes fun k n hk => ?_
    rw [removes.node?] at hk
    split at hk
    · cases hk
    · exact hk
  · exact each
  · refine (ensures_decideOutputSizes hs).mono fun _ next h => ?_
    rw [h.1]
    exact each
  · exact ensures_fuseActivations_keeps (·.EachNode holds) hs each
      fun st k n fn i q kept pre _ _ _ res =>
        (pre.bypass? kept.consistent res).modifyNode i fun n =>
          durable.fused i n fn
  · exact ensures_prepareWindows_keeps (·.EachNode holds) hs each
      fun handling st k kept hv pre =>
        ensures_prepareWindow_each durable kept pre handling hv
  · exact ensures_dropReorders_keeps (·.EachNode holds) hs each
      fun st k n q kept pre _ _ res => pre.bypass? kept.consistent res

/-- **The passes before the folding of constants keep what lasts.** -/
theorem ensures_body_each (lasting : Node.Lasting holds) (hs : s.program.Sound)
    (each : s.program.EachNode holds) (mem : pass ∈ .markNodes :: Pass.reshaping) :
    Ensures (pass.body folding) s (fun _ next => next.program.EachNode holds) := by
  rcases List.mem_cons.mp mem with rfl | mem
  · simp only [Pass.body, markNodes, ensures_bind, ensures_program, ensures_edit]
    exact ensures_markAll_each lasting each _
  · exact ensures_body_durable lasting.toDurable hs each mem

/-- Folding constants keeps what lasts. -/
theorem ensures_foldConstants_each (lasting : Node.Lasting holds) (hs : s.program.Sound)
    (each : s.program.EachNode holds) : Ensures (foldConstants buildInternal) s
      (fun _ next => next.program.Sound ∧ next.program.EachNode holds) s.surroundings.Excuses := by
  refine ensures_foldConstants_of (fun _ => True) hs ⟨hs, each⟩ (fun cp made => ?_)
    fun fin _ => ?_
  · exact (ensures_buildInternal (isInner_constantSession hs.consistent made)).weaken
      fun _ _ _ => trivial
  · apply (ensures_replaceAllByData (·.EachNode holds) (fun k st kept hv pre =>
      ensures_replaceByData_each lasting kept pre hv) hs each
      hs.consistent.boundaryConstants_nodup hs.consistent.boundaryConstants_live).weaken
    intro _ replaced kept
    exact ⟨kept.1, fun pruned last _ nodes => ⟨last, kept.2.of_nodes nodes⟩⟩

end Build

end LayerGraph
