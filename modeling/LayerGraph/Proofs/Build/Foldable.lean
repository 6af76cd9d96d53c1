import LayerGraph.Proofs.Build.Nodes
import LayerGraph.Proofs.Network.Marks

/-!
# Programs whose constants can be folded

Marking nodes makes a network regular: its computed constants read only constant nodes. The passes
between marking nodes and folding constants keep it so (`Build.ensures_body_regular`), and where nodes
are not marked there are no constants but constant buffers.
-/

namespace LayerGraph

open List Network

namespace Pass

/-- The passes from the first one up to those that make room for windows. -/
def makingRoom (options : Options) : List Pass :=
  ([markNodes, trim] ++ only (options.queueType == .outOfOrder) orderBreadthFirst ++
    [decideOutputSizes] ++ only options.optimizeData fuseActivations) ++ [prepareWindows, dropReorders]

/-- The passes after the folding of constants. -/
def finishing (options : Options) : List Pass :=
  (only options.optimizeData shareBuffers ++ [compileNodes]) ++ (only options.optimizeData reorderInputs
    ++ (only options.enableMemoryPool computeConflicts ++ [cleanUp]))

/-- The passes of a build that optimizes, cut where constants are folded. -/
theorem pipeline_phases (opts : Options) (isInternal : Bool)
    (optimizes : opts.noOptimizations = false) :
    pipeline opts isInternal = setUp :: (makingRoom opts ++
      (only (!isInternal) foldConstants ++ finishing opts)) := by
  simp [pipeline, setUpPhase, optimizationPhase, finishingPhase, makingRoom, finishing, optimizes]

theorem mem_only {condition : Bool} {pass o : Pass} :
    pass ∈ only condition o ↔ condition ∧ pass = o := by
  cases condition with
  | false => simp [only]
  | true => simp [only]

/-- The passes after the first one and before the folding of constants. -/
def beforeFolding (options : Options) : List Pass :=
  if options.noOptimizations then [markNodes] else makingRoom options

/-- The passes after the folding of constants. -/
def afterFolding (options : Options) : List Pass :=
  if options.noOptimizations then [cleanUp] else finishing options

/-- The passes of a build, cut where constants are folded. -/
theorem pipeline_cut (opts : Options) (isInternal : Bool) :
    pipeline opts isInternal = setUp :: (beforeFolding opts ++
      (only (!opts.noOptimizations && !isInternal) foldConstants ++ afterFolding opts)) := by
  rw [beforeFolding, afterFolding]
  cases optimizes : opts.noOptimizations with
  | false => exact pipeline_phases opts isInternal optimizes
  | true => simp [pipeline, setUpPhase, optimizes, only]

/-- Those of the passes between the marking of nodes and the folding of constants that are run. -/
def afterMarking (options : Options) : List Pass :=
  if options.noOptimizations then []
  else trim :: (only (options.queueType == .outOfOrder) orderBreadthFirst ++ (decideOutputSizes :: (only
    options.optimizeData fuseActivations ++ [prepareWindows, dropReorders])))

theorem beforeFolding_eq (opts : Options) :
    beforeFolding opts = markNodes :: afterMarking opts := by
  rw [beforeFolding, afterMarking]
  split
  · rfl
  · simp [makingRoom]

variable {opts : Options} {pass : Pass}

theorem mem_afterMarking (mem : pass ∈ afterMarking opts) : pass ∈ reshaping := by
  rw [afterMarking] at mem
  split at mem
  · cases mem
  · simp only [mem_append, mem_only, mem_cons, not_mem_nil, or_false] at mem ⊢
    tauto

theorem mem_makingRoom (mem : pass ∈ makingRoom opts) : pass ∈ markNodes :: reshaping := by
  simp only [makingRoom, mem_append, mem_only, mem_cons, not_mem_nil, or_false] at mem ⊢
  tauto

theorem mem_beforeFolding (mem : pass ∈ beforeFolding opts) : pass ∈ markNodes :: reshaping := by
  rw [beforeFolding] at mem
  split at mem
  · exact mem_cons.mpr (.inl (mem_singleton.mp mem))
  · exact mem_makingRoom mem

theorem mem_afterFolding (mem : pass ∈ afterFolding opts) :
    pass ∈ [shareBuffers, compileNodes, reorderInputs, computeConflicts, cleanUp] := by
  rw [afterFolding] at mem
  split at mem
  · rw [mem_singleton.mp mem]
    simp
  · simp only [finishing, mem_append, mem_only, mem_cons, not_mem_nil, or_false] at mem
    simp only [mem_cons, not_mem_nil, or_false]
    tauto

end Pass

namespace Program

variable {p q : Program} {k : NodeKey}

/-- Nothing but constant buffers is marked constant. -/
def Unmarked (program : Program) : Prop :=
  ∀ key node, program.node? key = some node → node.isComputedConstant = false

/-- A program in which constants can be folded: computed constants read only constant nodes, reserved
ids are not taken, and there are no split layers. -/
structure Foldable (program : Program) : Prop where
  regular : program.network.Regular
  attached : program.Attached
  unsplit : program.HasKinds (·.tag ≠ .split)

/-- A program without split layers and reserved ids, in which nothing has been derived. -/
structure Fresh (program : Program) : Prop extends Unset program where
  unmarked : program.Unmarked
  unreserved : ∀ key node, program.node? key = some node → ¬ Reserved node.id
  unsplit : program.HasKinds (·.tag ≠ .split)

theorem HasKinds.cell? {admits : Kind → Prop} (kinds : p.HasKinds admits)
    (wf : p.Consistent) {id : String} {c : Cell}
    (hc : p.network.cell? id = some c) : admits c.kind := by
  obtain ⟨k, n, hk, -, rfl⟩ := wf.exists_node_of_cell? hc
  exact kinds k n hk

/-- Where nothing is computed from constants, nothing computed from them reads anything else. -/
theorem Unmarked.regular (unmarked : p.Unmarked) (wf : p.Consistent) : p.network.Regular := by
  intro id c hc computed
  obtain ⟨k, n, hk, -, rfl⟩ := wf.exists_node_of_cell? hc
  have e : n.isComputedConstant = true := computed
  rw [unmarked k n hk] at e
  cases e

theorem mem_dependencyNodes : n ∈ p.dependencyNodes k ↔ ∃ d ∈ p.dependencies k, p.node? d = some n :=
  mem_filterMap

/-- The marks of a node have been derived from those of what it reads. A node that reads nothing stays as
constant as it was. -/
structure MarkedFrom (program : Program) (original : Node) (key : NodeKey) (node : Node) : Prop where
  tag : node.tag = original.tag
  constant : node.isConstant = if (program.dependencyNodes key).isEmpty then original.isConstant
    else (program.dependencyNodes key).all (·.isConstant)
  flow : node.inDataFlow = (node.tag == .inputLayout || (program.dependencyNodes key).any (·.inDataFlow))

/-- What a constant node reads is constant then. -/
theorem MarkedFrom.isConstant {orig n m : Node} (marked : p.MarkedFrom orig k n) (con : n.isConstant)
    (mem : m ∈ p.dependencyNodes k) : m.isConstant := by
  have nonempty : ¬ (p.dependencyNodes k).isEmpty := fun none => by
    rw [List.isEmpty_iff.mp none] at mem
    cases mem
  rw [marked.constant, if_neg nonempty] at con
  exact List.all_eq_true.mp con m mem

theorem Consistent.regular (wf : p.Consistent)
    (marked : p.EachNode fun k n => ∃ orig, p.MarkedFrom orig k n) : p.network.Regular := by
  intro id c hc computed src hr o lookedOther
  obtain ⟨k, n, hk, -, rfl⟩ := wf.exists_node_of_cell? hc
  obtain ⟨dep, isRead, rfl⟩ := List.mem_map.mp hr
  obtain ⟨m, hm⟩ := contains_iff.mp (wf.reads_live k dep isRead).1
  rw [idOf_of_node? hm, wf.cell?_of_node? hm] at lookedOther
  cases lookedOther
  obtain ⟨orig, marks⟩ := marked k n hk
  have con : m.isConstant := marks.isConstant (Bool.and_eq_true_iff.mp computed).1
    (mem_dependencyNodes.mpr ⟨dep, isRead, hm⟩)
  exact con

theorem Fresh.foldable (fr : p.Fresh) : p.Foldable where
  regular := fr.unmarked.regular fr.consistent
  attached := fun k n hk reserved => absurd reserved (fr.unreserved k n hk)
  unsplit := fr.unsplit

end Program

namespace Build

open Program

variable {s : Session} {folding : Build Unit} {pass : Pass}

/-! ## Setting up -/

/-- **Setting up marks no node,** and fails only if there is a cycle or a word overflows. -/
theorem ensures_setUp_unmarked (wf : s.program.Consistent) (unmarked : s.program.Unmarked) :
    Ensures setUp s (fun _ next => next.program.Unmarked)
      fun fault => fault = .aborted .overflow ∨ ¬ s.program.network.Acyclic :=
  ensures_setUp_each wf unmarked (fun _ _ plain => plain) fun _ _ _ plain => plain

/-- Setting up a fresh program makes it ready for the folding of constants. -/
theorem ensures_setUp_foldable (fr : s.program.Fresh) :
    Ensures setUp s (fun _ next => next.program.Foldable) := by
  have sets := (ensures_setUp fr.consistent).and
    (ensures_setUp_unmarked fr.consistent fr.unmarked)
  apply sets.mono
  rintro _ next ⟨⟨hs, prep, -⟩, unmarked⟩
  exact ⟨unmarked.regular hs.consistent, prep.attached fr.unreserved,
    prep.keepsSources.hasKinds (fun _ => KindTag.noConfusion) fr.unsplit⟩

/-! ## The passes before the folding of constants -/

/-- **Marking the nodes of a sound program derives all marks.** -/
theorem ensures_markNodes_from (hs : s.program.Sound) :
    Ensures markNodes s (fun _ next => s.Advances next ∧ next.program.EachNode fun k n =>
      ∃ place orig, s.program.node? place = some orig ∧ next.program.MarkedFrom orig k n) := by
  refine ((yields_markNodes hs).and (ensures_markNodes hs)).mono ?_
  rintro _ next ⟨⟨run, -⟩, adv⟩
  refine ⟨adv, fun k n hk => ?_⟩
  have wf := (adv.rewrites.sound hs).consistent
  have hc := wf.cell?_of_node? hk
  have hl : n.id ∈ s.program.ids := by
    by_contra ha
    rw [cell?_of_run ha run] at hc
    exact ha (hs.mem_ids.mpr ⟨_, hc⟩)
  obtain ⟨c, change, lookedBefore, answered, done⟩ := settled_of_run hs.nodup_ids
    (hs.pairwise_ids.imp fun unrelated hr => unrelated (.single hr))
    (fun id hr => hs.acyclic id (.single hr)) run hl
  cases answered
  have e := Option.some_inj.mp (hc.symm.trans done)
  have sources : next.program.network.sources c =
      (next.program.dependencyNodes k).map next.program.shown := by
    rw [← wf.sources_cellAt k n, e]
    rfl
  obtain ⟨place, orig, foundOrig, -, rfl⟩ := hs.consistent.exists_node_of_cell? lookedBefore
  have tag : n.tag = orig.tag := congrArg (fun c : Cell => c.tag) e
  have con := congrArg (fun c : Cell => c.isConstant) e
  have flow := congrArg (fun c : Cell => c.inDataFlow) e
  simp only [sources, Cell.withNode, isEmpty_map, all_map, any_map] at con flow
  refine ⟨place, orig, foundOrig, tag, con, flow.trans ?_⟩
  rw [tag]
  rfl

theorem Yields.keeps {step : Build Unit} {res : Option Network} {kept : Network → Prop}
    (yields : Yields step s res) (keeps : ∀ net, res = some net → kept net) :
    Ensures step s (fun _ next => kept next.program.network) :=
  yields.mono fun _ _ h => keeps _ h.1

/-- **The passes before the folding of constants keep a network regular.** -/
theorem ensures_body_regular (hs : s.program.Sound)
    (regular : s.program.network.Regular) (mem : pass ∈ .markNodes :: Pass.reshaping) :
    Ensures (pass.body folding) s (fun _ next => next.program.network.Regular) := by
  simp only [mem_cons, not_mem_nil, or_false] at mem
  rcases mem with rfl | rfl | rfl | rfl | rfl | rfl | rfl
  · refine (ensures_markNodes_from hs).weaken ?_
    rintro _ next ⟨adv, marked⟩
    refine (adv.rewrites.sound hs).consistent.regular fun k n hk => ?_
    obtain ⟨_, orig, -, marks⟩ := marked k n hk
    exact ⟨orig, marks⟩
  · obtain ⟨ids, -, -, yields⟩ := yields_trim hs
    apply yields.keeps
    intro net res
    refine run_keeps (fun id net next kept struck => ?_) regular res
    cases struck
    exact kept.strike id
  · rw [Pass.body, ensures_modifyProgram]
    exact regular
  · refine (ensures_decideOutputSizes hs).mono fun _ next h => ?_
    rw [h.1]
    exact regular
  · apply (yields_fuseActivations hs).keeps
    intro net res
    exact run_keeps (fun id net next kept shortened =>
      kept.shorten (fun _ _ _ _ _ => keepsMarks_fusedActivation) shortened) regular res
  · apply (yields_prepareWindows hs).keeps
    intro net res
    exact (run_keeps (fun id net next (kept : net.Regular ∧ net.Closed) made =>
      ⟨kept.1.makeRoom kept.2 made, kept.2.makeRoom made⟩) ⟨regular, hs.consistent.closed⟩
      res).1
  · apply (yields_dropReorders hs).keeps
    intro net res
    exact run_keeps (fun id net next kept shortened =>
      kept.shorten (fun _ _ _ _ _ => keepsMarks_redundantReorder) shortened) regular res

end Build

end LayerGraph
