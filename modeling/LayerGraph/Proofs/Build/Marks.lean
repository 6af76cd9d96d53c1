import LayerGraph.Proofs.Build.CompleteOrder
import LayerGraph.Proofs.Build.Foldable
import Mathlib

/-!
# What marks tell about sources

Nodes are marked one after the other, each from the marks of what it reads (`Program.MarkedByReads`).
Along a complete order this says what a node rests on in the end (`Program.TellsSources`): a node is
constant if all its sources are constant buffers, and it is in the data flow if it rests on a network
input. It needs that a node which reads nothing has the mark that it was made with. So it is when a
build begins (`Session.Begins`), and setting up does not change it.
-/

namespace LayerGraph

open List

namespace Program

variable {p : Program} {k : NodeKey} {n : Node}

/-- The marks of a node tell its sources. It is constant if every node without dependencies that it rests
on is a constant buffer, and it is in the data flow if it rests on a network input. -/
structure TellsSources (program : Program) (key : NodeKey) (node : Node) : Prop where
  constant : node.isConstant ↔ ∀ source origin, program.RestsOn key source →
    program.node? source = some origin → program.dependencies source = [] → origin.tag = .data
  flow : node.inDataFlow ↔ ∃ source origin, program.RestsOn key source ∧
    program.node? source = some origin ∧ origin.tag = .inputLayout

/-- A node is marked as it was made, or from the marks of what it reads. -/
abbrev MarkedByReads (program : Program) (key : NodeKey) (node : Node) : Prop :=
  program.MarkedFrom { node with isConstant := node.tag == .data } key node

/-- A node is constant as long as nothing has been derived if it is a constant buffer. -/
def MarkedAsMade (program : Program) : Prop :=
  program.EachNode fun _ node => node.isConstant = (node.tag == .data)

theorem Consistent.dependencyNodes_isEmpty (wf : p.Consistent) :
    (p.dependencyNodes k).isEmpty ↔ p.dependencies k = [] := by
  rw [List.isEmpty_iff, dependencyNodes, filterMap_eq_nil_iff]
  constructor
  · intro missing
    refine eq_nil_iff_forall_not_mem.mpr fun d hr => ?_
    obtain ⟨read, hf⟩ := contains_iff.mp (wf.reads_live k d hr).1
    rw [missing d hr] at hf
    cases hf
  · rintro none d hr
    rw [none] at hr
    cases hr

/-- What a node without dependencies rests on is the node itself. -/
theorem MarkedByReads.tellsSources_of_unread (hm : p.MarkedByReads k n) (hk : p.node? k = some n)
    (unread : p.dependencies k = []) : p.TellsSources k n := by
  have itself {src : NodeKey} {origin : Node} (rests : p.RestsOn k src)
      (hf : p.node? src = some origin) : origin = n := by
    rcases rests.cases_head with rfl | ⟨d, hr, -⟩
    · exact Option.some_inj.mp (hf.symm.trans hk)
    · rw [unread] at hr
      cases hr
  have none : p.dependencyNodes k = [] := by rw [dependencyNodes, unread, filterMap_nil]
  constructor
  · rw [hm.constant, none, isEmpty_nil, if_pos rfl, beq_iff_eq]
    constructor
    · exact fun isData _ _ rests hf _ => itself rests hf ▸ isData
    · exact fun all => all k n .refl hk unread
  · rw [hm.flow, none, any_nil, Bool.or_false, beq_iff_eq]
    constructor
    · exact fun isInput => ⟨k, n, .refl, hk, isInput⟩
    · rintro ⟨src, origin, rests, hf, isInput⟩
      exact itself rests hf ▸ isInput

/-- A node with dependencies rests on itself and on what they rest on. -/
theorem MarkedByReads.tellsSources_of_reads (wf : p.Consistent) (hm : p.MarkedByReads k n)
    (hk : p.node? k = some n) (hr : p.dependencies k ≠ [])
    (told : ∀ d ∈ p.dependencies k, ∀ read, p.node? d = some read → p.TellsSources d read) :
    p.TellsSources k n := by
  constructor
  · rw [hm.constant, if_neg (wf.dependencyNodes_isEmpty.not.mpr hr), all_eq_true]
    constructor
    · intro all src origin rests hf unread
      rcases rests.cases_head with rfl | ⟨d, isRead, further⟩
      · exact absurd unread hr
      · obtain ⟨read, foundRead⟩ := contains_iff.mp (wf.reads_live k d isRead).1
        have con := all read (mem_dependencyNodes.mpr ⟨d, isRead, foundRead⟩)
        exact (told d isRead read foundRead).constant.mp con src origin further hf unread
    · intro all read mem
      obtain ⟨d, isRead, foundRead⟩ := mem_dependencyNodes.mp mem
      exact (told d isRead read foundRead).constant.mpr fun src origin rests =>
        all src origin (.head isRead rests)
  · rw [hm.flow, Bool.or_eq_true, beq_iff_eq, any_eq_true]
    constructor
    · rintro (isInput | ⟨read, mem, flows⟩)
      · exact ⟨k, n, .refl, hk, isInput⟩
      · obtain ⟨d, isRead, foundRead⟩ := mem_dependencyNodes.mp mem
        obtain ⟨src, origin, rests, hf⟩ := (told d isRead read foundRead).flow.mp flows
        exact ⟨src, origin, .head isRead rests, hf⟩
    · rintro ⟨src, origin, rests, hf, isInput⟩
      rcases rests.cases_head with rfl | ⟨d, isRead, further⟩
      · cases hf.symm.trans hk
        exact .inl isInput
      · obtain ⟨read, foundRead⟩ := contains_iff.mp (wf.reads_live k d isRead).1
        exact .inr ⟨read, mem_dependencyNodes.mpr ⟨d, isRead, foundRead⟩,
          (told d isRead read foundRead).flow.mpr ⟨src, origin, further, hf, isInput⟩⟩

/-- **Marks that follow from what is read tell the sources.** The induction is along the order: what a
node reads has its marks explained before. -/
theorem Sound.tellsSources (hs : p.Sound) (marked : p.EachNode p.MarkedByReads) :
    p.EachNode p.TellsSources := by
  intro k n hk
  refine hs.induction (fun k => ∀ n, p.node? k = some n → p.TellsSources k n)
    (fun k m hm told n hk => ?_) (contains_of_node? hk) n hk
  by_cases unread : p.dependencies k = []
  · exact (marked k n hk).tellsSources_of_unread hk unread
  · exact (marked k n hk).tellsSources_of_reads hs.consistent hk unread told

theorem MarkedAsMade.exposeBoundary (made : p.MarkedAsMade) (program : Program)
    (bd : List NodeKey) : (program.exposeBoundary bd p).MarkedAsMade := by
  rw [Program.exposeBoundary]
  induction bd generalizing p with
  | nil => exact made
  | cons k rest ih =>
    rw [foldl_cons]
    split
    · exact ih (EachNode.setOutput made _ fun _ _ e => e)
    · exact ih made

end Program

/-- The sessions in which builds begin: with the program of a topology, or in the midst of a build with
the copied constant part of the program that is being built. -/
inductive Session.Begins : Session → Prop
  | declared {number : Nat} {topology : Topology} {options : Options} {isInternal : Bool}
      {program : Program} (surroundings : Surroundings)
      (accepted : Program.ofTopology number topology options isInternal = .ok program) :
      Begins (.start surroundings program number)
  | copied {outer : Session} {program : Program} (consistent : outer.program.Consistent)
      (made : Program.ofNodes outer.nextProgram outer.program outer.program.selectedConstants
        outer.program.options.forConstants = .ok program) :
      Begins (Build.constantSession outer program)

theorem Session.Begins.consistent {s : Session} (begins : s.Begins) :
    s.program.Consistent ∧ s.program.MarkedAsMade := by
  cases begins with
  | declared surroundings accepted =>
    have declares := Program.declares_of_ofTopology accepted
    exact ⟨Program.consistent_of_ofTopology accepted, fun k n hk =>
      congrArg Node.isConstant (declares.marked k n hk)⟩
  | copied wf made =>
    refine ⟨(wf.exposedConstants made).1, Program.MarkedAsMade.exposeBoundary ?_ _ _⟩
    intro k n hk
    obtain ⟨_, -, ⟨orig, -, rfl⟩, -⟩ :=
      (Program.isCopy_ofNodes wf wf.selectedConstants_nodup made).copies k n hk
    rfl

namespace Build

open Program

variable {s : Session}

/-- Marking the nodes of a sound program leaves every node with marks that follow from what it reads. -/
theorem ensures_markNodes_byReads (hs : s.program.Sound) (made : s.program.MarkedAsMade) :
    Ensures markNodes s (fun _ next => s.Advances next ∧
      next.program.EachNode next.program.MarkedByReads) := by
  refine (ensures_markNodes_from hs).weaken ?_
  rintro _ next ⟨adv, marked⟩
  refine ⟨adv, fun k n hk => ?_⟩
  obtain ⟨place, orig, foundOrig, marks⟩ := marked k n hk
  refine ⟨rfl, marks.constant.trans ?_, marks.flow⟩
  rw [made place orig foundOrig, ← marks.tag]

/-- Setting up and marking nodes makes the program of a build sound, and its marks tell the sources. -/
theorem ensures_setUpPhase {folding : Build Unit} (begins : s.Begins)
    (enabled : ∀ pass ∈ Pass.setUpPhase, s.program.options.enables pass.name) :
    Ensures (Pass.setUpPhase.forM (runWith folding)) s
      (fun _ next => next.program.Sound ∧ next.program.EachNode next.program.TellsSources) := by
  obtain ⟨wf, made⟩ := begins.consistent
  rw [Pass.setUpPhase, List.forM, ensures_bind]
  refine (ensures_runWith_setUp_and MarkedAsMade wf (enabled _ mem_cons_self) (ensures_setUp_each wf made
    (fun _ _ e => e) fun _ _ _ e => e)).mono ?_
  rintro _ ready ⟨⟨hs, prep, -⟩, madeReady⟩
  have marks : ready.program.options.enables Pass.markNodes.name :=
    prep.options ▸ enabled .markNodes (by simp [Pass.setUpPhase])
  have hm : Ensures (runWith folding .markNodes) ready (fun _ next => ready.Advances next ∧
      next.program.EachNode next.program.MarkedByReads) :=
    ensures_runWith_keeps (fun p => p.EachNode p.MarkedByReads) hs (by decide) (by decide)
      ((ensures_markNodes_byReads hs madeReady).weaken fun _ _ h => h.2) (absurd marks)
  rw [ensures_forM_singleton]
  refine hm.weaken fun _ next h => ?_
  have soundNext := h.1.rewrites.sound hs
  exact ⟨soundNext, soundNext.tellsSources h.2⟩

/-- **The marks of nodes tell their sources as soon as nodes have been marked,** in the build of a program
and in that of its constant part: both begin by setting up and marking nodes. -/
theorem marks_tell_sources (s marked : Session) (folding : Build Unit) (begins : s.Begins)
    (enabled : ∀ pass ∈ Pass.setUpPhase, s.program.options.enables pass.name)
    (ran : Pass.setUpPhase.forM (runWith folding) s = .ok () marked) :
    Pass.setUpPhase <+: Pass.pipeline s.program.options s.program.isInternal ∧
      marked.program.EachNode marked.program.TellsSources :=
  ⟨by simp [Pass.pipeline], ((ensures_setUpPhase begins enabled).of_ok ran).2⟩

end Build

namespace Topology

/-- The session in which the nodes of a topology have been marked, when it is built without options. -/
def marked? (topology : Topology) : Option Session :=
  match Program.ofTopology 0 topology {} false with
  | .error _ => none
  | .ok program =>
    match Pass.setUpPhase.forM (Build.runWith (pure ())) (.start {} program 0) with
    | .error _ _ => none
    | .ok () session => some session

variable {topo : Topology} {s : Session}

theorem exists_of_marked? (hf : topo.marked? = some s) : ∃ a : Session, a.Begins ∧ (∀ pass ∈
    Pass.setUpPhase, a.program.options.enables pass.name) ∧ Pass.setUpPhase.forM (Build.runWith (pure
    ())) a = .ok () s := by
  rw [marked?] at hf
  split at hf
  · cases hf
  next program accepted =>
  split at hf
  · cases hf
  next session ran =>
  cases hf
  refine ⟨_, .declared {} accepted, fun pass _ => ?_, ran⟩
  rw [Session.start, (consistent_ofTopology accepted).2]
  rfl

theorem marks_tell_sources_scaledInput : ∃ first marked : Session, first.Begins ∧
    Pass.setUpPhase.forM (Build.runWith (pure ())) first = .ok () marked ∧
    (marked.program.order.toList.filterMap marked.program.node?).map (fun node =>
      (node.id, node.isConstant, node.inDataFlow)) = [("x", false, true), ("w", true, false),
        ("scale", true, false), ("product", false, true)] ∧
    Pass.setUpPhase <+: Pass.pipeline first.program.options first.program.isInternal ∧
    marked.program.EachNode marked.program.TellsSources := by
  obtain ⟨marked, found, marks⟩ : ∃ s ∈ scaledInput.marked?,
      (s.program.order.toList.filterMap s.program.node?).map (fun node =>
        (node.id, node.isConstant, node.inDataFlow)) = [("x", false, true), ("w", true, false),
          ("scale", true, false), ("product", false, true)] := by decide +kernel
  obtain ⟨first, begins, enabled, ran⟩ := exists_of_marked? found
  exact ⟨first, marked, begins, ran, marks,
    Build.marks_tell_sources first marked (pure ()) begins enabled ran⟩

/-- The sessions before and after a step that is taken as soon as the nodes of a topology are marked. -/
def after? (topology : Topology) (step : Build Unit) : Option (Session × Session) :=
  topology.marked?.bind fun s =>
    match step s with
    | .error _ _ => none
    | .ok () next => some (s, next)

theorem exists_of_after? {step : Build Unit} {next : Session} (hf : topo.after? step = some (s, next))
    : s.program.Sound ∧ step s = .ok () next := by
  obtain ⟨hm, foundMarked, steps⟩ := Option.bind_eq_some_iff.mp hf
  split at steps
  · cases steps
  next fin =>
  cases steps
  obtain ⟨a, begins, enabled, ran⟩ := exists_of_marked? foundMarked
  exact ⟨((Build.ensures_setUpPhase begins enabled).of_ok ran).1, fin⟩

end Topology

end LayerGraph
