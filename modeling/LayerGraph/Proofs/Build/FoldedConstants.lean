import LayerGraph.Proofs.Build.DeclarationOrder
import LayerGraph.Proofs.Build.Marks
import LayerGraph.Proofs.Network.FoldedPart
import LayerGraph.Proofs.Layout.Passes

/-!
# Folding the constants of a build

When a program has been set up and its nodes have been marked, the layouts of all constant nodes are
known: they follow from those of constant buffers along the processing order
(`Program.Sound.knowsConstants`). The passes before the folding of constants keep this
(`Build.ensures_body_ripe`). So folding constants leaves a buffer for every node of the boundary,
whatever passes are run before (`Topology.folding_replaces_boundary`).
-/

namespace LayerGraph

open List Option

namespace Kind

variable {kind : Kind}

/-- The shape of a constant buffer is known, and so is that of a layer that reads something. -/
theorem isSome_outputShape {inputs : List Shape} {output : Option Shape} (res : kind.outputShape inputs =
    .ok output) (fed : inputs = [] → kind.tag = .data) : output.isSome := by
  unfold outputShape at res
  split at res
  · cases res
    rfl
  · cases res
    rfl
  · cases res
    rfl
  · next notData _ =>
    obtain ⟨lay, isData⟩ := eq_data_of_tag (fed rfl)
    exact absurd isData (notData lay)
  · next i rest _ _ _ =>
    cases shape : outputShapeFrom _ i rest with
    | error cause =>
      rw [shape] at res
      cases res
    | ok hk =>
      rw [shape] at res
      cases res
      rfl

theorem Gives.isSome {inputs : List (Option Layout)} {output : Option Layout} (gives : kind.Gives inputs
    output) (known : none ∉ inputs) (fed : inputs = [] → kind.tag = .data) : output.isSome := by
  cases gives with
  | unknown missing => exact absurd missing known
  | known all res =>
    obtain ⟨shape, sized, rfl⟩ := outputLayout_eq_ok.mp res
    rw [isSome_map]
    refine isSome_outputShape sized fun empty => fed ?_
    rw [all, map_eq_nil_iff.mp empty]
    rfl

end Kind

namespace Program

variable {p q : Program} {topology : Topology} {k : NodeKey} {n : Node}

/-- The layouts of all constant nodes are known. -/
def KnowsConstants (program : Program) : Prop :=
  program.EachNode fun _ node => node.isConstant → node.layout.isSome

/-- Constant buffers read nothing. -/
def HasBareBuffers (program : Program) : Prop :=
  ∀ key node, program.node? key = some node → node.tag = .data → program.dependencies key = []

/-- A program of which all constants can be folded. -/
structure Ripe (program : Program) : Prop where
  sound : program.Sound
  attached : program.Attached
  regular : program.network.Regular
  known : program.KnowsConstants
  bare : program.HasBareBuffers

theorem Ripe.primed (ripe : p.Ripe) : p.network.Primed := by
  intro id c hc
  obtain ⟨k, n, hk, -, rfl⟩ := ripe.sound.consistent.exists_node_of_cell? hc
  exact ⟨fun isData => map_eq_nil_iff.mpr (ripe.bare k n hk isData), ripe.known k n hk⟩

theorem KeepsSources.hasBareBuffers (keeps : KeepsSources p q) (bare : p.HasBareBuffers) :
    q.HasBareBuffers := by
  intro k n hk tag
  rcases keeps.nodes k n hk with ⟨orig, foundOrig, prim, stays, -⟩ | ⟨-, -, fmt, kind⟩
  · exact stays (bare k orig foundOrig (by rwa [Node.tag, prim]))
  · rw [Node.tag_of_kind kind] at tag
    cases tag

theorem durable_knowsConstants :
    Node.Durable fun _ node => node.isConstant → node.layout.isSome where
  fused _ _ _ known := known
  widened _ _ _ known con := isSome_map.trans (known con)
  reorder _ _ _ _ _ _ _ _ := rfl

/-- **Layouts of constant nodes are known** when they follow from each other, as far as they are known.
The induction is along the order: all that a constant node reads is constant. -/
theorem Sound.knowsConstants (hs : p.Sound) (marked : p.EachNode p.MarkedByReads)
    (solved : ∀ k, p.layering.SolvedAt k) : p.KnowsConstants := by
  intro k n hk
  refine hs.induction (fun k => ∀ n, p.node? k = some n → n.isConstant → n.layout.isSome)
    (fun k m hm told n hk con => ?_) (contains_of_node? hk) n hk
  have gives := solved k n.layer (layer?_of_node? hk)
  rw [known_of_node? hk] at gives
  rw [(marked k n hk).constant] at con
  rw [← isSome_map]
  refine gives.isSome (fun missing => ?_) fun empty => ?_
  · obtain ⟨dep, isRead, unknown⟩ := List.mem_map.mp missing
    obtain ⟨src, foundSrc⟩ := contains_iff.mp (hs.consistent.reads_live k dep isRead).1
    rw [if_neg (hs.consistent.dependencyNodes_isEmpty.not.mpr (ne_nil_of_mem isRead)),
      List.all_eq_true] at con
    have cached := told dep isRead src foundSrc
      (con src (mem_dependencyNodes.mpr ⟨dep, isRead, foundSrc⟩))
    rw [known_of_node? foundSrc, map_eq_none_iff] at unknown
    exact isSome_iff_ne_none.mp cached unknown
  · rw [if_pos (hs.consistent.dependencyNodes_isEmpty.mpr (map_eq_nil_iff.mp empty)), beq_iff_eq] at con
    exact con

section Declared

variable (declares : p.Declares topology)
  (bare : ∀ prim ∈ topology.primitives, prim.tag = .data ∨ prim.tag = .inputLayout → prim.inputs = [])
include declares bare

theorem Declares.dependencies_source (hk : p.node? k = some n)
    (src : n.tag = .data ∨ n.tag = .inputLayout) : p.dependencies k = [] := by
  rcases declares.origin k n hk with hd | ⟨split, -, isCrop⟩
  · have hr := declares.reads k n hk
    rw [bare n.primitive hd src] at hr
    exact map_eq_nil_iff.mp hr
  · obtain ⟨_, _, _, -, kind⟩ := cases_of_mem_cropsOf isCrop
    have tag : n.tag = .crop := congrArg Kind.tag kind
    rw [tag] at src
    rcases src with isData | isInput
    · cases isData
    · cases isInput

theorem Declares.attached (unreserved : ∀ prim ∈ topology.primitives, prim.inputs = [] →
    ¬ prim.id.startsWith "_const_prop_") : p.Attached := by
  intro k n hk reserved
  have fed : p.dependencies k ≠ [] := by
    intro empty
    have hr := declares.reads k n hk
    rw [empty] at hr
    rcases declares.origin k n hk with hd | ⟨split, -, isCrop⟩
    · exact unreserved n.primitive hd hr.symm reserved
    · obtain ⟨i, -, isRead⟩ := inputs_of_mem_cropsOf isCrop
      rw [isRead] at hr
      cases hr
  exact ⟨fun isInput => fed (declares.dependencies_source bare hk (.inr isInput)), fed⟩

end Declared

end Program

namespace Build

open Program

variable {s : Session} {folding : Build Unit} {pass : Pass} {topology : Topology}

/-- **Setting up and marking nodes makes the program of a topology ripe.** -/
theorem ensures_marked_ripe (declares : s.program.Declares topology) (wf : s.program.Consistent)
    (bare : ∀ prim ∈ topology.primitives,
      prim.tag = .data ∨ prim.tag = .inputLayout → prim.inputs = [])
    (unreserved : ∀ prim ∈ topology.primitives, prim.inputs = [] →
      ¬ prim.id.startsWith "_const_prop_") :
    Ensures (do setUp; markNodes) s (fun _ next => next.program.Ripe) := by
  have made : s.program.MarkedAsMade := fun k n hk => congrArg Node.isConstant (declares.marked k n hk)
  have sets := ((ensures_setUp wf).and (ensures_setUp_each wf made (fun _ _ e => e)
    fun _ _ _ e => e)).and (ensures_setUp_solved wf)
  rw [ensures_bind]
  apply sets.mono
  rintro _ mid ⟨⟨⟨hs, prep, -⟩, made⟩, -, solved⟩
  have ht := (declares.attached bare unreserved).step prep.keepsSources
  have buffers : s.program.HasBareBuffers := fun k n hk tag =>
    declares.dependencies_source bare hk (.inl tag)
  have marks := (ensures_markNodes_byReads hs made).and (ensures_body_layering hs (pure ()) mem_cons_self)
  apply marks.mono
  rintro _ next ⟨⟨adv, marked⟩, layering⟩
  have soundNext := adv.rewrites.sound hs
  exact ⟨soundNext, Rewrites.attached adv.rewrites hs ht,
    soundNext.consistent.regular fun k n hk => ⟨_, marked k n hk⟩,
    soundNext.knowsConstants marked (layering ▸ solved),
    adv.rewrites.of_sources hs (fun keeps => keeps.hasBareBuffers)
      (prep.keepsSources.hasBareBuffers buffers)⟩

/-- **The passes before the folding of constants keep a program ripe.** -/
theorem ensures_body_ripe (ripe : s.program.Ripe) (mem : pass ∈ Pass.reshaping) :
    Ensures (pass.body folding) s (fun _ next => next.program.Ripe) := by
  have adv := ensures_body ripe.sound folding
    (fun e => absurd (e ▸ mem : Pass.setUp ∈ Pass.reshaping) (by decide))
    (fun e => absurd (e ▸ mem : Pass.foldConstants ∈ Pass.reshaping) (by decide))
  refine ((adv.and (ensures_body_regular ripe.sound ripe.regular (mem_cons_of_mem _ mem))).and
    (ensures_body_durable durable_knowsConstants ripe.sound ripe.known mem)).mono ?_
  rintro _ next ⟨⟨adv, regular⟩, known⟩
  exact ⟨adv.rewrites.sound ripe.sound, Rewrites.attached adv.rewrites ripe.sound ripe.attached, regular,
    known, adv.rewrites.of_sources ripe.sound (fun keeps => keeps.hasBareBuffers) ripe.bare⟩

/-- **Folding the constants of a ripe program leaves buffers for the boundary,** whatever builds the
constant part. -/
theorem ensures_foldConstants_folded {buildInner : Build Unit} (ripe : s.program.Ripe) :
    Ensures (foldConstants buildInner) s
      (fun _ next => s.program.network.Folded next.program.network) := by
  have hs := ripe.sound
  have named := hs.consistent.closed.named
  simp only [foldConstants, ensures_bind, ensures_program, hs.consistent.constantPart,
    Checked.lift, ensures_pure]
  split
  · next empty =>
    have uncomputed : ∀ id, ¬ s.program.network.Computed id := by
      rintro id ⟨c, hc, computed⟩
      obtain ⟨k, n, hk, rfl, -⟩ := hs.consistent.exists_node_of_cell? hc
      have mem := (hs.mem_computedConstants hk).mpr ⟨c, hc, computed⟩
      rw [List.isEmpty_iff.mp empty] at mem
      cases mem
    apply ripe.primed.folded ripe.regular named
    intro id
    rw [if_neg fun bd => uncomputed id bd.1, if_neg]
    rintro ⟨computed | ⟨-, r, computed, -⟩, -⟩
    · exact uncomputed id computed
    · exact uncomputed r computed
  simp only [ensures_bind, takeNumber, ensures_modifyGet]
  refine ensures_error fun cp _ => ?_
  rw [ensures_within]
  refine (show Ensures buildInner _ (fun _ _ => True) from ?_).weaken fun _ fin _ => ?_
  · rw [Ensures]
    split <;> trivial
  refine ensures_call _ ?_
  have yields : Yields _ (foldedSession s fin s.program) _ :=
    yields_replaceConstants rfl hs ripe.attached ripe.regular
  rw [Yields, ensures_bind] at yields
  refine yields.mono fun _ replaced prunes => ?_
  refine prunes.mono fun _ next h => ?_
  refine ripe.primed.folded ripe.regular named (ripe.primed.cell?_of_runs ripe.regular
    (fun id => hs.mem_boundary_ids) (fun id => hs.mem_constant_ids) ?_ ?_ ?_
    (fun id hr => hs.acyclic id (.single hr)) h.1)
  · exact hs.consistent.nodup_map_idOf hs.consistent.boundaryConstants_nodup
      hs.consistent.boundaryConstants_live
  · exact hs.consistent.nodup_map_idOf hs.nodup_constantKeys fun _ => hs.constantKeys_live
  · exact hs.pairwise_constant_ids.imp fun free hr => free (.single hr)

/-- Setting up, marking nodes and any passes before the folding of constants make the program of a
topology ripe. -/
theorem ensures_forM_ripe (declares : s.program.Declares topology) (wf : s.program.Consistent)
    (bare : ∀ prim ∈ topology.primitives,
      prim.tag = .data ∨ prim.tag = .inputLayout → prim.inputs = [])
    (unreserved : ∀ prim ∈ topology.primitives, prim.inputs = [] →
      ¬ prim.id.startsWith "_const_prop_")
    {passes : List Pass} (early : ∀ pass ∈ passes, pass ∈ Pass.reshaping) :
    Ensures ((Pass.setUp :: .markNodes :: passes).forM (Pass.body folding)) s
      (fun _ next => next.program.Ripe) := by
  have marks := ensures_marked_ripe declares wf bare unreserved
  rw [ensures_bind] at marks
  rw [List.forM, ensures_bind]
  refine marks.weaken fun _ mid marks => ?_
  rw [List.forM, ensures_bind]
  refine marks.weaken fun _ next ripe => ?_
  exact ensures_forM_mem (fun st : Session => st.program.Ripe)
    (fun pass mem _ h => ensures_body_ripe h (early pass mem)) ripe

end Build

namespace Topology

/-- The programs of a topology before and after the folding of constants, when it comes after some other
passes. -/
def foldedAfter? (topology : Topology) (options : Options) (surroundings : Surroundings) (number : Nat)
    (isInternal : Bool) (passes : List Pass) : Option (Program × Program) :=
  match Program.ofTopology number topology options isInternal with
  | .error _ => none
  | .ok p =>
    match (Pass.setUp :: .markNodes :: passes).forM (Pass.body (Build.foldConstants Build.buildInternal))
      (.start surroundings p number) with
    | .error _ _ => none
    | .ok () s =>
      match Build.foldConstants Build.buildInternal s with
      | .error _ _ => none
      | .ok () next => some (s.program, next.program)

/-- **Folding constants leaves a constant buffer for every computed constant whose value is needed
elsewhere.** The buffer has the id and the layout of the node, reads nothing, and is read by the readers
of the node that are not constant, in the same slots. The other computed constants and the buffers that
only constant nodes read are gone, and nothing happens to nodes that are not constant. Sources must not
have reserved ids, and neither constant buffers nor network inputs may be declared to read something. -/
theorem folding_replaces_boundary (topology : Topology) (options : Options)
    (surroundings : Surroundings) (number : Nat) (isInternal : Bool)
    (bare : ∀ primitive ∈ topology.primitives,
      primitive.tag = .data ∨ primitive.tag = .inputLayout → primitive.inputs = [])
    (unreserved : ∀ primitive ∈ topology.primitives, primitive.inputs = [] →
      ¬ primitive.id.startsWith "_const_prop_")
    (passes : List Pass) (early : ∀ pass ∈ passes, pass ∈ Pass.reshaping) (before after : Program)
    (folds : topology.foldedAfter? options surroundings number isInternal passes =
      some (before, after)) : before.network.Folded after.network := by
  rw [foldedAfter?] at folds
  split at folds
  · cases folds
  next program accepted =>
  split at folds
  · cases folds
  next session prepared =>
  split at folds
  · cases folds
  next next finished =>
  cases folds
  have ripe := (Build.ensures_forM_ripe (Program.declares_of_ofTopology accepted)
    (Program.consistent_of_ofTopology accepted) bare unreserved early).of_ok prepared
  exact (Build.ensures_foldConstants_folded ripe).of_ok finished

/-- Weights that are computed in two steps before they are added to the image. -/
def preparedWeights : Topology where
  primitives := [
    .inputLayout "x" ⟨.bfyx, ⟨1, 4, 1, 1⟩, {}⟩,
    .data "w" ⟨.bfyx, ⟨1, 4, 1, 1⟩, {}⟩,
    { id := "a", kind := .softmax, inputs := ["w"] },
    { id := "b", kind := .softmax, inputs := ["a"] },
    { id := "y", kind := .eltwise .sum, inputs := ["x", "b"] }]

theorem folding_replaces_boundary_preparedWeights : ∃ before after,
    preparedWeights.foldedAfter? {} {} 0 false Pass.reshaping = some (before, after) ∧
      before.ids = ["x", "w", "a", "b", "y"] ∧ after.ids = ["x", "b", "y"] ∧
      before.network.Folded after.network := by
  obtain ⟨⟨before, after⟩, folds, idsBefore, idsAfter⟩ :
      ∃ pair ∈ preparedWeights.foldedAfter? {} {} 0 false Pass.reshaping,
        pair.1.ids = ["x", "w", "a", "b", "y"] ∧ pair.2.ids = ["x", "b", "y"] := by decide +kernel
  exact ⟨before, after, folds, idsBefore, idsAfter, folding_replaces_boundary preparedWeights {} {} 0
    false (by decide) (by decide) Pass.reshaping (fun _ member => member) before after folds⟩

/-- Two computed constants, one of which reads the other. Both are outputs. -/
def constantOutputs : Topology where
  primitives := [
    .data "w" ⟨.bfyx, ⟨1, 4, 1, 1⟩, {}⟩,
    { id := "a", kind := .softmax, inputs := ["w"] },
    { id := "b", kind := .softmax, inputs := ["a"] }]
  outputs := ["a", "b"]

/-- A constant buffer under the id that is reserved for the buffer of its reader. -/
def reservedBuffer : Topology where
  primitives := [
    .data "w" ⟨.bfyx, ⟨1, 4, 1, 1⟩, {}⟩,
    .data "_const_prop_a" ⟨.bfyx, ⟨1, 2, 1, 1⟩, {}⟩,
    { id := "a", kind := .concatenation, inputs := ["w", "_const_prop_a"] }]

/-- A reader that is constant itself does not stay a reader. And when the id for the buffer is taken by a
constant buffer, that buffer is used, although it has another layout. -/
theorem folded_boundary_changes :
    (∃ before after, constantOutputs.foldedAfter? {} {} 0 false [] = some (before, after) ∧
      before.network.Boundary "a" ∧ before.network.Reads "b" "a" ∧ ¬ after.network.Reads "b" "a") ∧
    ∃ before after cell buffer, reservedBuffer.foldedAfter? {} {} 0 false [] = some (before, after) ∧
      before.network.Boundary "a" ∧ before.network.cell? "a" = some cell ∧
      cell.layout = some ⟨.bfyx, ⟨1, 6, 1, 1⟩, {}⟩ ∧ after.network.cell? "a" = some buffer ∧
      buffer.kind = .data ⟨.bfyx, ⟨1, 2, 1, 1⟩, {}⟩ := by
  constructor
  · obtain ⟨⟨before, after⟩, folds, ⟨cell, looked, computed, output⟩, ⟨reader, lookedReader, reads⟩,
        unread⟩ : ∃ pair ∈ constantOutputs.foldedAfter? {} {} 0 false [],
        (∃ cell ∈ pair.1.network.cell? "a", cell.isComputedConstant ∧ cell.isOutput) ∧
        (∃ reader ∈ pair.1.network.cell? "b", "a" ∈ reader.reads) ∧
        ∀ reader ∈ pair.2.network.cell? "b", "a" ∉ reader.reads := by decide +kernel
    refine ⟨before, after, folds, ⟨⟨cell, looked, computed⟩, .inl ⟨cell, looked, output⟩⟩,
      ⟨reader, lookedReader, reads⟩, ?_⟩
    rintro ⟨last, lookedLast, reads⟩
    exact unread last lookedLast reads
  · obtain ⟨⟨before, after⟩, folds, ⟨cell, looked, computed, output, layout⟩, buffer, lookedBuffer,
        kind⟩ : ∃ pair ∈ reservedBuffer.foldedAfter? {} {} 0 false [],
        (∃ cell ∈ pair.1.network.cell? "a", cell.isComputedConstant ∧ cell.isOutput ∧
          cell.layout = some ⟨.bfyx, ⟨1, 6, 1, 1⟩, {}⟩) ∧
        ∃ buffer ∈ pair.2.network.cell? "a", buffer.kind = .data ⟨.bfyx, ⟨1, 2, 1, 1⟩, {}⟩ := by
      decide +kernel
    exact ⟨before, after, cell, buffer, folds, ⟨⟨cell, looked, computed⟩, .inl ⟨cell, looked, output⟩⟩,
      looked, layout, lookedBuffer, kind⟩

end Topology

end LayerGraph
