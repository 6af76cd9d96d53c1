import LayerGraph.Proofs.Build.Pipeline
import LayerGraph.Proofs.Meaning.Rewriting
import LayerGraph.Proofs.Program.Declaration

/-!
# Folding constants keeps the meaning

The program of the constant part is a copy, in which constant buffers have become network inputs.
Each of its nodes has the value that it has in the whole program (`IsCopy.valuation`), and building
it keeps the values of its outputs. So a constant buffer in the place of a node of the boundary holds
the value of the node, if it holds what the constant program gives out under the same id.
-/

universe u

namespace LayerGraph

open List Option

namespace Program

variable {V : Type u} {interp : Interpretation V} {constants v : String → V}
  {p q : Program} {k : NodeKey} {n : Node} {id : String}

/-! ## The program of the constant part -/

section Copy

variable {start cp : Program} {models : List NodeKey}

theorem copiedPrimitive_of_data (tag : n.tag = .data) : (copiedPrimitive n).tag = .inputLayout := by
  obtain ⟨lay, kind⟩ := Kind.eq_data_of_tag tag
  rw [copiedPrimitive, Node.kind, kind]
  rfl

theorem copiedPrimitive_of_not_data (tag : n.tag ≠ .data) : copiedPrimitive n = n.primitive := by
  rw [copiedPrimitive]
  split
  · next lay kind => exact absurd (Node.tag_of_kind kind) tag
  · rfl

theorem IsCopy.onlyFusable (isCopy : IsCopy start p models cp)
    (fusable : p.OnlyFusable) : cp.OnlyFusable := by
  intro k n hk isFused
  obtain ⟨model, -, ⟨orig, foundOrig, rfl⟩, -⟩ := isCopy.copies k n hk
  have takes := fusable model orig foundOrig isFused
  have notData : orig.tag ≠ .data := by
    intro tag
    rw [tag] at takes
    cases takes
  show (copiedPrimitive orig).tag.takesActivation
  rw [copiedPrimitive_of_not_data notData]
  exact takes

/-- Every copy has the value of its model. -/
theorem IsCopy.valuation (isCopy : IsCopy start p models cp) (fusable : p.OnlyFusable)
    (val : Valuation interp interp.environment p v) : Valuation interp interp.environment cp v := by
  intro k n hk
  obtain ⟨model, -, copies, hr⟩ := isCopy.copies k n hk
  have sameId := copies.id_eq
  obtain ⟨orig, foundOrig, rfl⟩ := copies
  rw [idOf_of_node? foundOrig] at sameId
  rw [arguments, hr, sameId, val model orig foundOrig]
  by_cases tag : orig.tag = .data
  · have unfused := fusable.fused_eq_none foundOrig (by rw [tag]; rfl)
    have copiedTag : orig.copied.tag = .inputLayout := copiedPrimitive_of_data tag
    rw [Interpretation.nodeValue_data tag unfused,
      Interpretation.nodeValue_inputLayout copiedTag unfused, sameId]
  · have prim : orig.primitive = orig.copied.primitive := (copiedPrimitive_of_not_data tag).symm
    exact Interpretation.nodeValue_congr prim rfl _

end Copy

theorem exists_node?_setOutput {o : NodeKey} (hk : p.node? o = some n) :
    ∃ copy hm, (p.setOutput k true).node? copy = some hm ∧ hm.id = n.id := by
  by_cases e : o = k
  · subst e
    refine ⟨o, { n with isOutput := true }, ?_, rfl⟩
    rw [node?_setOutput, if_pos rfl, hk]
    rfl
  · refine ⟨o, n, ?_, rfl⟩
    rw [node?_setOutput, if_neg e, hk]

/-- What is exposed becomes an output, if there is a copy of it. -/
theorem outputIds_exposeBoundary {bd : List NodeKey} {inner : Program} (wf : inner.Consistent)
    (present : ∀ k ∈ bd, ∃ copy n, inner.node? copy = some n ∧ n.id = p.idOf k) :
    ∀ k ∈ bd, p.idOf k ∈ (p.exposeBoundary bd inner).outputIds := by
  induction bd generalizing inner with
  | nil => exact nofun
  | cons k rest ih =>
    obtain ⟨copy, n, hk, sameId⟩ := present k mem_cons_self
    have named : inner.keyOf? (p.idOf k) = some copy := wf.keyOf?_eq_some.mpr ⟨n, hk, sameId⟩
    have hm := wf.setOutput copy true
    rw [exposeBoundary, foldl_cons, named, ← exposeBoundary]
    intro o mem
    rcases mem_cons.mp mem with rfl | later
    · obtain ⟨kept, prep⟩ := p.prepares_exposeBoundary rest hm
      refine (prep.keepsOutputIds kept).subset (hm.hasOutput_iff.mp ?_)
      refine ⟨copy, { n with isOutput := true }, ?_, rfl, sameId⟩
      rw [node?_setOutput, if_pos rfl, hk]
      rfl
    · refine ih hm (fun m hl => ?_) o later
      obtain ⟨place, there, foundThere, id⟩ := present m (mem_cons_of_mem _ hl)
      rw [← id]
      exact exists_node?_setOutput foundThere

theorem Consistent.boundaryConstants_subset (wf : p.Consistent) :
    p.boundaryConstants ⊆ p.selectedConstants := by
  intro k mem
  have hc := mem_of_mem_filter mem
  obtain ⟨n, hk⟩ := contains_iff.mp (wf.boundaryConstants_live k mem)
  refine mem_matching.mpr ⟨mem_of_mem_filter hc, n, hk, ?_⟩
  rw [contains_iff_mem.mpr hc, Bool.true_or]

section GivenOut

variable (hs : p.Sound) {num : Nat} {cp ready fin : Program}
  (res : ofNodes num p p.selectedConstants p.options.forConstants = .ok cp)
  (soundReady : ready.Sound)
  (prep : Prepares (p.exposeBoundary p.boundaryConstants cp) ready)
  (rewrites : Rewrites ready fin)

include hs res soundReady prep rewrites

/-- The finished program of the constant part gives out the boundary. -/
theorem Sound.hasOutput_of_boundary : ∀ k ∈ p.boundaryConstants, fin.HasOutput (p.idOf k) := by
  intro k mem
  have isCopy := isCopy_ofNodes hs.consistent hs.consistent.selectedConstants_nodup res
  have exposed : p.idOf k ∈ (p.exposeBoundary p.boundaryConstants cp).outputIds := by
    refine outputIds_exposeBoundary isCopy.consistent (fun o hl => ?_) k mem
    obtain ⟨copy, n, hk, copies⟩ := isCopy.present o (hs.consistent.boundaryConstants_subset hl)
    exact ⟨copy, n, hk, copies.id_eq⟩
  rw [(rewrites.sound soundReady).consistent.hasOutput_iff]
  exact (rewrites.keepsOutputs soundReady).first.subset
    ((prep.keepsOutputIds soundReady.consistent).subset exposed)

/-- **The finished program of the constant part gives out the values of its nodes.** -/
theorem Sound.constants_givenOut (fusable : p.OnlyFusable)
    (val : Valuation interp interp.environment p v) : ∀ k n, fin.node? k = some n → n.isOutput →
      Denotes interp interp.environment fin k (v n.id) := by
  have isCopy := isCopy_ofNodes hs.consistent hs.consistent.selectedConstants_nodup res
  obtain ⟨exposed, exposes⟩ := p.prepares_exposeBoundary p.boundaryConstants isCopy.consistent
  have retains := (exposes.trans prep).retains soundReady.consistent
  have fusableReady := retains.onlyFusable (isCopy.onlyFusable fusable)
  obtain ⟨after, valued, kept⟩ := rewrites.valuation soundReady fusableReady
    (retains.valuation (isCopy.valuation fusable val) nofun)
  have plain : ready.options.debug = false := by
    rw [(exposes.trans prep).options, isCopy.rest]
    rfl
  intro k n hk hm
  have soundAfter := rewrites.sound soundReady
  have h := soundAfter.consistent.hasOutput_iff.mp ⟨k, n, hk, hm, rfl⟩
  rw [(rewrites.keepsOutputs soundReady).alone plain, ← soundReady.consistent.hasOutput_iff] at h
  rw [← (kept n.id h).2]
  exact valued.denotes soundAfter hk

end GivenOut

/-! ## Reserved ids -/

/-- The ids under which constant buffers are registered before they replace a node. -/
def Reserved (id : String) : Prop := id.startsWith "_const_prop_"

theorem reserved_foldedId (id : String) : Reserved (foldedId id) := by
  rw [Reserved, String.startsWith_string_iff, foldedId, String.toList_append]
  exact prefix_append _ _

/-- The parts of a split have no reserved ids, if the split has none. -/
theorem not_reserved_splitPartId {split : String} (part : String) (h : ¬ Reserved split) :
    ¬ Reserved (splitPartId split part) := by
  intro reserved
  refine h ?_
  rw [Reserved, String.startsWith_string_iff] at reserved ⊢
  have parts : (splitPartId split part).toList = split.toList ++ ':' :: part.toList := by
    rw [splitPartId, String.toList_append, String.toList_append, append_assoc]
    rfl
  rw [parts] at reserved
  rcases prefix_or_prefix_of_prefix reserved (prefix_append split.toList _) with
    inSplit | ⟨rest, whole⟩
  · exact inSplit
  · rw [← whole, prefix_append_right_inj] at reserved
    cases rest with
    | nil =>
      rw [append_nil] at whole
      exact whole ▸ prefix_rfl
    | cons a others =>
      obtain ⟨rfl, -⟩ := cons_prefix_cons.mp reserved
      have colon : ':' ∈ "_const_prop_".toList := by simp [← whole]
      exact absurd colon (by decide)

/-- Parts of split layers are reserved only if the layers are. -/
theorem Declares.unreserved {topology : Topology} (declares : p.Declares topology)
    (unreserved : ∀ prim ∈ topology.primitives, ¬ Reserved prim.id) {k : NodeKey} {n : Node}
    (hk : p.node? k = some n) : ¬ Reserved n.id :=
  declares.primitives (¬ Reserved ·.id) unreserved
    (fun _ _ part _ _ h e _ => e ▸ not_reserved_splitPartId part h) hk

/-- Every node with a reserved id reads something, and is no network input. -/
def Attached (program : Program) : Prop :=
  ∀ key node, program.node? key = some node → Reserved node.id →
    node.tag ≠ .inputLayout ∧ program.dependencies key ≠ []

theorem Attached.step (ht : p.Attached) (keeps : KeepsSources p q) : q.Attached := by
  intro k n hk reserved
  rcases keeps.nodes k n hk with ⟨orig, foundOrig, prim, -, loses⟩ | ⟨-, fed, fmt, kind⟩
  · obtain ⟨tag, fed⟩ := ht k orig foundOrig (by rwa [Node.id, prim])
    rw [Node.tag, prim] at tag
    exact ⟨tag, fun none => (loses none).elim fed tag⟩
  · rw [Node.tag_of_kind kind]
    exact ⟨KindTag.noConfusion, fed⟩

/-- Setting up a program without reserved ids leaves it without any. -/
theorem Prepares.attached (prep : Prepares p q)
    (unreserved : ∀ k n, p.node? k = some n → ¬ Reserved n.id) : q.Attached :=
  Attached.step (fun k n hk reserved => absurd reserved (unreserved k n hk)) prep.keepsSources

theorem Rewrites.attached (steps : Rewrites p q) (hs : p.Sound) (ht : p.Attached) : q.Attached :=
  steps.of_sources hs (fun keeps h => h.step keeps) ht

/-! ## Constant buffers in the place of nodes -/

namespace FoldsNode

variable {new o : NodeKey} {m : Node} {lay : Layout}
  (folds : FoldsNode p q k new n lay)

include folds

/-- A node of the program is at another place than the buffer. -/
theorem ne_new (hk : p.node? o = some m) : o ≠ new := by
  rintro rfl
  rw [folds.vacant] at hk
  cases hk

theorem node?_kept (hk : p.node? o = some m) (ne : o ≠ k) : q.node? o = some m := by
  rw [folds.nodes, if_neg ne, if_neg (folds.ne_new hk), hk]

theorem node?_new : q.node? new =
      some ((Node.ofPrimitive (.data (foldedId n.id) lay)).inPlaceOf n) := by
  rw [folds.nodes, if_neg (Ne.symm (folds.ne_new folds.found)), if_pos rfl]

/-- A node is the buffer, or it was there before. -/
theorem node?_cases (hk : q.node? o = some m) :
    o = new ∧ m = (Node.ofPrimitive (.data (foldedId n.id) lay)).inPlaceOf n ∨
      o ≠ k ∧ o ≠ new ∧ p.node? o = some m := by
  rw [folds.nodes] at hk
  split at hk
  · cases hk
  · next notKey =>
    split at hk
    · next isNew => exact .inl ⟨isNew, (some.inj hk).symm⟩
    · next notNew => exact .inr ⟨notKey, notNew, hk⟩

/-- What takes the place of a node has its id. -/
theorem idOf_redirected (hv : p.contains o) : q.idOf (redirected k new o) = p.idOf o := by
  obtain ⟨m, hk⟩ := contains_iff.mp hv
  rw [redirected]
  split
  · next isKey =>
    rw [isKey, idOf_of_node? folds.node?_new, idOf_of_node? folds.found]
    rfl
  · next notKey => rw [idOf_of_node? (folds.node?_kept hk notKey), idOf_of_node? hk]

theorem retains (wf : p.Consistent) : Retains (· = n.id) p q where
  nodes o m hk := by
    rcases folds.node?_cases hk with ⟨-, rfl⟩ | ⟨notKey, notNew, hb⟩
    · exact ⟨k, n, folds.found, rfl, .inr ⟨rfl, rfl, rfl⟩⟩
    · refine ⟨o, m, hb, rfl, .inl ⟨rfl, rfl, ?_⟩⟩
      rw [folds.dependencies, if_neg (not_or.mpr ⟨notKey, notNew⟩), List.map_map]
      exact map_congr_left fun dep hr =>
        folds.idOf_redirected (wf.reads_live o dep hr).1

end FoldsNode

/-- A node is an output, or is read by a node that is not constant. -/
def Needed (program : Program) (key : NodeKey) : Prop :=
  (∃ node, program.node? key = some node ∧ node.isOutput) ∨ ∃ reader node, program.node? reader = some
    node ∧ node.isConstant = false ∧ key ∈ program.dependencies reader

/-- Every node with a reserved id reads something or is needed. -/
def Anchored (program : Program) : Prop :=
  ∀ key node, program.node? key = some node → Reserved node.id →
    program.dependencies key ≠ [] ∨ program.Needed key

theorem Attached.anchored (ht : p.Attached) : p.Anchored :=
  fun k n hk reserved => .inl (ht k n hk reserved).2

/-- No node that is kept has the id under which the buffer for a constant node is registered. -/
theorem Anchored.not_takenByDetached (anchored : p.Anchored)
    (hk : p.node? k = some n) (con : n.isConstant) : ¬ p.TakenByDetached k := by
  rintro ⟨e, o, taken, foundSame, foundTaken, sameId, unmarked, empty, only⟩
  cases hk.symm.trans foundSame
  have reserved : Reserved taken.id := sameId ▸ reserved_foldedId n.id
  rcases anchored o taken foundTaken reserved with nonempty | ⟨hm, foundMarked, isOutput⟩ |
    ⟨r, m, foundReader, notConstant, hr⟩
  · exact nonempty empty
  · cases foundTaken.symm.trans foundMarked
    rw [unmarked] at isOutput
    cases isOutput
  · cases only r hr
    cases hk.symm.trans foundReader
    rw [con] at notConstant
    cases notConstant

namespace FoldsNode

variable {new o : NodeKey} {lay : Layout}
  (folds : FoldsNode p q k new n lay)

include folds

/-- What takes the place of a node that is needed is needed. -/
theorem needed (con : n.isConstant) (needed : p.Needed o) : q.Needed (redirected k new o) := by
  rcases needed with ⟨m, hk, hm⟩ | ⟨r, m, hk, notConstant, hr⟩
  · refine .inl ?_
    rw [redirected]
    split
    · next isKey =>
      rw [isKey, folds.found] at hk
      cases hk
      exact ⟨_, folds.node?_new, hm⟩
    · next notKey => exact ⟨m, folds.node?_kept hk notKey, hm⟩
  · have notKey : r ≠ k := by
      rintro rfl
      cases hk.symm.trans folds.found
      rw [con] at notConstant
      cases notConstant
    refine .inr ⟨r, m, folds.node?_kept hk notKey, notConstant, ?_⟩
    rw [folds.dependencies, if_neg (not_or.mpr ⟨notKey, folds.ne_new hk⟩)]
    exact List.mem_map_of_mem hr

theorem needed_other (con : n.isConstant) (ne : o ≠ k) (needed : p.Needed o) : q.Needed o := by
  have moved := folds.needed con needed
  rwa [redirected, if_neg ne] at moved

theorem anchored (con : n.isConstant) (needed : p.Needed k) (anchored : p.Anchored) :
    q.Anchored := by
  intro o m hk reserved
  rcases folds.node?_cases hk with ⟨rfl, -⟩ | ⟨notKey, notNew, hb⟩
  · have moved := folds.needed con needed
    rw [redirected, if_pos rfl] at moved
    exact .inr moved
  · rcases anchored o m hb reserved with nonempty | isNeeded
    · refine .inl fun empty => nonempty ?_
      rwa [folds.dependencies, if_neg (not_or.mpr ⟨notKey, notNew⟩), map_eq_nil_iff] at empty
    · exact .inr (folds.needed_other con notKey isNeeded)

end FoldsNode

/-! ## Replacing the boundary -/

theorem Consistent.boundaryConstants_needed (wf : p.Consistent) (mem : k ∈ p.boundaryConstants) :
    p.Needed k ∧ ∃ n, p.node? k = some n ∧ n.isConstant ∧ n.tag ≠ .data := by
  obtain ⟨hc, n, hk, bd⟩ := mem_matching.mp mem
  obtain ⟨-, e, foundSame, con⟩ := mem_matching.mp hc
  cases hk.symm.trans foundSame
  rw [Node.isComputedConstant, Bool.and_eq_true, bne_iff_ne] at con
  refine ⟨?_, n, hk, con⟩
  rw [isBoundary, Bool.or_eq_true, List.any_eq_true] at bd
  rcases bd with hm | ⟨r, isUser, notConstant⟩
  · exact .inl ⟨n, hk, hm⟩
  · have hr := mem_users_iff.mp isUser
    obtain ⟨m, foundReader⟩ := contains_iff.mp (wf.reads_live r k hr).2
    rw [foundReader, any_some, Bool.not_eq_true'] at notConstant
    exact .inr ⟨r, m, foundReader, notConstant, hr⟩

/-- The boundary is being replaced. What is still to be replaced is a computed constant and needed. -/
structure Replacing (made : String → Prop) (program : Program) (rest : List NodeKey)
    (state : Program) : Prop where
  sound : state.Sound
  retains : Retains made program state
  anchored : state.Anchored
  nodup : rest.Nodup
  pending : ∀ key ∈ rest, state.Needed key ∧ ∃ node, state.node? key = some node ∧
    (node.isConstant ∧ node.tag ≠ .data) ∧ made node.id

section Boundary

variable {made : String → Prop} {st : Program} {rest : List NodeKey}

theorem Replacing.of_foldsNode {next : Program} {new : NodeKey} {lay : Layout}
    (replacing : Replacing made p (k :: rest) st) (soundNext : next.Sound)
    (folds : FoldsNode st next k new n lay) : Replacing made p rest next := by
  obtain ⟨ha, nd⟩ := nodup_cons.mp replacing.nodup
  obtain ⟨needed, e, foundSame, ⟨con, -⟩, isMade⟩ := replacing.pending k mem_cons_self
  cases foundSame.symm.trans folds.found
  refine ⟨soundNext, replacing.retains.trans ((folds.retains replacing.sound.consistent).mono ?_),
    folds.anchored con needed replacing.anchored, nd, fun o mem => ?_⟩
  · rintro _ rfl
    exact isMade
  · obtain ⟨neededOther, m, hk, constantOther, madeOther⟩ := replacing.pending o (mem_cons_of_mem _ mem)
    have ne : o ≠ k := fun isKey => ha (isKey ▸ mem)
    exact ⟨folds.needed_other con ne neededOther, m,
      folds.node?_kept hk ne, constantOther, madeOther⟩

/-- The next node of the boundary is replaced by a constant buffer, unless its layout is not known. -/
theorem Replacing.ensures_replaceByData (replacing : Replacing made p (k :: rest) st)
    (hk : st.node? k = some n) :
    Ensures (Edit.replaceByData k) st (fun _ next => Replacing made p rest next ∧
      (next = st ∨ next.options = st.options ∧ ∃ new lay, FoldsNode st next k new n lay))
      Fault.SparesProgram := by
  obtain ⟨-, e, foundSame, ⟨con, -⟩, -⟩ := replacing.pending k mem_cons_self
  cases foundSame.symm.trans hk
  refine (Program.ensures_replaceByData replacing.sound (contains_of_node? hk)).weaken ?_
  rintro _ next ⟨soundNext, settings, -, rfl | ⟨new, e, lay, folds⟩ | taken⟩
  · exact ⟨{ replacing with
      nodup := (nodup_cons.mp replacing.nodup).2
      pending := fun o mem => replacing.pending o (mem_cons_of_mem _ mem) }, .inl rfl⟩
  · cases hk.symm.trans folds.found
    exact ⟨replacing.of_foldsNode soundNext folds,
      .inr ⟨options_of_settings settings, new, lay, folds⟩⟩
  · exact absurd taken (replacing.anchored.not_takenByDetached hk con)

theorem Replacing.start (hs : p.Sound) (ht : p.Attached)
    (covers : ∀ k ∈ p.boundaryConstants, made (p.idOf k)) :
    Replacing made p p.boundaryConstants p := by
  refine ⟨hs, .refl p, ht.anchored, hs.consistent.boundaryConstants_nodup, fun k mem => ?_⟩
  obtain ⟨needed, n, hk, con⟩ := hs.consistent.boundaryConstants_needed mem
  exact ⟨needed, n, hk, con, idOf_of_node? hk ▸ covers k mem⟩

/-- **Replacing the boundary leaves every node with what it computes,** apart from the buffers, and
keeps what replacing one node keeps. -/
theorem ensures_replaceBoundary (made : String → Prop) (holds : Program → Prop) (hs : p.Sound)
    (ht : p.Attached) (covers : ∀ k ∈ p.boundaryConstants, made (p.idOf k)) (start : holds p)
    (round : ∀ k new n lay st next, Sound st → n.tag ≠ .data → holds st → next.options = st.options →
      FoldsNode st next k new n lay → holds next) :
    Ensures (p.boundaryConstants.forM Edit.replaceByData) p
      (fun _ q => q.Sound ∧ Retains made p q ∧ holds q) Fault.SparesProgram := by
  refine (ensures_forM (fun rest st => Replacing made p rest st ∧ holds st) ?_
    ⟨Replacing.start hs ht covers, start⟩).weaken fun _ _ h => ⟨h.1.sound, h.1.retains, h.2⟩
  rintro k rest st ⟨replacing, pre⟩
  obtain ⟨-, n, hk, ⟨-, tag⟩, -⟩ := replacing.pending k mem_cons_self
  refine (replacing.ensures_replaceByData hk).weaken ?_
  rintro _ next ⟨after, rfl | ⟨options, new, lay, folds⟩⟩
  · exact ⟨after, pre⟩
  · exact ⟨after, round k new n lay st next replacing.sound tag pre options folds⟩

end Boundary

end Program

end LayerGraph
