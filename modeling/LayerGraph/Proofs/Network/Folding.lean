import LayerGraph.Proofs.Network.ConstantPart
import LayerGraph.Proofs.Network.Derivation
import LayerGraph.Proofs.Network.Removal

/-!
# Folding constants in networks

When constants are folded, a constant buffer takes the place of every node of the boundary whose layout
is known (`Network.fold`). After that the nodes of the constant part that nobody reads any more are
removed, readers first (`Network.prune`). Both can be told from the network.

Keys of nodes that are removed are used again, so a key of the old constant part may name a buffer when
the constant part is removed. The buffer is not removed under its new key: it is an output or is read by
a node that is not constant, and such nodes stay (`Network.Kept`).
-/

namespace LayerGraph

open List Option Network

/-- A constant buffer in the place of a cell. -/
def Cell.folded (cell : Cell) (layout : Layout) : Cell :=
  { (Node.ofPrimitive (.data (foldedId cell.id) layout)).inPlaceOf cell.toNode with
    reads := [], listed := cell.listed }

namespace Network

variable {net next : Network} {id a b : String}

/-- The constant buffer for a node, if its layout is known; there is no answer when the id for the
buffer is taken. -/
def buffer? (id : String) (net : Network) : Option (Option Cell) :=
  (net.cell? id).bind fun cell =>
    match cell.layout with
    | none => some none
    | some lay =>
      if (net.cell? (foldedId id)).isSome then none else some (some (cell.folded lay))

/-- Puts a cell, if there is one, in the place of an id. -/
def replace (id : String) (cell : Option Cell) (net : Network) : Option Network :=
  some (if cell.isSome then net.put id cell else net)

/-- Puts a constant buffer in the place of a node, if its layout is known. -/
def fold (id : String) (net : Network) : Option Network :=
  (net.buffer? id).bind fun buffer => net.replace id buffer

theorem fold_of_cell? {c : Cell} (hc : net.cell? id = some c) :
    fold id net = match c.layout with
      | none => some net
      | some lay =>
        if (net.cell? (foldedId id)).isSome then none
        else some (net.put id (some (c.folded lay))) := by
  rw [fold, buffer?, hc, bind_some]
  cases c.layout with
  | none => rfl
  | some lay =>
    dsimp only
    split
    · rfl
    · rfl

theorem fold_cases (folded : fold id net = some next) : next = net ∨
    ∃ c lay, net.cell? id = some c ∧ next = net.put id (some (c.folded lay)) := by
  obtain ⟨asked, answered, replaced⟩ := bind_eq_some_iff.mp folded
  obtain ⟨c, hc, -⟩ := bind_eq_some_iff.mp answered
  rw [fold_of_cell? hc] at folded
  cases kn : c.layout with
  | none =>
    rw [kn] at folded
    exact .inl (some.inj folded).symm
  | some lay =>
    rw [kn] at folded
    obtain ⟨-, e⟩ := ite_none_left_eq_some.mp folded
    exact .inr ⟨c, lay, hc, (some.inj e).symm⟩

/-- Buffers read nothing. -/
theorem reads_of_fold (folded : fold id net = some next) {r src : String}
    (hr : next.Reads r src) : net.Reads r src := by
  rcases fold_cases folded with rfl | ⟨model, lay, -, rfl⟩
  · exact hr
  · obtain ⟨c, hc, isRead⟩ := hr
    rw [cell?_put] at hc
    split at hc
    · cases hc
      cases isRead
    · exact ⟨c, hc, isRead⟩

variable {c asked : Option Cell} {o : String}

/-- What is kept is kept when a constant node is folded. -/
theorem Kept.fold (kept : net.Kept id) (con : ∀ c, net.cell? o = some c → c.isConstant) (folded :
    fold o net = some next) : next.Kept id := by
  rcases fold_cases folded with rfl | ⟨model, lay, lookedModel, rfl⟩
  · exact kept
  rcases kept with ⟨c, hc, output⟩ | ⟨r, c, hc, hr, varies⟩
  · left
    by_cases e : id = o
    · rw [e, lookedModel] at hc
      cases hc
      exact ⟨_, if_pos e, output⟩
    · exact ⟨c, by rw [cell?_put, if_neg e, hc], output⟩
  · right
    have ne : r ≠ o := fun e => by
      rw [con c (e ▸ hc)] at varies
      cases varies
    exact ⟨r, c, by rw [cell?_put, if_neg ne, hc], hr, varies⟩

/-- What is kept is not removed. -/
theorem Kept.not_prunable (kept : net.Kept id) : ¬ net.Prunable id := by
  rintro ⟨⟨c, hc, unmarked⟩, unread⟩
  rcases kept with ⟨e, lookedSame, output⟩ | ⟨r, o, lookedReader, hr, -⟩
  · cases hc.symm.trans lookedSame
    rw [unmarked] at output
    cases output
  · exact unread r ⟨o, lookedReader, hr⟩

/-- What is kept is kept when a constant node that nobody reads is removed. -/
theorem Kept.prune (kept : net.Kept id) (con : ∀ c, net.cell? o = some c → c.isConstant) (pruned :
    prune o net = some next) : next.Kept id := by
  rw [← some.inj pruned]
  split
  case isFalse => exact kept
  next prunable =>
  have ne : id ≠ o := fun e => kept.not_prunable (e ▸ prunable)
  rcases kept with ⟨c, hc, output⟩ | ⟨r, c, hc, hr, varies⟩
  · left
    rw [cell?_strike_of_ne ne, hc]
    exact ⟨_, rfl, output⟩
  · right
    have apart : r ≠ o := fun e => by
      rw [con c (e ▸ hc)] at varies
      cases varies
    refine ⟨r, c.withReads (·.filter (· != o)), ?_, ?_, varies⟩
    · rw [cell?_strike_of_ne apart, hc, map_some]
    · exact mem_filter.mpr ⟨hr, bne_iff_ne.mpr ne⟩

theorem cell?_replace_of_ne (replaced : net.replace id c = some next) (ne : o ≠ id) : next.cell? o =
    net.cell? o := by
  cases replaced
  split
  · rw [cell?_put, if_neg ne]
  · rfl

theorem isSome_replace (there : (net.cell? id).isSome) (replaced : net.replace id c = some next) (o :
    String) : (next.cell? o).isSome = (net.cell? o).isSome := by
  by_cases e : o = id
  · cases replaced
    split
    · next given => rw [cell?_put, if_pos e, given, e, there]
    · rfl
  · rw [cell?_replace_of_ne replaced e]

theorem isSome_of_buffer? (answered : buffer? id net = some asked) : (net.cell? id).isSome := by
  obtain ⟨c, hc, -⟩ := bind_eq_some_iff.mp answered
  rw [hc, isSome_some]

/-- What is to be put in the place of a node does not depend on what was put in the place of another
one. -/
theorem buffer?_replace (ne : a ≠ b) (answered : buffer? a net = some asked) (replaced : replace a asked
    net = some next) : buffer? b next = buffer? b net := by
  rw [buffer?, buffer?, cell?_replace_of_ne replaced ne.symm,
    isSome_replace (isSome_of_buffer? answered) replaced]

theorem replace_comm (ne : a ≠ b) (one m : Option Cell) : (replace a one net).bind (replace b m) =
      (replace b m net).bind (replace a one) := by
  cases one with
  | none => rfl
  | some c =>
    cases m with
    | none => rfl
    | some o => exact congrArg some (put_comm net ne (some c) (some o))

theorem fold_comm (ne : a ≠ b) : (fold a net).bind (fold b) = (fold b net).bind (fold a) :=
  exchange_of_requests (fun _ _ answered replaced => buffer?_replace ne answered replaced)
    (fun _ _ answered replaced => buffer?_replace ne.symm answered replaced)
    fun one m _ _ => replace_comm ne one m

/-- Folding the same nodes in any order ends alike. -/
theorem run_fold_eq {ids others : List String} (perm : ids.Perm others) (net : Network) :
    run fold ids net = run fold others net :=
  run_eq_of_exchanges (fun _ _ _ _ _ => trivial) (fun _ _ _ _ _ _ ne => fold_comm ne) perm trivial

end Network

namespace Program

variable {p q : Program} {key new : NodeKey} {node : Node} {lay : Layout}

/-! ## Constant buffers in the place of nodes -/

theorem count_map_redirected {o : NodeKey} {ks : List NodeKey} (ha : new ∉ ks) (ne : o ≠ new) :
    (ks.map (redirected key new)).count (redirected key new o) = ks.count o := by
  induction ks with
  | nil => rfl
  | cons head tail ih =>
    rw [mem_cons, not_or] at ha
    obtain ⟨notHead, notTail⟩ := ha
    have e : redirected key new head = redirected key new o ↔ head = o := by
      rw [redirected, redirected]
      grind
    rw [map_cons, count_cons, count_cons, ih notTail]
    simp only [beq_iff_eq, e]

/-- The key of the buffer named nothing before. -/
theorem FoldsNode.dead_new (folds : FoldsNode p q key new node lay) :
    ¬ p.contains new := fun hv => by
  obtain ⟨m, hf⟩ := contains_iff.mp hv
  exact folds.ne_new hf rfl

section Folds

variable (folds : FoldsNode p q key new node lay) (wf : p.Consistent)
  (opts : q.options = p.options)
  (inputs : q.inputs = p.inputs.map (redirected key new))
include folds wf opts inputs

theorem FoldsNode.cellAt_new :
    q.cellAt new ((Node.ofPrimitive (.data (foldedId node.id) lay)).inPlaceOf node) =
      (p.cellAt key node).folded lay := by
  have unlisted : new ∉ p.inputs := fun hl =>
    folds.dead_new (wf.inputs_live new hl)
  have ne : key ≠ new := folds.ne_new folds.found
  have hl : q.inputs.count new = p.inputs.count key := by
    rw [inputs, ← count_map_redirected unlisted ne, redirected, if_pos rfl]
  have hr : q.dependencies new = [] := by rw [folds.dependencies, if_pos (.inr rfl)]
  rw [cellAt, cellAt, hl, hr, Program.shown, opts]
  split
  · rfl
  · rfl

theorem FoldsNode.cellAt_kept {o : NodeKey} (m : Node) (hv : p.contains o)
    (ne : o ≠ key) : q.cellAt o m = p.cellAt o m := by
  have notNew : o ≠ new := fun e => folds.dead_new (e ▸ hv)
  have unlisted : new ∉ p.inputs := fun hl =>
    folds.dead_new (wf.inputs_live new hl)
  have hl : q.inputs.count o = p.inputs.count o := by
    rw [inputs, ← count_map_redirected unlisted notNew, redirected, if_neg ne]
  have hr : (q.dependencies o).map q.idOf = (p.dependencies o).map p.idOf := by
    rw [folds.dependencies, if_neg (not_or.mpr ⟨ne, notNew⟩), List.map_map]
    exact map_congr_left fun dep isRead =>
      folds.idOf_redirected (wf.reads_live o dep isRead).1
  rw [cellAt, cellAt, hl, hr, Program.shown, opts, Program.shown]

/-- **On the network, a constant buffer is put in the place of the node.** -/
theorem FoldsNode.network (after : q.Consistent) (optimizedOut : q.optimizedOut = p.optimizedOut) :
    q.network = p.network.put node.id (some ((p.cellAt key node).folded lay)) := by
  have made := folds.cellAt_new wf opts inputs
  have madeId : ((p.cellAt key node).folded lay).id = node.id := rfl
  apply after.network_eq
  · intro id
    rw [optimizedOut]
    rfl
  · intro o c face
    obtain ⟨m, hf, rfl⟩ := exists_of_face? face
    rw [id_cellAt, cell?_put]
    rcases folds.node?_cases hf with ⟨rfl, rfl⟩ | ⟨notKey, notNew, hb⟩
    · rw [made]
      exact if_pos rfl
    · rw [if_neg fun e => notKey (wf.key_eq_of_id_eq hb folds.found e),
        folds.cellAt_kept wf opts inputs m (contains_of_node? hb) notKey]
      exact wf.cell?_of_node? hb
  · intro id c hc
    rw [cell?_put] at hc
    split at hc
    · next isFolded =>
      cases hc
      refine ⟨new, ?_, madeId.trans isFolded.symm⟩
      rw [face?_of_node? folds.node?_new, made]
    · next isOther =>
      obtain ⟨o, m, hf, rfl, rfl⟩ := wf.exists_node_of_cell? hc
      have notKey : o ≠ key := fun e => isOther (by
        rw [e] at hf
        cases hf.symm.trans folds.found
        rfl)
      refine ⟨o, ?_, rfl⟩
      rw [face?_of_node? (folds.node?_kept hf notKey),
        folds.cellAt_kept wf opts inputs m (contains_of_node? hf) notKey]

end Folds

/-! ## Replacing the boundary -/

theorem FoldsNode.staysBut (folds : FoldsNode p q key new node lay) : p.StaysBut key q := by
  intro o ne hv
  obtain ⟨m, hf⟩ := contains_iff.mp hv
  exact stays_of_node? hf (folds.node?_kept hf ne) rfl

/-- **A node is folded as in the network,** when no other node stands alone under the id for its
buffer. -/
theorem ensures_replaceByData_fold (sound : p.Sound) (hf : p.node? key = some node)
    (free : ¬ p.TakenByDetached key) :
    Ensures (Edit.replaceByData key) p (fun _ next => p.StaysBut key next ∧
        fold node.id p.network = some next.network)
      fun _ => fold node.id p.network = none := by
  have wf := sound.consistent
  have folded := fold_of_cell? (wf.cell?_of_node? hf)
  have kn : (p.cellAt key node).layout = node.layout := rfl
  rw [kn] at folded
  refine (ensures_replaceByData_refills sound hf).mono ?_ ?_
  · rintro _ next ⟨after, ⟨unknown, rfl⟩ | ⟨new, rep, lay, refills⟩⟩
    · rw [unknown] at folded
      exact ⟨staysBut_refl _ key, folded⟩
    have fr : p.keyOf? (foldedId node.id) = none := by
      by_contra taken
      obtain ⟨taken, named⟩ := ne_none_iff_exists'.mp taken
      exact free (refills.takenByDetached wf named)
    have folds := refills.foldsNode fr
    have unused : p.network.cell? (foldedId node.id) = none := cell?_of_unused fr
    rw [refills.known, unused] at folded
    refine ⟨folds.staysBut, ?_⟩
    rw [folds.network wf (options_of_settings refills.settings) refills.inputs after.consistent
      refills.optimizedOut]
    exact folded
  · rintro fault ⟨-, lay, taken, kn, named⟩
    obtain ⟨holder, foundHolder, sameId⟩ := wf.keyOf?_eq_some.mp named
    have isTaken := wf.cell?_of_node? foundHolder
    rw [sameId] at isTaken
    rw [kn, isTaken] at folded
    exact folded

/-- How a program and its boundary look after the boundary has been replaced. A key of the boundary may
name the buffer of another node. -/
structure Replaced (program state : Program) : Prop where
  sound : state.Sound
  options : state.options = program.options
  kept : ∀ key node, program.node? key = some node →
    state.node? key = some node ∨ key ∈ program.boundaryConstants
  origin : ∀ key node, state.node? key = some node → program.node? key = some node ∨
    ∃ other ∈ program.boundaryConstants, node.id = program.idOf other
  needed : ∀ key ∈ program.boundaryConstants, state.network.Kept (program.idOf key)

/-- The boundary is being replaced. -/
structure IsReplacing (program : Program) (rest : List NodeKey) (state : Program) : Prop where
  replaced : Replaced program state
  replacing : Replacing (fun _ => True) program rest state
  listed : rest ⊆ program.boundaryConstants
  ids : ∀ key ∈ rest, state.idOf key = program.idOf key

variable {state : Program}

theorem Replaced.of_foldsNode {next : Program} (replaced : Replaced p state) (mem : key ∈
    p.boundaryConstants) (sameId : state.idOf key = p.idOf key) (after : next.Sound) (opts : next.options
    = state.options) (folds : FoldsNode state next key new node lay) (needed : ∀ id,
    state.network.Kept id → next.network.Kept id) : Replaced p next where
  sound := after
  options := opts.trans replaced.options
  kept o m hf := by
    rcases replaced.kept o m hf with e | hl
    · by_cases isKey : o = key
      · exact .inr (isKey ▸ mem)
      · exact .inl (folds.node?_kept e isKey)
    · exact .inr hl
  origin o m hf := by
    rcases folds.node?_cases hf with ⟨-, rfl⟩ | ⟨-, -, pre⟩
    · refine .inr ⟨key, mem, ?_⟩
      rw [← sameId, idOf_of_node? folds.found]
      rfl
    · exact replaced.origin o m pre
  needed o hl := needed _ (replaced.needed o hl)

theorem IsReplacing.ensures_replaceByData {rest : List NodeKey} (isReplacing : IsReplacing p (key ::
    rest) state) (hf : state.node? key = some node) : Ensures (Edit.replaceByData key) state (fun _
    next => (IsReplacing p rest next ∧ state.StaysBut key next) ∧ fold node.id state.network =
    some next.network) fun _ => fold node.id state.network = none := by
  have replacing := isReplacing.replacing
  have sound := replacing.sound
  obtain ⟨ha, -⟩ := nodup_cons.mp replacing.nodup
  obtain ⟨-, e, foundSame, ⟨con, -⟩, -⟩ := replacing.pending key mem_cons_self
  cases foundSame.symm.trans hf
  have free := replacing.anchored.not_takenByDetached hf con
  refine ((ensures_replaceByData_fold sound hf free).and
    (replacing.ensures_replaceByData hf)).weaken ?_
  rintro _ next ⟨⟨stays, folded⟩, replacingNext, outcome⟩
  have keeps : ∀ id, state.network.Kept id → next.network.Kept id := by
    intro id kept
    refine kept.fold (fun c hc => ?_) folded
    rw [sound.consistent.cell?_of_node? hf] at hc
    cases hc
    exact con
  have mem := isReplacing.listed mem_cons_self
  refine ⟨⟨⟨?_, replacingNext, fun o later =>
    isReplacing.listed (mem_cons_of_mem _ later), fun o later => ?_⟩, stays⟩, folded⟩
  · rcases outcome with rfl | ⟨options, new, lay, folds⟩
    · exact isReplacing.replaced
    · exact isReplacing.replaced.of_foldsNode mem
        (isReplacing.ids key mem_cons_self) replacingNext.sound options folds keeps
  · have ne : o ≠ key := fun e => ha (e ▸ later)
    obtain ⟨-, st, ho, -⟩ := replacing.pending o (mem_cons_of_mem _ later)
    rw [(stays o ne (contains_of_node? ho)).2]
    exact isReplacing.ids o (mem_cons_of_mem _ later)

/-- **Replacing the boundary folds it in the network.** -/
theorem Sound.replaceBoundary (sound : p.Sound) (ht : p.Attached) :
    Ensures (p.boundaryConstants.forM Edit.replaceByData) p
      (fun _ next => Replaced p next ∧ run fold
        (p.boundaryConstants.map p.idOf) p.network = some next.network)
      fun _ => run fold (p.boundaryConstants.map p.idOf) p.network = none := by
  have start : IsReplacing p p.boundaryConstants p :=
    { replaced :=
        { sound := sound
          options := rfl
          kept := fun _ _ hf => .inl hf
          origin := fun _ _ hf => .inl hf
          needed := fun key hl =>
            (sound.mem_boundary_ids.mp (List.mem_map_of_mem hl)).2 }
      replacing := .start sound ht fun _ _ => trivial
      listed := fun _ hl => hl
      ids := fun _ _ => rfl }
  exact (ensures_forM_run (IsReplacing p) (fun _ _ _ _ given hf =>
    given.ensures_replaceByData hf) sound.consistent.boundaryConstants_nodup
    sound.consistent.boundaryConstants_live start).weaken fun _ _ given => ⟨given.1.replaced, given.2⟩

/-! ## Removing what is left -/

/-- A key of the constant part, when the boundary has been replaced: it names the constant node that it
named before, or nothing that can be removed. -/
def IsLeftover (program state : Program) (key : NodeKey) : Prop :=
  (∃ node, state.node? key = some node ∧ node.id = program.idOf key ∧ node.isConstant) ∨ (∀ node,
    state.node? key = some node → state.network.Kept node.id) ∧ state.network.Kept (program.idOf key)

theorem Replaced.isLeftover (replaced : Replaced p state) (hf : p.node? key = some node) (con :
    node.isConstant) : IsLeftover p state key := by
  have named := idOf_of_node? hf
  rcases replaced.kept key node hf with e | hl
  · exact .inl ⟨node, e, named.symm, con⟩
  cases st : state.node? key with
  | none =>
    refine .inr ⟨fun m given => ?_, replaced.needed key hl⟩
    rw [st] at given
    cases given
  | some buffer =>
    rcases replaced.origin key buffer st with e | ⟨o, listedOther, sameId⟩
    · cases hf.symm.trans e
      exact .inl ⟨node, st, named.symm, con⟩
    · refine .inr ⟨fun m given => ?_, replaced.needed key hl⟩
      cases st.symm.trans given
      rw [sameId]
      exact replaced.needed o listedOther

section Leftovers

variable {state : Program}

theorem IsLeftover.prune {next : Program} {o : NodeKey} {removed : Node}
    (leftover : IsLeftover p state o) (wf : state.Consistent)
    (hf : state.node? key = some removed) (con : removed.isConstant)
    (ne : o ≠ key) (stays : state.StaysBut key next)
    (nodes : ∀ o m, next.node? o = some m → state.node? o = some m)
    (pruned : prune removed.id state.network = some next.network) :
    IsLeftover p next o := by
  have keeps : ∀ id, state.network.Kept id → next.network.Kept id := by
    intro id kept
    refine kept.prune (fun c hc => ?_) pruned
    rw [wf.cell?_of_node? hf] at hc
    cases hc
    exact con
  rcases leftover with ⟨node, ho, sameId, constantOther⟩ | ⟨kept, keptOld⟩
  · obtain ⟨still, foundStill⟩ := contains_iff.mp (stays o ne (contains_of_node? ho)).1
    cases ho.symm.trans (nodes o still foundStill)
    exact .inl ⟨node, foundStill, sameId, constantOther⟩
  · exact .inr ⟨fun node given => keeps _ (kept node (nodes o node given)), keeps _ keptOld⟩

/-- A node that is kept is not removed. -/
theorem Consistent.prune?_of_kept (wf : state.Consistent)
    (kept : ∀ node, state.node? key = some node → state.network.Kept node.id) :
    state.prune? key = none := by
  rw [eq_none_iff_forall_ne_some]
  intro q result
  obtain ⟨node, hf, unmarked, unread, -⟩ := prune?_eq_some.mp result
  exact (kept node hf).not_prunable ((wf.prunable_iff hf).mpr ⟨unmarked, unread⟩)

/-- **What is left of the constant part is removed as in the network.** -/
theorem ensures_pruneLeftovers (wf : state.Consistent) {ks : List NodeKey}
    (nd : ks.Nodup) (leftovers : ∀ key ∈ ks, IsLeftover p state key) {failed : Fault → Prop} :
    Ensures (ks.forM fun key => discard (Edit.prune key)) state
      (fun _ next => run prune (ks.map p.idOf) state.network =
        some next.network) failed := by
  induction ks generalizing state with
  | nil => rfl
  | cons key rest ih =>
    obtain ⟨ha, nodupRest⟩ := nodup_cons.mp nd
    rw [List.forM, ensures_bind, ensures_discard, map_cons, run_cons]
    rcases leftovers key mem_cons_self with ⟨node, hf, sameId, con⟩ | ⟨kept, keptOld⟩
    · refine (ensures_prune wf hf).weaken ?_
      rintro _ next ⟨after, stays, nodes, pruned⟩
      rw [← sameId, pruned]
      exact ih after nodupRest fun o mem =>
        (leftovers o (mem_cons_of_mem _ mem)).prune wf hf con
          (fun e => ha (e ▸ mem)) stays nodes pruned
    · have unchanged : prune (p.idOf key) state.network = some state.network :=
        congrArg some (if_neg keptOld.not_prunable)
      rw [unchanged, Edit.prune]
      refine ensures_attempt (fun q result => ?_) fun _ => ?_
      · rw [wf.prune?_of_kept kept] at result
        cases result
      · exact ih wf nodupRest fun o mem =>
          leftovers o (mem_cons_of_mem _ mem)

end Leftovers

/-- The keys of the constant part, readers first. -/
def constantKeys (program : Program) : List NodeKey :=
  program.order.toList.reverse.filter fun key =>
    program.computedConstants.contains key || program.selectedConstants.contains key

section ConstantKeys

variable (sound : p.Sound)
include sound

theorem Sound.mem_constantKeys (hf : p.node? key = some node) :
    key ∈ p.constantKeys ↔ p.network.Selected node.id := by
  rw [constantKeys, mem_filter, mem_reverse, Bool.or_eq_true, contains_iff_mem,
    contains_iff_mem, sound.mem_computedConstants hf, sound.mem_selectedConstants hf]
  constructor
  · intro given
    exact given.2.elim Network.Computed.selected fun selected => selected
  · exact fun selected => ⟨sound.complete.mem_of_node? hf, .inr selected⟩

theorem Sound.nodup_constantKeys : p.constantKeys.Nodup :=
  (nodup_reverse.mpr sound.consistent.order_nodup).filter _

theorem Sound.constantKeys_live (mem : key ∈ p.constantKeys) : p.contains key :=
  sound.consistent.order_live key (mem_reverse.mp (mem_of_mem_filter mem))

theorem Sound.mem_constant_ids {id : String} :
    id ∈ p.constantKeys.map p.idOf ↔ p.network.Selected id := by
  refine sound.consistent.mem_map_idOf p.network.Selected
    (fun _ => sound.constantKeys_live) ?_ fun _ _ => sound.mem_constantKeys
  rintro id (⟨c, hc, -⟩ | ⟨⟨c, hc, -⟩, -⟩)
  · exact ⟨c, hc⟩
  · exact ⟨c, hc⟩

omit sound in
theorem constant_ids_sublist (p : Program) : (p.constantKeys.map p.idOf).Sublist p.ids.reverse := by
  rw [ids, ← map_reverse]
  exact filter_sublist.map p.idOf

/-- Readers come first. -/
theorem Sound.pairwise_constant_ids : (p.constantKeys.map p.idOf).Pairwise
    fun earlier later => ¬ Relation.TransGen p.network.Reads later earlier :=
  (pairwise_reverse.mpr sound.pairwise_ids).sublist p.constant_ids_sublist

end ConstantKeys

section SameNetwork

variable (sound : p.Sound) (o : q.Sound) (e : q.network = p.network)
include sound o e

theorem Sound.perm_boundary_ids : (p.boundaryConstants.map p.idOf).Perm
    (q.boundaryConstants.map q.idOf) := by
  have nd : ∀ {state : Program}, state.Sound →
      (state.boundaryConstants.map state.idOf).Nodup := fun given =>
    given.consistent.nodup_map_idOf given.consistent.boundaryConstants_nodup
      given.consistent.boundaryConstants_live
  refine (perm_ext_iff_of_nodup (nd sound) (nd o)).mpr fun id => ?_
  rw [sound.mem_boundary_ids, o.mem_boundary_ids, e]

theorem Sound.perm_constant_ids : (p.constantKeys.map p.idOf).Perm (q.constantKeys.map q.idOf) := by
  have nd : ∀ {state : Program}, state.Sound → (state.constantKeys.map state.idOf).Nodup :=
    fun given => (nodup_reverse.mpr given.nodup_ids).sublist (constant_ids_sublist _)
  refine (perm_ext_iff_of_nodup (nd sound) (nd o)).mpr fun id => ?_
  rw [sound.mem_constant_ids, o.mem_constant_ids, e]

/-- **Folding constants ends alike in programs with the same network.** -/
theorem Sound.run_fold_prune_eq :
    (run fold (p.boundaryConstants.map p.idOf) p.network).bind
        (run prune (p.constantKeys.map p.idOf)) =
      (run fold (q.boundaryConstants.map q.idOf) q.network).bind
        (run prune (q.constantKeys.map q.idOf)) := by
  rw [e, ← run_fold_eq (sound.perm_boundary_ids o e)]
  refine Option.bind_congr fun net folded => ?_
  have respectsToo := o.pairwise_constant_ids
  rw [e] at respectsToo
  -- Nothing is read that was not read before, so readers still come first.
  have folds : ∀ id pre after, Network.Within p.network pre → fold id pre = some after →
      Network.Within p.network after := fun _ _ _ within stepped r src hr =>
      within r src (reads_of_fold stepped hr)
  have prunes : ∀ id pre after, Network.Within p.network pre → prune id pre = some after
      → Network.Within p.network after := fun _ _ _ within stepped r src hr =>
      within r src (reads_of_prune stepped hr)
  refine run_eq_of_perm prunes ?_ (sound.perm_constant_ids o e) sound.pairwise_constant_ids
    respectsToo (run_keeps folds (within_refl p.network) folded)
  intro net within a _ b _ ne free freeToo
  exact prune_comm ne (fun hr => free (within _ _ hr))
    fun hr => freeToo (within _ _ hr)

end SameNetwork

end Program

end LayerGraph
