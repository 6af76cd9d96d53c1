import LayerGraph.Proofs.Layout.Determination
import LayerGraph.Proofs.Layout.FusedBorders
import LayerGraph.Proofs.Layout.Reordering

/-!
# One sweep is enough

Fusing activations, dropping reorders, making room for windows and reordering network inputs look at every
node once. What they do at one node might give them something to do at a node that they have already
passed. It does not, so that a second run of such a pass changes nothing (`Build.one_sweep_suffices`).

A node that is bypassed is read by nodes only that come later in the order; those that have been looked at
read what they read before (`Program.SweptExcept`). Borders only grow, and a border that covers what is
needed is not changed by merging it in. A network input with a new reorder is read by the reorder only.
-/

namespace LayerGraph

open List Edit

namespace Program

variable {p q st next : Program} {k i key : NodeKey} {n node : Node} {rest : List NodeKey}
  {quiet : Program → NodeKey → Node → Prop}

/-! ## Bypassing nodes -/

/-- A sweep in processing order has looked at all nodes but the given ones, and there is nothing left to
do at those. What has been looked at does not read what has not. -/
structure SweptExcept (quiet : Program → NodeKey → Node → Prop) (rest : List NodeKey)
    (program : Program) : Prop where
  nodup : rest.Nodup
  reads : ∀ later, later <:+ rest → ∀ key ∉ later, ∀ input ∈ program.dependencies key, input ∉ later
  quiet : ∀ key node, program.node? key = some node → key ∉ rest → quiet program key node

namespace SweptExcept

theorem start (hs : p.Sound) : SweptExcept quiet p.order.toList p where
  nodup := hs.complete.nodup
  reads := by
    rintro later ⟨earlier, split⟩ key away input hr mem
    have pair := hs.complete.before key input hr
    have listed : key ∈ earlier := by
      have mem : key ∈ p.order.toList := pair.subset (by simp)
      rw [← split, mem_append] at mem
      exact mem.resolve_right away
    obtain ⟨front, back, rfl⟩ := append_of_mem listed
    have nodup := hs.complete.nodup
    rw [← split, append_assoc, cons_append] at pair nodup
    have inFront := mem_of_pair_sublist_append nodup pair
    exact (nodup_append.mp nodup).2.2 input inFront input (by simp [mem]) rfl
  quiet key node found absent := absurd (hs.complete.mem_of_node? found) absent

variable (swept : SweptExcept quiet (k :: rest) p)
include swept

theorem idle (done : ∀ n, p.node? k = some n → quiet p k n) : SweptExcept quiet rest p where
  nodup := (nodup_cons.mp swept.nodup).2
  reads later suffix := swept.reads later (suffix.trans (suffix_cons k rest))
  quiet key node found away := by
    by_cases isKey : key = k
    · exact isKey ▸ done node (isKey ▸ found)
    · exact swept.quiet key node found (not_mem_cons_of_ne_of_not_mem isKey away)

/-- **A bypassed node is read by nodes only that have not been looked at.** -/
theorem bypassed (hr : p.dependencies k = [i]) (gone : next.node? k = none)
    (lists : ∀ o, next.dependencies o =
      if o = k then [] else (p.dependencies o).map (redirected k i))
    (stays : ∀ key node, next.node? key = some node → key ∉ k :: rest →
      k ∉ p.dependencies key → next.dependencies key = p.dependencies key →
      quiet next key node) : SweptExcept quiet rest next where
  nodup := (nodup_cons.mp swept.nodup).2
  reads later suffix key away input mem := by
    have whole := suffix.trans (suffix_cons k rest)
    rw [lists] at mem
    split at mem
    · exact absurd mem not_mem_nil
    · obtain ⟨read, isRead, rfl⟩ := mem_map.mp mem
      rw [redirected]
      split
      · have notLater : k ∉ later := fun mem => (nodup_cons.mp swept.nodup).1 (suffix.subset mem)
        exact swept.reads later whole k notLater i (by simp [hr])
      · exact swept.reads later whole key away read isRead
  quiet key node found away := by
    have apart : key ≠ k := by
      rintro rfl
      cases gone.symm.trans found
    have looked : key ∉ k :: rest := not_mem_cons_of_ne_of_not_mem apart away
    have unread : k ∉ p.dependencies key := fun mem =>
      swept.reads _ suffix_rfl key looked k mem mem_cons_self
    have still : ∀ read ∈ p.dependencies key, redirected k i read = read := fun read isRead =>
      if_neg (c := read = k) fun isKey => unread (isKey ▸ isRead)
    refine stays key node found looked unread ?_
    rw [lists, if_neg apart, map_congr_left still, map_id']

end SweptExcept

/-- Nothing can be fused at a node. -/
def Unfusable (program : Program) (key : NodeKey) (node : Node) : Prop :=
  ∀ function, node.kind = .activation function → program.fusionTarget? key node = none

/-- What can be fused after an activation has been fused could be fused before. -/
theorem Fuses.unfusable {into : Node} {function : Activation}
    (fuses : Fuses p q k i n into function)
    (found : (q.modifyNode i fun tgt => { tgt with fused := some function }).node? key = some node)
    (unread : k ∉ p.dependencies key)
    (same : q.dependencies key = p.dependencies key)
    (was : ∀ node, p.node? key = some node → p.Unfusable key node) :
    (q.modifyNode i fun tgt => { tgt with fused := some function }).Unfusable key node := by
  intro fn kind
  obtain ⟨old, foundOld, sameKind, sameMark⟩ : ∃ old, p.node? key = some old ∧
      old.kind = node.kind ∧ old.isOutput = node.isOutput := by
    rw [fuses.node?_fused] at found
    split at found
    · cases found
    · split at found
      · next isInput =>
        cases found
        exact ⟨into, isInput ▸ fuses.foundInto, rfl, rfl⟩
      · exact ⟨node, found, rfl, rfl⟩
  cases target : (q.modifyNode i fun tgt =>
    { tgt with fused := some function }).fusionTarget? key node with
  | none => rfl
  | some o =>
    obtain ⟨reads, unmarked, only, taker, foundTaker, takes, unfused, free⟩ :=
      fusionTarget?_eq_some.mp target
    have readsNow : q.dependencies key = [o] := reads
    have isRead : o ∈ p.dependencies key := by simp [← same, readsNow]
    have notKey : o ≠ k := fun isKey => unread (isKey ▸ isRead)
    rw [fuses.node?_fused, if_neg notKey] at foundTaker
    split at foundTaker
    · cases foundTaker
      cases unfused
    next notInput =>
    have single : p.users o = [key] := by
      refine (users_eq_singleton isRead).mpr fun user readsToo => ?_
      refine (users_eq_singleton (by simp [reads])).mp only user ?_
      change o ∈ q.dependencies user
      rw [fuses.dependencies, if_neg]
      · exact mem_map.mpr ⟨o, readsToo, if_neg notKey⟩
      · rintro rfl
        rw [fuses.reads, mem_singleton] at readsToo
        exact notInput readsToo
    cases (was old foundOld fn (sameKind.trans kind)).symm.trans (fusionTarget?_eq_some.mpr
      ⟨same ▸ readsNow, sameMark.trans unmarked, single, taker, foundTaker, takes, unfused, free⟩)

/-- A node is no reorder that can be dropped. -/
def Undroppable (program : Program) (key : NodeKey) (node : Node) : Prop :=
  program.isRedundantReorder key node → program.bypass? key = none

/-- What can be dropped after another reorder has been dropped could be dropped before. -/
theorem Bypasses.undroppable (bypasses : Bypasses p q k i n) (found : q.node? key = some node)
    (unread : k ∉ p.dependencies key) (same : q.dependencies key = p.dependencies key)
    (was : ∀ node, p.node? key = some node → p.Undroppable key node) : q.Undroppable key node := by
  intro redundant
  have foundBefore := (bypasses.node?_eq_some found).2
  have source : (q.dependency? key 0).bind q.node? = (p.dependency? key 0).bind p.node? := by
    rw [dependency?, dependency?, same]
    cases first : (p.dependencies key)[0]? with
    | none => rfl
    | some read =>
      rw [Option.bind_some, Option.bind_some, bypasses.nodes, if_neg]
      exact fun isKey => unread (isKey ▸ mem_of_getElem? first)
  rw [isRedundantReorder, source, ← isRedundantReorder] at redundant
  have refused := was node foundBefore redundant
  cases dropped : q.bypass? key with
  | none => rfl
  | some edited =>
    obtain ⟨_, input, foundAgain, reads, unmarked, -⟩ := bypass?_eq_some.mp dropped
    cases found.symm.trans foundAgain
    cases refused.symm.trans
      (bypass?_eq_some.mpr ⟨node, input, foundBefore, same ▸ reads, unmarked, rfl⟩)

/-! ## Borders -/

/-- The cached layout of a node has its border. -/
def Padded (_ : NodeKey) (node : Node) : Prop :=
  ∀ layout, node.layout = some layout → layout.padding = node.padding

theorem durable_padded : Node.Durable Padded where
  fused _ _ _ h := h
  widened _ n _ _ := by
    intro layout known
    obtain ⟨was, -, rfl⟩ := Option.map_eq_some_iff.mp known
    rfl
  reorder _ prim src lay _ _ _ := by
    rintro layout ⟨⟩
    rfl

theorem HasLayouts.padded (has : p.HasLayouts p.layoutOf) : p.EachNode Padded := by
  intro k n hk layout known
  obtain ⟨output, -, e⟩ := has k n hk
  rw [layoutOf, hk, Option.bind_some, known, eq_comm, Option.map_eq_some_iff] at e
  obtain ⟨shaped, -, rfl⟩ := e
  rfl

/-- Merging in a border that is covered changes nothing. -/
theorem mergePadding_eq_self {padding : Padding} (padded : Padded k n)
    (covers : n.padding.Covers padding) : n.mergePadding padding = n := by
  have lays : n.layout.map (·.withPadding n.padding) = n.layout := by
    cases known : n.layout with
    | none => rfl
    | some layout => rw [Option.map_some, Layout.withPadding, ← padded layout known]
  rw [Node.mergePadding, covers.merge_eq, Node.withPadding, lays]

/-- Where windows have room, nothing is done. -/
theorem ensures_prepareWindow_idle {handling : Bool} (hs : p.Sound) (padded : p.EachNode Padded)
    (hk : p.node? k = some n) (room : p.HasRoomAt handling k) :
    Ensures (prepareWindow handling k) p (fun _ q => q = p) fun _ => False := by
  have covered : ∀ i src layout padding, p.dependency? k 0 = some i → p.node? i = some src →
      p.firstInputLayout? k = some layout →
      n.kind.neededBorder handling layout = .ok (some padding) → ¬ padding.isZero →
      ¬ (src.tag = .inputLayout ∨ src.tag = .data) ∧ src.padding.Covers padding := by
    intro i src layout padding hr foundSrc known asks wide
    rw [firstInputLayout?_eq hr foundSrc] at known
    obtain ⟨border, asked, enough⟩ := room n i src layout hk hr foundSrc known
    cases asks.symm.trans asked
    exact (enough padding rfl).resolve_left wide
  refine (ensures_prepareWindow_cases handling hs hk).mono ?_ ?_
  · intro _ next prep
    cases prep with
    | unknown => rfl
    | enough => rfl
    | widened hr known asks wide widens =>
      cases widens with
      | merged foundSrc _ _ =>
        obtain ⟨-, covers⟩ := covered _ _ _ _ hr foundSrc known asks wide
        exact modifyNode_eq_self foundSrc (mergePadding_eq_self (padded _ _ foundSrc) covers)
      | inserted foundSrc _ tag =>
        exact absurd tag (covered _ _ _ _ hr foundSrc known asks wide).1
  · intro fault fails
    cases fails with
    | overflow known stopped =>
      obtain ⟨src, foundSrc, isKnown⟩ := Option.bind_eq_some_iff.mp known
      obtain ⟨i, hr, foundInput⟩ := Option.bind_eq_some_iff.mp foundSrc
      obtain ⟨border, asked, -⟩ := room n i src _ hk hr foundInput isKnown
      cases stopped.symm.trans asked
    | taken hr known asks wide taken =>
      obtain ⟨src, foundSrc, tag, -⟩ := taken
      exact (covered _ _ _ _ hr foundSrc known asks wide).1 tag

/-! ## Network inputs -/

theorem ensures_reorderEach_idle {ks : List NodeKey} (hs : p.Sound) (hv : ∀ k ∈ ks, p.contains k)
    (unneeded : ∀ k ∈ ks, ∀ n, p.node? k = some n → p.neededReorder? k n = none) :
    Ensures (reorderEach ks) p (fun new q => new = [] ∧ q = p) fun _ => False := by
  induction ks with
  | nil => exact ⟨rfl, rfl⟩
  | cons k rest ih =>
    obtain ⟨n, hk⟩ := contains_iff.mp (hv k mem_cons_self)
    have none := unneeded k mem_cons_self n hk
    simp only [reorderEach, ensures_bind, ensures_pure]
    refine (ensures_reorderInput_cases hs hk).mono ?_ ?_
    · rintro _ _ (⟨rfl, -, rfl⟩ | ⟨_, _, _, -, needed, -⟩)
      · exact ih (fun o mem => hv o (mem_cons_of_mem _ mem)) fun o mem =>
          unneeded o (mem_cons_of_mem _ mem)
      · cases none.symm.trans needed
    · rintro _ ⟨_, _, needed, -⟩
      cases none.symm.trans needed

/-- **A network input that is served needs no reorder any more,** also when layouts have been brought up
to date after that. -/
theorem Served.unneeded (hs : p.Sound) (solved : ∀ k, p.layering.SolvedAt k)
    (reordered : p.layering.Reordered q.layering) (sound : q.Sound)
    (solvedAfter : ∀ k, q.layering.SolvedAt k) (served : Served p q k) (hv : p.contains k)
    (hk : q.node? k = some n) : q.neededReorder? k n = none := by
  cases needed : q.neededReorder? k n with
  | none => rfl
  | some found =>
  obtain ⟨lay, tag, known, isReader, differs, -⟩ := neededReorder?_cases needed
  obtain ⟨conv, foundReader, readerTag, readsFirst⟩ := convolutionReader?_eq_some isReader
  have foundLayer := layer?_of_node? foundReader
  rcases served with ⟨new, fmt, reorders⟩ | unneeded
  · exact absurd readerTag (reorders.tag_ne (mem_of_getElem? readsFirst) foundLayer)
  -- The convolution read the input from the beginning, and the input had the same layout.
  cases foundWas : p.layering.layer? found.2 with
  | none => cases readerTag.symm.trans (reordered.fresh found.2 _ foundLayer foundWas)
  | some was =>
  obtain ⟨orig, foundOrig⟩ := contains_iff.mp hv
  have foundBefore := layer?_of_node? foundOrig
  have reads := reordered.first foundWas
  have readsNow : (q.layering.reads found.2)[0]? = some k := readsFirst
  rw [readsNow] at reads
  generalize first : (p.layering.reads found.2)[0]? = read at reads
  cases reads with
  | some moved =>
  rcases moved with rfl | ⟨fmt, reorders⟩
  · obtain ⟨convWas, foundConv, rfl⟩ := layer?_eq_some.mp foundWas
    obtain ⟨layer, foundAgain, frame⟩ := reordered.exists_layer foundWas
    cases foundLayer.symm.trans foundAgain
    have sameReader : conv.kind = convWas.kind := congrArg Prod.fst frame
    obtain ⟨layer, foundAgain, frame⟩ := reordered.exists_layer foundBefore
    cases (layer?_of_node? hk).symm.trans foundAgain
    have sameKind : n.kind = orig.kind := congrArg Prod.fst frame
    have tagWas : orig.tag = .inputLayout := (congrArg Kind.tag sameKind).symm.trans tag
    have readerWas : convWas.tag = .convolution :=
      (congrArg Kind.tag sameReader).symm.trans readerTag
    have settled : Layering.Settled (fun _ => True) p.layering _ _ := settled_of_solved hs.consistent solved
    have shape := (reordered.explains settled solvedAfter sound.complete.isTopological k
      (sound.complete.mem_of_node? hk) ⟨_, foundBefore⟩).shape
    rw [SameShape, known_of_node? hk, known, known_of_node? foundOrig, Option.map_some,
      Option.map_some, Option.map_eq_some_iff] at shape
    obtain ⟨_, isKnown, -⟩ := shape
    obtain ⟨cached, isCached, rfl⟩ := Option.map_eq_some_iff.mp isKnown
    have gives := solvedAfter k _ (layer?_of_node? hk)
    rw [known_of_node? hk, known, Option.map_some] at gives
    have gave := solved k _ foundBefore
    rw [known_of_node? foundOrig, isCached, Option.map_some] at gave
    obtain ⟨declared, isInput, bare⟩ := gives.declared tag
    obtain ⟨_, wasInput, bareToo⟩ := gave.declared tagWas
    cases wasInput.symm.trans (sameKind.symm.trans isInput)
    obtain ⟨format, shape⟩ := Layout.eq_of_bare (bareToo.symm.trans bare)
    exact absurd (unneeded orig foundOrig) (neededReorder?_ne_none tagWas isCached foundConv
      readerWas first (format ▸ shape ▸ differs))
  · cases reorders.vacant.symm.trans foundBefore

end Program

namespace Build

open Program

variable {s : Session}

/-! ## Passes -/

/-- A sweep that does nothing at any node does nothing. -/
theorem ensures_sweep_idle {step : NodeKey → Edit Unit} (wf : s.program.Consistent)
    (idle : ∀ k n, s.program.node? k = some n →
      Ensures (step k) s.program (fun _ q => q = s.program) fun _ => False) :
    Ensures (edit (s.program.order.toList.forM step)) s (fun _ next => next = s) fun _ => False := by
  rw [ensures_edit]
  refine (ensures_forM_mem (· = s.program) (fun k mem st e => ?_) rfl).weaken fun _ q e => e ▸ rfl
  obtain ⟨n, hk⟩ := contains_iff.mp (wf.order_live k mem)
  exact e ▸ idle k n hk

theorem ensures_fuseActivations_swept (hs : s.program.Sound) :
    Ensures fuseActivations s (fun _ next => SweptExcept Unfusable [] next.program) := by
  simp only [fuseActivations, ensures_bind, ensures_program, ensures_edit]
  refine ensures_forM_sound (SweptExcept Unfusable) (fun k rest st kept hv swept => ?_) hs
    hs.complete.nodup hs.consistent.order_live (.start hs)
  obtain ⟨n, hk⟩ := contains_iff.mp hv
  have fuses : Ensures (fuse k) st _ fun _ => True := ensures_fuse_cases hk
  refine ((ensures_fuse kept hv).and fuses).weaken ?_
  rintro _ _ ⟨steps, ⟨rfl, none⟩ | ⟨fn, i, q, kind, tgt, res, rfl⟩⟩
  · refine ⟨steps, swept.idle fun m hm => ?_⟩
    cases hk.symm.trans hm
    exact none
  · obtain ⟨into, fuses⟩ := kept.fuses hk kind tgt res
    refine ⟨steps, swept.bypassed fuses.reads ?_ fuses.dependencies ?_⟩
    · rw [fuses.node?_fused, if_pos rfl]
    · exact fun key node found looked unread same =>
        fuses.unfusable found unread same fun old foundOld => swept.quiet key old foundOld looked

theorem ensures_dropReorders_swept (hs : s.program.Sound) :
    Ensures dropReorders s (fun _ next => SweptExcept Undroppable [] next.program) := by
  simp only [dropReorders, ensures_bind, ensures_program, ensures_edit]
  refine ensures_forM_sound (SweptExcept Undroppable) (fun k rest st kept hv swept => ?_) hs
    hs.complete.nodup hs.consistent.order_live (.start hs)
  obtain ⟨n, hk⟩ := contains_iff.mp hv
  have drops : Ensures (dropReorder k) st _ fun _ => True := ensures_dropReorder_cases hk
  refine ((ensures_dropReorder kept hv).and drops).weaken ?_
  rintro _ next ⟨steps, ⟨rfl, refused⟩ | ⟨-, res⟩⟩
  · refine ⟨steps, swept.idle fun m hm => ?_⟩
    cases hk.symm.trans hm
    exact refused
  · obtain ⟨_, i, bypasses⟩ := kept.bypasses res
    refine ⟨steps, swept.bypassed bypasses.reads ?_ bypasses.dependencies ?_⟩
    · rw [bypasses.nodes, if_pos rfl]
    · exact fun key node found looked unread same => bypasses.undroppable found unread same
        fun old foundOld => swept.quiet key old foundOld looked

theorem ensures_reorderInputs_served (hs : s.program.Sound)
    (solved : ∀ k, s.program.layering.SolvedAt k) : Ensures reorderInputs s (fun _ next =>
      ∀ k ∈ next.program.inputs, ∀ n, next.program.node? k = some n →
        next.program.neededReorder? k n = none) := by
  simp only [reorderInputs, ensures_bind, ensures_program, ensures_edit]
  have hv := hs.consistent.inputs_live
  refine ((Reordering.refl hs).ensures_reorderEach hv).weaken ?_
  rintro ins mid ⟨reordering, served, -, idle⟩
  split
  · next empty =>
    cases idle (isEmpty_iff.mp empty)
    exact fun k mem n hk => (served k mem).unneeded hs solved (.refl _) hs solved (hv k mem) hk
  · rw [ensures_bind, ensures_edit]
    refine ((ensures_refreshLayouts_solved reordering.sound).mono fun _ _ h => h).weaken ?_
    rintro _ refreshed ⟨ann, frames, solvedAfter⟩
    refine (ensures_compileNodes _).mono fun _ last h => ?_
    rw [h.1]
    have reads := funext ann.dependencies
    intro k mem n hk
    rw [ann.rest] at mem
    replace mem : k ∈ s.program.inputs := reordering.inputs ▸ mem
    have servedAfter : Served s.program refreshed k := by
      refine (served k mem).imp_left ?_
      rintro ⟨new, fmt, reorders⟩
      exact ⟨new, fmt, reorders.reframed reads frames⟩
    exact servedAfter.unneeded hs solved (reordering.reordered.reframed reads frames)
      (Rewrite.annotated ann |>.sound reordering.sound) solvedAfter (hv k mem) hk

/-- **One sweep is enough.** When layouts are up to date and the order is complete, a second run of a pass
that fuses activations, makes room for windows, drops reorders or reorders network inputs succeeds after
the first one, changes nothing and does not call the backend. -/
theorem one_sweep_suffices (pass : Pass) (folding : Build Unit) (session next : Session)
    (sweeps : pass ∈ [Pass.fuseActivations, .prepareWindows, .dropReorders, .reorderInputs])
    (consistent : session.program.Consistent) (complete : session.program.HasCompleteOrder)
    (upToDate : Edit.refreshLayouts session.program = .ok () session.program)
    (first : pass.body folding session = .ok () next) : pass.body folding next = .ok () next := by
  have sound : session.program.Sound := ⟨consistent, complete⟩
  suffices idle : Ensures (pass.body folding) next (fun _ last => last = next) fun _ => False by
    obtain ⟨_, last, again, rfl⟩ := idle.exists_ok
    exact again
  have advances := (ensures_body sound folding (fun e => by subst e; revert sweeps; decide)
    (fun e => by subst e; revert sweeps; decide)).of_ok first
  have soundNext := advances.rewrites.sound sound
  simp only [mem_cons, not_mem_nil, or_false] at sweeps
  rcases sweeps with rfl | rfl | rfl | rfl
  · have swept := (ensures_fuseActivations_swept sound).of_ok first
    simp only [Pass.body, fuseActivations, ensures_bind, ensures_program]
    refine ensures_sweep_idle soundNext.consistent fun k n hk => (ensures_fuse_cases hk).weaken ?_
    rintro _ q (⟨same, -⟩ | ⟨fn, i, _, kind, target, -⟩)
    · exact same
    · cases (swept.quiet k n hk not_mem_nil fn kind).symm.trans target
  · obtain ⟨handling, prepared⟩ := (ensures_prepareWindows_prepared sound).of_ok first
    have has := ((ensures_refreshLayouts_exact complete).of_ok upToDate).2
    have padded := (ensures_body_durable durable_padded sound has.padded (by decide)).of_ok first
    simp only [Pass.body, prepareWindows, ensures_bind, ensures_get]
    refine ensures_sweep_idle soundNext.consistent fun k n hk =>
      ensures_prepareWindow_idle soundNext padded hk ?_
    exact handling ▸ prepared.room k (contains_of_node? hk) not_mem_nil
  · have swept := (ensures_dropReorders_swept sound).of_ok first
    simp only [Pass.body, dropReorders, ensures_bind, ensures_program]
    refine ensures_sweep_idle soundNext.consistent fun k n hk => (ensures_dropReorder_cases hk).weaken ?_
    rintro _ q (⟨same, -⟩ | ⟨redundant, dropped⟩)
    · exact same
    · cases (swept.quiet k n hk not_mem_nil redundant).symm.trans dropped
  · obtain ⟨-, -, solved⟩ := (ensures_refreshLayouts_solved sound).of_ok upToDate
    have unneeded := (ensures_reorderInputs_served sound solved).of_ok first
    simp only [Pass.body, reorderInputs, ensures_bind, ensures_program, ensures_edit]
    refine (ensures_reorderEach_idle soundNext soundNext.consistent.inputs_live unneeded).weaken ?_
    rintro _ _ ⟨rfl, rfl⟩
    exact rfl

end Build

namespace Topology

deriving instance DecidableEq for EStateM.Result

/-- The reorder in front of the second convolution is not put there twice. -/
theorem one_sweep_suffices_windowedPicture : ∃ session next : Session,
    windowedPicture.after? Build.prepareWindows = some (session, next) ∧ session.program.Sound ∧
      Edit.refreshLayouts session.program = .ok () session.program ∧
      Build.prepareWindows session = .ok () next ∧
      next.program.ids = ["x", "r", "y", "x_padding_reorder_z", "z"] ∧
      Build.prepareWindows next = .ok () next := by
  obtain ⟨⟨session, next⟩, found, ids, current⟩ :
      ∃ pair ∈ windowedPicture.after? Build.prepareWindows,
        pair.2.program.ids = ["x", "r", "y", "x_padding_reorder_z", "z"] ∧
        Edit.refreshLayouts pair.1.program = .ok () pair.1.program := by decide +kernel
  obtain ⟨sound, ran⟩ := exists_of_after? found
  exact ⟨session, next, found, sound, current, ran, ids, Build.one_sweep_suffices .prepareWindows
    (pure ()) session next (by decide) sound.consistent sound.complete current ran⟩

end Topology

end LayerGraph
