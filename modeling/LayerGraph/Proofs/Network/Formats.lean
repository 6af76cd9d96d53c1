import LayerGraph.Proofs.Network.Borders

/-!
# Formats in networks

A network input that a convolution reads as its data gets a reorder to the format that convolutions
prefer, and all its readers read the reorder (`Network.reorderInput`). No reader of another input is
concerned, so inputs can be treated in any order. The nodes that are new afterwards are the reorders
(`Program.Grows`).
-/

namespace LayerGraph

open List

/-- The reorder of an input to another format, as it is inserted. -/
def reorderCell (input : Node) (format : Format) : Cell :=
  insertedCell (.reorder (reorderId input.id format) input.id format) input

namespace Network

variable {net next : Network} {id a b : String} {c fr : Cell}

/-- A convolution reads a node as its data. -/
def FeedsConvolution (net : Network) (id : String) : Prop :=
  ∃ reader cell, net.cell? reader = some cell ∧ cell.tag = .convolution ∧ cell.reads.head? = some id

open scoped Classical in
/-- The reorder that an input needs, if it needs one. -/
noncomputable def neededReorder? (net : Network) (cell : Cell) : Option Cell :=
  if cell.tag = .inputLayout ∧ net.FeedsConvolution cell.id then
    (cell.layout.filter fun layout => layout.format != preferredFormat layout.shape.batch).map
      fun layout => reorderCell cell.toNode (preferredFormat layout.shape.batch)
  else none

/-- Puts a cell behind another one, if it is needed and unless its id is taken. -/
def putBehind (id : String) : Option Cell → Network → Option Network
  | none, net => some net
  | some fr, net => net.tryInsert fr fun _ reads => reads.map (rerouted id fr.id)

/-- What the input with an id needs. -/
noncomputable def reorder? (id : String) (net : Network) : Option (Option Cell) :=
  (net.cell? id).map net.neededReorder?

/-- Puts the reorder that an input needs behind it. -/
noncomputable def reorderInput (id : String) (net : Network) : Option Network :=
  (net.reorder? id).bind fun needed => net.putBehind id needed

theorem neededReorder?_cases (needed : net.neededReorder? c = some fr) :
    c.tag = .inputLayout ∧ ∃ fmt, fr = reorderCell c.toNode fmt := by
  rw [neededReorder?] at needed
  split at needed
  · next asked =>
    obtain ⟨lay, -, rfl⟩ := Option.map_eq_some_iff.mp needed
    exact ⟨asked.1, _, rfl⟩
  · cases needed

/-- Whether a convolution reads a node does not depend on what is put behind another one. -/
theorem feedsConvolution_insert (ne : a ≠ b) (there : net.has b)
    (free : net.cell? fr.id = none) (tag : fr.tag ≠ .convolution) :
    (net.insert fr fun _ hr => hr.map (rerouted a fr.id)).FeedsConvolution b ↔
      net.FeedsConvolution b := by
  have apart := ne_of_free there free
  constructor
  · rintro ⟨r, after, hk, isConvolution, head⟩
    rw [cell?_insert] at hk
    split at hk
    · cases hk
      exact absurd isConvolution tag
    · obtain ⟨c, hc, rfl⟩ := Option.map_eq_some_iff.mp hk
      refine ⟨r, c, hc, isConvolution, ?_⟩
      obtain ⟨src, sourceHead, moved⟩ := Option.map_eq_some_iff.mp (head?_map ▸ head)
      rw [rerouted] at moved
      split at moved
      · exact absurd moved.symm apart
      · rw [sourceHead, moved]
  · rintro ⟨r, c, hk, isConvolution, head⟩
    refine ⟨r, c.withReads (·.map (rerouted a fr.id)), ?_, isConvolution, ?_⟩
    · rw [cell?_insert, if_neg (ne_of_free ⟨c, hk⟩ free), hk, Option.map_some]
    · show (c.reads.map _).head? = some b
      rw [head?_map, head, Option.map_some, rerouted, if_neg ne.symm]

variable {needed : Option Cell}

open scoped Classical in
/-- What an input needs does not depend on what is put behind another one. -/
theorem reorder?_putBehind (closed : net.Closed) (ne : a ≠ b) (there : net.has b) (asked : net.reorder? a
    = some needed) (h : net.putBehind a needed = some next) : next.reorder? b = net.reorder? b := by
  cases needed with
  | none =>
    cases h
    rfl
  | some fr =>
    obtain ⟨free, rfl⟩ := tryInsert_eq_some.mp h
    obtain ⟨i, foundInput, needs⟩ := Option.map_eq_some_iff.mp asked
    obtain ⟨-, fmt, rfl⟩ := neededReorder?_cases needs
    obtain ⟨c, hk⟩ := there
    have named : c.id = b := closed.named b c hk
    rw [reorder?, reorder?, cell?_insert, if_neg (ne_of_free ⟨c, hk⟩ free), hk,
      Option.map_some, Option.map_some, Option.map_some, neededReorder?, neededReorder?]
    have e := feedsConvolution_insert ne ⟨c, hk⟩ free KindTag.noConfusion
    rw [← named] at e
    exact congrArg some (if_congr (and_congr_right fun _ => e) rfl rfl)

theorem putBehind_comm {neededToo : Option Cell} (closed : net.Closed) (ne : a ≠ b) (there : net.has a)
    (thereToo : net.has b) (asked : net.reorder? a = some needed) (askedToo : net.reorder? b = some
    neededToo) : (net.putBehind a needed).bind (putBehind b neededToo) = (net.putBehind b neededToo).bind
    (putBehind a needed) := by
  have kept : ∀ {one o : String} {c : Cell}, net.cell? one = some c → o ≠ one →
      ∀ fmt put, (reorderCell c.toNode fmt).reads.map (rerouted o put) =
        (reorderCell c.toNode fmt).reads := by
    intro one o c hk apart fmt put
    have named := closed.named one c hk
    show [rerouted o put c.id] = [c.id]
    rw [named, rerouted, if_neg apart.symm]
  cases needed with
  | none => exact (Option.bind_some _ _).trans (Option.bind_fun_some _).symm
  | some fr =>
    cases neededToo with
    | none => exact (Option.bind_fun_some _).trans (Option.bind_some _ _).symm
    | some freshToo =>
      obtain ⟨i, hk, needs⟩ := Option.map_eq_some_iff.mp asked
      obtain ⟨o, foundToo, needsToo⟩ := Option.map_eq_some_iff.mp askedToo
      obtain ⟨-, fmt, rfl⟩ := neededReorder?_cases needs
      obtain ⟨-, formatToo, rfl⟩ := neededReorder?_cases needsToo
      apply tryInsert_comm
      · exact fun _ => kept hk ne.symm fmt _
      · exact fun _ => kept foundToo ne formatToo _
      · intro free freeToo id _ hr
        rw [List.map_map, List.map_map]
        congr 1
        funext src
        exact rerouted_comm ne.symm (ne_of_free there freeToo).symm (ne_of_free thereToo free).symm src

/-- Reorders can be put behind two inputs in any order. -/
theorem reorderInput_comm (closed : net.Closed) (ne : a ≠ b) (there : net.has a) (thereToo : net.has b) :
    (net.reorderInput a).bind (reorderInput b) = (net.reorderInput b).bind (reorderInput a) :=
  exchange_of_requests (fun _ _ asked h => reorder?_putBehind closed ne thereToo asked h)
    (fun _ _ asked h => reorder?_putBehind closed ne.symm there asked h)
    fun _ _ asked askedToo => putBehind_comm closed ne there thereToo asked askedToo

theorem has_putBehind {o : String} (h : net.putBehind id needed = some next) (there : net.has o) :
    next.has o := by
  cases needed with
  | none =>
    cases h
    exact there
  | some fr =>
    obtain ⟨-, rfl⟩ := tryInsert_eq_some.mp h
    exact has_insert there

theorem Closed.reorderInput (closed : net.Closed) (made : net.reorderInput id = some next) :
    next.Closed := by
  obtain ⟨needed, asked, h⟩ := Option.bind_eq_some_iff.mp made
  cases needed with
  | none =>
    cases h
    exact closed
  | some fr =>
    obtain ⟨-, rfl⟩ := tryInsert_eq_some.mp h
    obtain ⟨c, hk, needs⟩ := Option.map_eq_some_iff.mp asked
    obtain ⟨-, fmt, rfl⟩ := neededReorder?_cases needs
    apply closed.insert
    · intro src mem
      rw [mem_singleton.mp mem]
      exact ⟨c, closed.named id c hk ▸ hk⟩
    · intro _ hr src mem
      obtain ⟨old, inReads, rfl⟩ := List.mem_map.mp mem
      rw [rerouted]
      split
      · exact .inl rfl
      · exact .inr inReads

/-- **Reorders are put behind inputs alike in any order.** -/
theorem run_reorderInput_eq {ids others : List String} (closed : net.Closed)
    (there : ∀ id ∈ ids, net.has id) (perm : ids.Perm others) :
    run reorderInput ids net = run reorderInput others net := by
  have keeps : ∀ id st after, Closed st ∧ (∀ id ∈ ids, st.has id) →
      reorderInput id st = some after → Closed after ∧ ∀ id ∈ ids, after.has id := by
    intro id st after h made
    obtain ⟨needed, -, gave⟩ := Option.bind_eq_some_iff.mp made
    exact ⟨h.1.reorderInput made, fun o mem => has_putBehind gave (h.2 o mem)⟩
  exact run_eq_of_exchanges keeps (fun st h a inFirst b inSecond ne =>
    reorderInput_comm h.1 ne (h.2 a inFirst) (h.2 b inSecond)) perm
    ⟨closed, there⟩

end Network

namespace Program

variable {p mid q next : Program} {k : NodeKey} {n : Node}

/-! ## Inputs of a program -/

theorem Consistent.feedsConvolution_iff (wf : p.Consistent) (hk : p.node? k = some n) :
    p.network.FeedsConvolution n.id ↔ (p.convolutionReader? k).isSome := by
  constructor
  · rintro ⟨id, c, hc, tag, head⟩
    obtain ⟨user, st, foundUser, -, rfl⟩ := wf.exists_node_of_cell? hc
    obtain ⟨a, isFirst, e⟩ := Option.map_eq_some_iff.mp (head?_map ▸ head)
    have hr : a ∈ p.dependencies user := mem_of_mem_head? isFirst
    obtain rfl := wf.key_eq_of_idOf hk (wf.reads_live user a hr).1 e
    rw [convolutionReader?, find?_isSome]
    refine ⟨user, mem_users_iff.mpr hr, ?_⟩
    simp only [Bool.and_eq_true, Option.any_eq_true, beq_iff_eq]
    exact ⟨⟨st, foundUser, tag⟩, by rw [dependency?, ← head?_eq_getElem?, isFirst]⟩
  · intro h
    obtain ⟨r, res⟩ := Option.isSome_iff_exists.mp h
    obtain ⟨st, foundReader, tag, a⟩ := convolutionReader?_eq_some res
    refine ⟨st.id, p.cellAt r st, wf.cell?_of_node? foundReader, tag, ?_⟩
    show ((p.dependencies r).map p.idOf).head? = some n.id
    rw [dependency?, ← head?_eq_getElem?] at a
    rw [head?_map, a, Option.map_some, idOf_of_node? hk]

open scoped Classical in
theorem Consistent.neededReorder?_eq (wf : p.Consistent) (hk : p.node? k = some n) :
    p.network.neededReorder? (p.cellAt k n) =
      (p.neededReorder? k n).map fun pair => insertedCell pair.1 n := by
  have feeds : p.network.FeedsConvolution (p.cellAt k n).id ↔ (p.convolutionReader? k).isSome := by
    rw [id_cellAt]
    exact wf.feedsConvolution_iff hk
  have sameTag : (p.cellAt k n).tag = n.tag := rfl
  have sameLayout : (p.cellAt k n).layout = n.layout := rfl
  rw [Network.neededReorder?, neededReorder?, sameTag, sameLayout, if_congr (and_congr_right
    fun _ => feeds) rfl rfl]
  by_cases tag : n.tag = .inputLayout
  · cases res : p.convolutionReader? k with
    | none => cases n.layout <;> simp [tag, guard]
    | some r =>
      cases n.layout with
      | none => simp [guard]
      | some lay =>
        by_cases differs : lay.format = preferredFormat lay.shape.batch
        · simp [tag, differs, guard]
        · simp [tag, differs, guard]
          rfl
  · simp [tag, guard]

/-- All nodes stay under their ids, and the given keys are those of the new ones. -/
structure Grows (program next : Program) (inserted : List NodeKey) : Prop where
  stays : ∀ key, program.contains key → next.contains key ∧ next.idOf key = program.idOf key
  new : ∀ key ∈ inserted, next.contains key ∧ ¬ program.contains key
  only : ∀ key, next.contains key → program.contains key ∨ key ∈ inserted
  nodup : inserted.Nodup

namespace Grows

theorem refl (p : Program) : Grows p p [] where
  stays _ hv := ⟨hv, rfl⟩
  new _ hl := absurd hl not_mem_nil
  only _ hv := .inl hv
  nodup := nodup_nil

theorem trans {a b : List NodeKey} (grows : Grows p mid a)
    (more : Grows mid next b) : Grows p next (a ++ b) where
  stays k hv := by
    obtain ⟨hv, e⟩ := grows.stays k hv
    obtain ⟨hv, sameToo⟩ := more.stays k hv
    exact ⟨hv, sameToo.trans e⟩
  new k hl := by
    rcases mem_append.mp hl with inFirst | inSecond
    · obtain ⟨hv, ha⟩ := grows.new k inFirst
      exact ⟨(more.stays k hv).1, ha⟩
    · obtain ⟨hv, ha⟩ := more.new k inSecond
      exact ⟨hv, fun h => ha (grows.stays k h).1⟩
  only k hv := by
    rcases more.only k hv with old | inSecond
    · exact (grows.only k old).imp_right (mem_append_left b)
    · exact .inr (mem_append_right a inSecond)
  nodup := nodup_append.mpr ⟨grows.nodup, more.nodup, fun k inFirst o inSecond e =>
    (more.new o inSecond).2 (e ▸ (grows.new k inFirst).1)⟩

theorem of_inserts {ins prev r : NodeKey} {prim : Primitive} {src : Node} {pos : Nat} {moveUsers : Bool}
    (inserts : InsertsAt p next ins prev prim r pos moveUsers) (takes : TakesMarks p next ins prim src) :
    Grows p next [ins] where
  stays k hv := ⟨inserts.toInserts.contains hv, inserts.idOf takes hv⟩
  new k hl := by
    rw [mem_singleton.mp hl]
    exact ⟨inserts.contains_inserted, fun hv => inserts.different hv rfl⟩
  only k hv := by
    obtain ⟨n, hk⟩ := contains_iff.mp hv
    obtain ⟨isNew, -⟩ | ⟨-, hb⟩ := takes.cases hk
    · exact .inr (mem_singleton.mpr isNew)
    · exact .inl (contains_of_node? hb)
  nodup := nodup_singleton ins

/-- The ids of the new nodes are the new ids. -/
theorem mem_ids {ins : List NodeKey} (grows : Grows p next ins)
    (wf : p.Consistent) (after : next.Consistent) {id : String} :
    id ∈ ins.map next.idOf ↔ next.network.has id ∧ ¬ p.network.has id := by
  rw [List.mem_map, after.has_iff_contains, wf.has_iff_contains]
  constructor
  · rintro ⟨k, hl, rfl⟩
    obtain ⟨hv, ha⟩ := grows.new k hl
    refine ⟨⟨k, hv, rfl⟩, fun old => ?_⟩
    obtain ⟨o, otherLive, e⟩ := old
    obtain ⟨stays, sameId⟩ := grows.stays o otherLive
    rw [← sameId, after.idOf_inj stays hv] at e
    exact ha (e ▸ otherLive)
  · rintro ⟨⟨k, hv, e⟩, ha⟩
    rcases grows.only k hv with old | hl
    · exact absurd ⟨k, old, (grows.stays k old).2 ▸ e⟩ ha
    · exact ⟨k, hl, e⟩

end Grows

/-- **An input gets the reorder that it needs as in the network.** -/
theorem Sound.reorderInput (hs : p.Sound) (hk : p.node? k = some n) :
    Ensures (Edit.reorderInput k) p (fun ins next => next.Sound ∧ Grows p next ins.toList ∧
        (∀ new ∈ ins.toList, ∃ fmt, next.idOf new = reorderId n.id fmt) ∧
        p.network.reorderInput n.id = some next.network)
      (fun _ => p.network.reorderInput n.id = none ∧
        ∃ fr, p.network.reorder? n.id = some (some fr) ∧ p.network.has fr.id) := by
  have wf := hs.consistent
  have asked : p.network.reorder? n.id =
      some ((p.neededReorder? k n).map fun pair => insertedCell pair.1 n) := by
    rw [Network.reorder?, wf.cell?_of_node? hk, Option.map_some, wf.neededReorder?_eq hk]
  refine (ensures_reorderInput_cases hs hk).mono ?_ ?_
  · rintro _ next (⟨rfl, unneeded, rfl⟩ | ⟨_, r, ins, rfl, needed, after, inserts, takes⟩)
    · rw [unneeded, Option.map_none] at asked
      refine ⟨hs, .refl next, fun _ mem => absurd mem not_mem_nil, ?_⟩
      rw [Network.reorderInput, asked]
      rfl
    · obtain ⟨lay, -, -, isReader, -, rfl⟩ := neededReorder?_cases needed
      obtain ⟨st, foundReader, -, -⟩ := convolutionReader?_eq_some isReader
      rw [needed, Option.map_some] at asked
      refine ⟨after, .of_inserts inserts takes, fun new mem =>
        ⟨preferredFormat lay.shape.batch, ?_⟩, ?_⟩
      · rw [mem_singleton.mp mem, Program.idOf, takes.nodes, if_pos rfl]
        rfl
      rw [Network.reorderInput, asked, inserts.network takes wf hk after.consistent foundReader]
      exact Network.tryInsert_of_free (cell?_of_unused inserts.unused)
  · rintro fault ⟨prim, r, needed, isTaken, -⟩
    rw [needed, Option.map_some] at asked
    have taken := wf.hasId_iff_has.mp isTaken
    refine ⟨?_, _, asked, taken⟩
    obtain ⟨c, hc⟩ := taken
    rw [Network.reorderInput, asked]
    exact Network.tryInsert_of_taken (Option.isSome_of_eq_some hc)

/-- **Inputs get the reorders that they need as in the network.** -/
theorem Sound.reorderEach (hs : p.Sound) {ks : List NodeKey} (hv : ∀ k ∈ ks, p.contains k) :
    Ensures (Edit.reorderEach ks) p (fun ins next => next.Sound ∧ Grows p next ins ∧
        (∀ new ∈ ins, ∃ i ∈ ks, ∃ fmt, next.idOf new = reorderId (p.idOf i) fmt) ∧
        Network.run Network.reorderInput (ks.map p.idOf) p.network = some next.network)
      (fun _ => Network.run Network.reorderInput (ks.map p.idOf) p.network = none) := by
  induction ks generalizing p with
  | nil => exact ⟨hs, .refl p, fun _ mem => absurd mem not_mem_nil, rfl⟩
  | cons k rest ih =>
    obtain ⟨n, hk⟩ := contains_iff.mp (hv k mem_cons_self)
    simp only [Edit.reorderEach, ensures_bind, ensures_pure, map_cons, Network.run_cons,
      idOf_of_node? hk]
    refine (hs.reorderInput hk).mono ?_ ?_
    · rintro ins next ⟨after, grows, named, made⟩
      have stays : ∀ o ∈ rest, next.contains o ∧ next.idOf o = p.idOf o :=
        fun o mem => grows.stays o (hv o (mem_cons_of_mem k mem))
      have sameIds : rest.map next.idOf = rest.map p.idOf := map_congr_left fun o mem => (stays o mem).2
      have later := ih after fun o mem => (stays o mem).1
      rw [sameIds] at later
      rw [made, Option.bind_some]
      refine later.mono (fun others last ended => ?_) fun _ failed => failed
      obtain ⟨lastSound, growsToo, namedToo, ran⟩ := ended
      refine ⟨lastSound, grows.trans growsToo, fun new mem => ?_, ran⟩
      rcases mem_append.mp mem with a | b
      · obtain ⟨fmt, e⟩ := named new a
        refine ⟨k, mem_cons_self, fmt, ?_⟩
        rw [(growsToo.stays new (grows.new new a).1).2, e, idOf_of_node? hk]
      · obtain ⟨i, hl, fmt, e⟩ := namedToo new b
        exact ⟨i, mem_cons_of_mem k hl, fmt, (stays i hl).2 ▸ e⟩
    · intro fault h
      rw [h.1, Option.bind_none]

end Program

end LayerGraph
