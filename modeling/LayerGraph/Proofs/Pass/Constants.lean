import LayerGraph.Pass.Constants
import LayerGraph.Proofs.Pass.Setup
import LayerGraph.Proofs.Program.Construction
import LayerGraph.Proofs.Program.Replacement

/-!
# Folding constants

The constant part of a consistent program is there (`Consistent.constantPart`), and its program is
consistent. A node that is replaced by a constant buffer keeps its id, its readers and its marks; the
buffer itself reads nothing (`FoldsNode`).

The pass is taken apart once (`Build.ensures_foldConstants_cases`). It leaves a sound program sound,
whatever the build of the constant part does (`Build.ensures_foldConstants`).

The buffer is first registered under an id of its own. When this id is taken, the node that has it is
used, unless it is attached to something.
-/

namespace LayerGraph

open List Option

namespace Program

variable {p q : Program} {k : NodeKey} {n : Node}

/-! ## The constant part -/

/-- The keys of a list whose nodes satisfy a condition. -/
def matching (program : Program) (condition : NodeKey → Node → Bool) (keys : List NodeKey) :
    List NodeKey :=
  keys.filter fun key => (program.node? key).any (condition key)

variable {ks : List NodeKey} {failed : Fault → Prop}

theorem mem_matching {condition : NodeKey → Node → Bool} : k ∈ p.matching condition ks ↔ k ∈ ks ∧ ∃
    n, p.node? k = some n ∧ condition k n := by
  rw [matching, mem_filter]
  cases p.node? k with
  | none => simp
  | some n => simp

theorem selectKeys_eq (condition : NodeKey → Node → Bool) (hv : ∀ k ∈ ks, p.contains k) :
    p.selectKeys condition ks = .ok (p.matching condition ks) := by
  induction ks with
  | nil => rfl
  | cons k rest ih =>
    obtain ⟨n, found⟩ := contains_iff.mp (hv k mem_cons_self)
    have later := ih fun o mem => hv o (mem_cons_of_mem _ mem)
    simp only [selectKeys, nodeAt_of_node? found, later, bind, Except.bind, pure, Except.pure,
      matching, filter_cons, found, any_some]

/-- The constant nodes that are no constant buffers. -/
def computedConstants (program : Program) : List NodeKey :=
  program.matching (fun _ node => node.isComputedConstant) program.order.toList

/-- Those of them whose values are needed elsewhere. -/
def boundaryConstants (program : Program) : List NodeKey :=
  program.matching program.isBoundary program.computedConstants

/-- The computed constants and the constant buffers that they read. -/
def selectedConstants (program : Program) : List NodeKey :=
  program.matching (fun key node => program.computedConstants.contains key ||
    (node.tag == .data && (program.users key).any program.computedConstants.contains))
    program.order.toList

/-- The constant part of a consistent program is there. -/
theorem Consistent.constantPart (wf : p.Consistent) : p.constantPart =
    .ok ⟨p.computedConstants, p.boundaryConstants, p.selectedConstants⟩ := by
  have hv := wf.order_live
  have liveComputed : ∀ k ∈ p.computedConstants, p.contains k := fun k mem =>
    hv k (mem_of_mem_filter mem)
  have hc : p.selectKeys (fun _ n => n.isComputedConstant) p.order.toList =
    .ok p.computedConstants := selectKeys_eq _ hv
  have bd : p.selectKeys p.isBoundary p.computedConstants =
    .ok p.boundaryConstants := selectKeys_eq _ liveComputed
  have selection := selectKeys_eq (fun k n => p.computedConstants.contains k ||
    (n.tag == .data && (p.users k).any p.computedConstants.contains)) hv
  simp only [Program.constantPart, hc, bd, selection, bind, Except.bind]
  rfl

/-- Exposing the boundary only marks outputs. -/
theorem prepares_exposeBoundary (p : Program) (bd : List NodeKey) {inner : Program}
    (wf : inner.Consistent) : (p.exposeBoundary bd inner).Consistent ∧
      Prepares inner (p.exposeBoundary bd inner) := by
  rw [exposeBoundary]
  induction bd generalizing inner with
  | nil => exact ⟨wf, .refl inner⟩
  | cons k rest ih =>
    rw [foldl_cons]
    split
    · next copy named =>
      obtain ⟨kept, prep⟩ := ih (wf.setOutput copy true)
      exact ⟨kept, (Prepares.setOutput inner copy).trans prep⟩
    · exact ih wf

/-! ## Replacing a node by a constant buffer -/

theorem foldedId_ne (id : String) : foldedId id ≠ id := by
  intro e
  have lengths := congrArg String.length e
  rw [foldedId, String.length_append] at lengths
  have prefixLength : (toString "_const_prop_").length = 12 := rfl
  have idLength : (toString id).length = id.length := rfl
  omega

/-- What is registered under the id for the buffer of a node has been put in its place: a new buffer, or
a node that only this one may read. -/
structure Refills (program edited : Program) (key new : NodeKey) (node replacement : Node)
    (layout : Layout) : Prop where
  found : program.node? key = some node
  known : node.layout = some layout
  different : key ≠ new
  nodes : ∀ other, edited.node? other = if other = key then none
    else if other = new then some (replacement.inPlaceOf node)
    else program.node? other
  dependencies : ∀ other, edited.dependencies other = if other = key ∨ other = new then []
    else (program.dependencies other).map (redirected key new)
  inputs : edited.inputs = program.inputs.map (redirected key new)
  outputs : edited.outputs = program.outputs.map (redirected key new)
  settings : edited.settings = program.settings
  optimizedOut : edited.optimizedOut = program.optimizedOut
  unmarked : replacement.isOutput = false
  origin : program.keyOf? (foldedId node.id) = none ∧ program.node? new = none ∧
      replacement = .ofPrimitive (.data (foldedId node.id) layout) ∨
    program.keyOf? (foldedId node.id) = some new ∧ program.node? new = some replacement ∧
      program.dependencies new = [] ∧ ∀ reader, new ∈ program.dependencies reader → reader = key

/-- A node has been replaced by a constant buffer. -/
structure FoldsNode (program edited : Program) (key new : NodeKey) (node : Node) (layout : Layout) :
    Prop where
  found : program.node? key = some node
  known : node.layout = some layout
  vacant : program.node? new = none
  nodes : ∀ other, edited.node? other = if other = key then none
    else if other = new then
      some ((Node.ofPrimitive (.data (foldedId node.id) layout)).inPlaceOf node)
    else program.node? other
  dependencies : ∀ other, edited.dependencies other = if other = key ∨ other = new then []
    else (program.dependencies other).map (redirected key new)

/-- The id for the buffer of a node is taken by a node that only this one may read. -/
def TakenByDetached (program : Program) (key : NodeKey) : Prop :=
  ∃ node other taken, program.node? key = some node ∧ program.node? other = some taken ∧
    taken.id = foldedId node.id ∧ taken.isOutput = false ∧ program.dependencies other = [] ∧
    ∀ reader, other ∈ program.dependencies reader → reader = key

namespace Refills

variable {new : NodeKey} {rep : Node} {layout : Layout}
  (refills : Refills p q k new n rep layout)

include refills

theorem node?_new : q.node? new = some (rep.inPlaceOf n) := by
  rw [refills.nodes, if_neg (Ne.symm refills.different), if_pos rfl]

theorem contains {o : NodeKey} (ne : o ≠ k) (hv : p.contains o) : q.contains o := by
  obtain ⟨kept, found⟩ := contains_iff.mp hv
  rw [contains_iff, refills.nodes, if_neg ne]
  split
  · exact ⟨_, rfl⟩
  · exact ⟨kept, found⟩

theorem foldsNode (fr : p.keyOf? (foldedId n.id) = none) : FoldsNode p q k new n layout := by
  rcases refills.origin with ⟨-, vacant, rfl⟩ | ⟨taken, -⟩
  · exact ⟨refills.found, refills.known, vacant, refills.nodes, refills.dependencies⟩
  · rw [fr] at taken
    cases taken

theorem takenByDetached (wf : p.Consistent) {taken : NodeKey}
    (named : p.keyOf? (foldedId n.id) = some taken) : p.TakenByDetached k := by
  rcases refills.origin with ⟨fr, -⟩ | ⟨named, foundNew, alone, unread⟩
  · rw [fr] at named
    cases named
  · obtain ⟨holder, foundHolder, sameId⟩ := wf.keyOf?_eq_some.mp named
    cases foundHolder.symm.trans foundNew
    exact ⟨n, new, rep, refills.found, foundNew, sameId, refills.unmarked, alone, unread⟩

end Refills

section ReplaceByData

variable {detached registered : Program} {new : NodeKey} {layout : Layout} {model rep : Node}
  (hs : p.Sound) (found : p.node? k = some n)
  (less : ReadsLess p detached k) (empty : detached.dependencies k = [])
  (ensured : detached.ensure (.data (foldedId n.id) layout) = (registered, new))

include hs found less ensured

/-- A new buffer can take the place of a node that reads nothing any more. -/
theorem replaceable_of_fresh (fr : detached.keyOf? (foldedId n.id) = none) :
    registered.Replaceable k new n (.ofPrimitive (.data (foldedId n.id) layout)) := by
  have wf := less.consistent hs.consistent
  have fr : detached.keyOf? (Primitive.data (foldedId n.id) layout).id = none := fr
  have nodes := node?_ensure wf fr
  have vacant := node?_ensure_key wf fr
  have lists := detached.dependencies_ensure (.data (foldedId n.id) layout)
  rw [ensured] at nodes vacant lists
  have foundDetached : detached.node? k = some n := less.node? ▸ found
  have dead : ¬ detached.contains new := fun hv => by
    obtain ⟨m, foundNew⟩ := contains_iff.mp hv
    rw [vacant] at foundNew
    cases foundNew
  have ne : k ≠ new := fun e => dead (e ▸ contains_of_node? foundDetached)
  exact
    { different := ne
      foundOld := by rw [nodes, if_neg ne, foundDetached]
      foundNew := by rw [nodes, if_pos rfl]
      alone := by rw [lists, wf.dependencies_of_dead dead]
      unread := fun r hr => dead (wf.reads_live r new (lists r ▸ hr)).1
      unmarked := rfl }

include empty in
theorem refills_of_replaceable (kn : n.layout = some layout)
    (repl : registered.Replaceable k new model rep) :
    (registered.replaceNode k new model rep.id).Sound ∧
      Refills p (registered.replaceNode k new model rep.id) k new n rep layout := by
  have detachedFine := less.consistent hs.consistent
  have wf := detachedFine.ensure (.data (foldedId n.id) layout)
  have valid := (less.hasValidOrder hs.complete.toHasValidOrder).ensure (.data (foldedId n.id) layout)
  have lists := detached.dependencies_ensure (.data (foldedId n.id) layout)
  have frame := detached.ensure_frame (.data (foldedId n.id) layout)
  have nodes : ∀ o, o ≠ (detached.ensure (.data (foldedId n.id) layout)).2 →
      (detached.ensure (.data (foldedId n.id) layout)).1.node? o = p.node? o :=
    fun o ne => (node?_ensure_of_ne detachedFine ne).trans (congrFun less.node? o)
  rw [ensured] at wf valid lists frame nodes
  dsimp only at lists frame nodes
  have e : registered.order = p.order ∧ registered.inputs = p.inputs ∧ registered.outputs = p.outputs ∧
      registered.settings = p.settings ∧ registered.optimizedOut = p.optimizedOut := by
    rw [frame, less.rest]
    exact ⟨rfl, rfl, rfl, rfl, rfl⟩
  obtain ⟨order, inputs, outputs, settings, optimizedOut⟩ := e
  have isModel : model = n := by
    have foundOld := repl.foundOld
    rw [nodes k repl.different, found] at foundOld
    exact (some.inj foundOld).symm
  subst isModel
  have notSelf := valid.not_self k
  refine ⟨⟨repl.consistent wf notSelf, repl.hasCompleteOrder wf valid ?_⟩, found, kn, repl.different,
    fun o => ?_, fun o => ?_, ?_, ?_, settings, optimizedOut, repl.unmarked, ?_⟩
  · intro o hv ne
    rw [order, hs.complete.complete, contains_iff, ← nodes o ne]
    exact contains_iff.mp hv
  · rw [repl.node?]
    split
    · rfl
    · split
      · rfl
      · next ne => exact nodes o ne
  · rw [repl.dependencies wf notSelf, lists, lists]
    by_cases isKey : o = k
    · simp [isKey]
    · by_cases isNew : o = new
      · simp [isNew, empty]
      · simp [isKey, isNew, less.others o isKey]
  · exact inputs ▸ substitute_eq k new registered.inputs
  · exact outputs ▸ substitute_eq k new registered.outputs
  · have names : detached.keyOf? (foldedId model.id) = p.keyOf? (foldedId model.id) := by
      rw [less.rest]
      rfl
    have foundNew := repl.foundNew
    cases named : p.keyOf? (foldedId model.id) with
    | none =>
      have fr : detached.keyOf? (Primitive.data (foldedId model.id) layout).id = none :=
        names.trans named
      have vacant := node?_ensure_key detachedFine fr
      have placed := node?_ensure detachedFine fr new
      rw [ensured, less.node?] at vacant
      rw [ensured, if_pos rfl, foundNew] at placed
      exact .inl ⟨rfl, vacant, some.inj placed⟩
    | some taken =>
      have h : detached.ensure (.data (foldedId model.id) layout) = (detached, taken) :=
        ensure_of_keyOf? (names.trans named)
      obtain ⟨rfl, rfl⟩ := Prod.mk.inj (ensured.symm.trans h)
      refine .inr ⟨rfl, less.node? ▸ foundNew, ?_, fun r hr => ?_⟩
      · rw [← less.others new (Ne.symm repl.different)]
        exact repl.alone
      · by_contra ne
        exact repl.unread r (less.others r ne ▸ hr)

end ReplaceByData

/-- **Nothing happens to a node without a known layout.** Any other one is made to read nothing, and what
is registered under the id for its buffer is put in its place. This fails only when the id is taken. -/
theorem ensures_replaceByData_refills (hs : p.Sound) (found : p.node? k = some n) :
    Ensures (Edit.replaceByData k) p (fun _ q => q.Sound ∧ (n.layout = none ∧ q = p ∨
        ∃ new rep layout, Refills p q k new n rep layout))
      fun fault => ¬ fault.BlamesProgram ∧ ∃ layout taken, n.layout = some layout ∧
        p.keyOf? (foldedId n.id) = some taken := by
  simp only [Edit.replaceByData, ensures_bind, ensures_nodeAt found]
  split
  · next unknown => exact ⟨hs, .inl ⟨unknown, rfl⟩⟩
  next layout kn =>
  simp only [ensures_bind, ensures_get]
  refine (ensures_disconnectAll hs.consistent k).weaken ?_
  rintro _ detached ⟨less, empty⟩
  rw [ensures_ensure]
  obtain ⟨registered, new, ensured⟩ : ∃ registered new,
    detached.ensure (.data (foldedId n.id) layout) = (registered, new) := ⟨_, _, rfl⟩
  have names : detached.keyOf? (foldedId n.id) = p.keyOf? (foldedId n.id) := by
    rw [less.rest]
    rfl
  have outcome : k ≠ new ∧ ((∀ model rep, ¬ registered.Replaceable k new model rep) →
      ∃ taken, p.keyOf? (foldedId n.id) = some taken) := by
    cases named : p.keyOf? (foldedId n.id) with
    | none =>
      have repl := replaceable_of_fresh hs found less ensured (names.trans named)
      exact ⟨repl.different, fun never => absurd repl (never _ _)⟩
    | some taken =>
      have h : detached.ensure (.data (foldedId n.id) layout) = (detached, taken) :=
        ensure_of_keyOf? (names.trans named)
      obtain ⟨rfl, rfl⟩ := Prod.mk.inj (ensured.symm.trans h)
      refine ⟨?_, fun _ => ⟨new, rfl⟩⟩
      -- The id for the buffer is not the id of the node, so the two are different nodes.
      rintro rfl
      obtain ⟨holder, foundHolder, sameId⟩ := hs.consistent.keyOf?_eq_some.mp named
      cases foundHolder.symm.trans found
      exact foldedId_ne n.id sameId.symm
  rw [ensured]
  refine (ends_replace k new).mono ?_ fun _ _ h => ⟨h.1.1, layout, ?_⟩
  · rintro _ q (⟨-, e, -⟩ | ⟨model, rep, repl, rfl⟩)
    · exact absurd e outcome.1
    · exact (refills_of_replaceable hs found less empty ensured kn repl).imp_right
        fun h => .inr ⟨new, _, layout, h⟩
  · obtain ⟨taken, named⟩ := outcome.2 h.2.2
    exact ⟨taken, kn, named⟩

/-- **A node with a known layout is replaced by a constant buffer,** unless the id for the buffer is
taken. -/
theorem ensures_replaceByData (hs : p.Sound) (hv : p.contains k) :
    Ensures (Edit.replaceByData k) p (fun _ q => q.Sound ∧ q.settings = p.settings ∧
      (∀ o, o ≠ k → p.contains o → q.contains o) ∧
      (q = p ∨ (∃ new n layout, FoldsNode p q k new n layout) ∨
        p.TakenByDetached k)) Fault.SparesProgram := by
  obtain ⟨n, found⟩ := contains_iff.mp hv
  refine (ensures_replaceByData_refills hs found).mono ?_ fun _ h => h.1
  rintro _ q ⟨after, ⟨-, rfl⟩ | ⟨new, rep, layout, refills⟩⟩
  · exact ⟨after, rfl, fun _ _ h => h, .inl rfl⟩
  refine ⟨after, refills.settings, fun o => refills.contains, .inr ?_⟩
  cases named : p.keyOf? (foldedId n.id) with
  | none => exact .inl ⟨new, n, layout, refills.foldsNode named⟩
  | some taken => exact .inr (refills.takenByDetached hs.consistent named)

theorem node?_of_prune? (wf : p.Consistent) (res : p.prune? k = some q)
    {o : NodeKey} (found : q.node? o = some n) : p.node? o = some n := by
  obtain ⟨removed, foundRemoved, -, -, rfl⟩ := prune?_eq_some.mp res
  rw [node?_detachAndErase wf.slots foundRemoved] at found
  split at found
  · cases found
  · exact found

/-- Removing what nobody reads leaves a sound program sound, and all other nodes as they are. -/
theorem ensures_pruneAll (hs : p.Sound) (ks : List NodeKey) : Ensures (ks.forM fun k => discard
    (Edit.prune k)) p (fun _ q => q.Sound ∧ Prepares p q ∧ ∀ k n, q.node? k = some n → p.node? k = some
    n) failed := by
  refine ensures_forM (fun _ st => Sound st ∧ Prepares p st ∧ ∀ k n, st.node? k = some n → p.node? k =
    some n) ?_ ⟨hs, .refl p, fun _ _ found => found⟩
  rintro k rest st ⟨kept, pre, e⟩
  rw [ensures_discard, Edit.prune]
  refine ensures_attempt (fun q res => ?_) fun _ => ⟨kept, pre, e⟩
  obtain ⟨wf, -, complete⟩ := kept.consistent.prune? res
  exact ⟨⟨wf, complete kept.complete⟩, pre.trans (.prune kept.consistent res),
    fun o n found => e o n (node?_of_prune? kept.consistent res found)⟩

/-- Replacing several nodes keeps what replacing one of them keeps. -/
theorem ensures_replaceAllByData (keeps : Program → Prop) (round : ∀ k st, Sound st → st.contains k →
    keeps st → Ensures (Edit.replaceByData k) st (fun _ next => keeps next) failed) (hs : p.Sound)
    (start : keeps p) (nodup : ks.Nodup) (hv : ∀ k ∈ ks, p.contains k) : Ensures (ks.forM
    Edit.replaceByData) p (fun _ q => q.Sound ∧ keeps q) failed := by
  refine (ensures_forM (fun rest st => (st.Sound ∧ keeps st) ∧ rest.Nodup ∧
    ∀ k ∈ rest, st.contains k) ?_ ⟨⟨hs, start⟩, nodup, hv⟩).weaken fun _ _ kept => kept.1
  rintro k rest st ⟨⟨kept, holds⟩, nd, alive⟩
  obtain ⟨ha, nd⟩ := nodup_cons.mp nd
  have liveHere := alive k mem_cons_self
  refine ((round k st kept liveHere holds).and (ensures_replaceByData kept liveHere)).weaken ?_
  rintro _ next ⟨holdsNext, soundNext, -, stays, -⟩
  exact ⟨⟨soundNext, holdsNext⟩, nd, fun o mem =>
    stays o (fun e => ha (e ▸ mem)) (alive o (mem_cons_of_mem _ mem))⟩

theorem Consistent.boundaryConstants_nodup (wf : p.Consistent) : p.boundaryConstants.Nodup :=
  (wf.order_nodup.filter _).filter _

theorem Consistent.selectedConstants_nodup (wf : p.Consistent) : p.selectedConstants.Nodup :=
  wf.order_nodup.filter _

theorem Consistent.boundaryConstants_live (wf : p.Consistent) :
    ∀ k ∈ p.boundaryConstants, p.contains k := fun k mem =>
  wf.order_live k (mem_of_mem_filter (mem_of_mem_filter mem))

/-- The program of the constant part, with its boundary exposed, is consistent. -/
theorem Consistent.exposedConstants (wf : p.Consistent) {num : Nat} {opts : Options} {cp : Program}
    (res : ofNodes num p p.selectedConstants opts = .ok cp) :
    (p.exposeBoundary p.boundaryConstants cp).Consistent ∧
      (p.exposeBoundary p.boundaryConstants cp).settings = (num, opts, true) := by
  have isCopy := isCopy_ofNodes wf wf.selectedConstants_nodup res
  obtain ⟨exposed, prep⟩ := p.prepares_exposeBoundary _ isCopy.consistent
  exact ⟨exposed, prep.settings.trans (congrArg Program.settings isCopy.rest)⟩

end Program

namespace Build

open Program

variable {s : Session}

variable {done : Session → Prop} {failed : Fault → Prop} {buildInner : Build Unit}

theorem ensures_within {inner : Program} {build : Build Unit} {done : Program → Session → Prop} : Ensures
    (within inner build) s done failed ↔ Ensures build (innerSession s inner) (fun _ fin => done
    fin.program (outerSession s fin)) failed := by
  simp only [Ensures, within]
  cases build (innerSession s inner) with
  | ok v fin => rfl
  | error fault fin => rfl

/-- The program of the constant part, if it can be made. -/
abbrev copiedConstants (session : Session) : Except Error Program :=
  ofNodes session.nextProgram session.program session.program.selectedConstants
    session.program.options.forConstants

/-- The session in which the copied constant part of a program is built. -/
def constantSession (session : Session) (copied : Program) : Session :=
  innerSession { session with nextProgram := session.nextProgram + 1 }
    (session.program.exposeBoundary session.program.boundaryConstants copied)

/-- A session in which the constant part of a program can be built. -/
structure IsInner (session inner : Session) : Prop where
  surroundings : inner.surroundings = session.surroundings
  consistent : inner.program.Consistent
  settings : inner.program.settings =
    (session.nextProgram, session.program.options.forConstants, true)

theorem IsInner.options {inner : Session} (isInner : IsInner s inner) :
    inner.program.options = s.program.options.forConstants :=
  congrArg (·.2.1) isInner.settings

theorem IsInner.id {inner : Session} (isInner : IsInner s inner) : inner.program.id = s.nextProgram :=
  congrArg (·.1) isInner.settings

theorem isInner_constantSession (wf : s.program.Consistent) {cp : Program}
    (res : copiedConstants s = .ok cp) : IsInner s (constantSession s cp) := by
  obtain ⟨exposed, settings⟩ := wf.exposedConstants res
  exact ⟨rfl, exposed, settings⟩

/-- The session after the constant part has been built and evaluated, with a program in which it is
replaced. -/
def foldedSession (session finished : Session) (program : Program) : Session :=
  { session with
    program, nextProgram := finished.nextProgram
    trace := { finished.trace with calls := finished.trace.calls ++ [.fold finished.program] } }

/-- Folding constants does nothing, or it builds the constant part, replaces the boundary and removes
what is not read any more. -/
theorem ensures_foldConstants_cases (finishes : Session → Prop) (hs : s.program.Sound) (idle : done s)
    (refused : ∀ error, copiedConstants s = .error error → failed (.refused error))
    (built : ∀ cp, copiedConstants s = .ok cp →
      Ensures buildInner (constantSession s cp) (fun _ fin => finishes fin) failed)
    (answered : ∀ calls call fault, s.surroundings.backend.answer calls call = .error fault →
      failed fault) (replaces : ∀ fin, finishes fin →
      Ensures (s.program.boundaryConstants.forM Edit.replaceByData) s.program (fun _ replaced =>
        replaced.Sound ∧ ∀ pruned, pruned.Sound → Prepares replaced pruned →
          (∀ k n, pruned.node? k = some n → replaced.node? k = some n) →
          done (foldedSession s fin pruned)) failed) :
    Ensures (foldConstants buildInner) s (fun _ next => done next) failed := by
  simp only [foldConstants, ensures_bind, ensures_program, hs.consistent.constantPart,
    Checked.lift, ensures_pure]
  split
  · exact idle
  simp only [ensures_bind, takeNumber, ensures_modifyGet]
  refine ensures_error (fun cp res => ?_) refused
  rw [ensures_within]
  refine (built cp res).weaken fun _ fin finish => ?_
  refine ensures_call _ ?_ (answered _ _)
  rw [ensures_edit]
  refine (replaces fin finish).weaken ?_
  rintro _ replaced ⟨kept, ends⟩
  rw [ensures_edit]
  refine (ensures_pruneAll kept _).weaken ?_
  rintro _ pruned ⟨last, prep, e⟩
  exact ends pruned last prep e

/-- Folding constants blames the program only if the backend does. -/
theorem ensures_foldConstants_of (finishes : Session → Prop) (hs : s.program.Sound) (idle : done s)
    (built : ∀ cp, copiedConstants s = .ok cp → Ensures buildInner (constantSession s cp) (fun _
    fin => finishes fin) s.surroundings.Excuses) (replaces : ∀ fin, finishes fin → Ensures
    (s.program.boundaryConstants.forM Edit.replaceByData) s.program (fun _ replaced => replaced.Sound ∧ ∀
    pruned, pruned.Sound → Prepares replaced pruned → (∀ k n, pruned.node? k = some n → replaced.node? k
    = some n) → done (foldedSession s fin pruned)) Fault.SparesProgram) : Ensures (foldConstants
    buildInner) s (fun _ next => done next) s.surroundings.Excuses := by
  refine ensures_foldConstants_cases finishes hs idle (fun _ refused blames => ?_) built
    (fun calls call _ answer _ => ⟨calls, call, answer⟩) fun fin finish => ?_
  · exact absurd blames (ofNodes_refused refused)
  · exact (replaces fin finish).mono (fun _ _ h => h) fun _ proper blames => absurd blames proper

/-- **Folding constants leaves a sound program sound,** and its settings as they are. -/
theorem ensures_foldConstants (hs : s.program.Sound) (built : ∀ inner, IsInner s inner → Ensures
    buildInner inner (fun _ _ => True) s.surroundings.Excuses) : Ensures (foldConstants buildInner) s
    (fun _ next => next.program.Sound ∧ next.program.settings = s.program.settings ∧ next.surroundings =
    s.surroundings) s.surroundings.Excuses := by
  refine ensures_foldConstants_of (fun _ => True) hs ⟨hs, rfl, rfl⟩
    (fun cp res => built _ (isInner_constantSession hs.consistent res)) fun _ _ => ?_
  refine (ensures_replaceAllByData (·.settings = s.program.settings) ?_ hs rfl
    hs.consistent.boundaryConstants_nodup hs.consistent.boundaryConstants_live).weaken
    fun _ replaced kept =>
      ⟨kept.1, fun pruned last prep _ => ⟨last, prep.settings.trans kept.2, rfl⟩⟩
  intro k st kept hv e
  exact (ensures_replaceByData kept hv).weaken fun _ _ h => h.2.1.trans e

end Build

end LayerGraph
