import LayerGraph.Proofs.Build.Calls
import LayerGraph.Proofs.Meaning.Preservation

/-!
# The inputs of a build

The inputs of a program are collected when it is made: they are the nodes that read nothing. A build
keeps the list up to date when nodes are removed, but it does not collect it again. So every input of a
finished program is a node that reads nothing, and no input is listed twice, but there may be nodes that
read nothing and are not listed (`Topology.inputs_are_sources`). There are two kinds of them:

* a constant buffer that has replaced a computed constant,
* a network input that was declared to read something. It stays when no output depends on it, but what
  it reads is removed.

What one step of a pass does to the nodes that read nothing is said by `Program.KeepsSources`; what holds
all along is said by `Program.ListsSources`. Folding constants never touches the inputs themselves, since
only nodes that read something are marked constant (`Program.MarksReaders`).
-/

namespace LayerGraph

open List Option

/-- The topology declares a primitive, under this or another id. -/
def Topology.Offers (topology : Topology) (primitive : Primitive) : Prop :=
  ∃ declared ∈ topology.primitives, primitive = { declared with id := primitive.id }

/-- Why a node may read nothing without being listed: it stands for a constant that one of the given
programs has computed, or it is a network input that was to read something. -/
def Topology.Overlooks (topology : Topology) (folded : List Program) (primitive : Primitive) : Prop :=
  primitive.tag = .data ∧ (∃ inner ∈ folded, inner.HasOutput primitive.id) ∨
    primitive.tag = .inputLayout ∧ primitive.inputs ≠ [] ∧ topology.Offers primitive

theorem Topology.Overlooks.mono {topology : Topology} {folded more : List Program}
    {prim : Primitive} (overlooks : topology.Overlooks folded prim)
    (subset : folded ⊆ more) : topology.Overlooks more prim := by
  rcases overlooks with ⟨tag, inner, mem, output⟩ | lay
  · exact .inl ⟨tag, inner, subset mem, output⟩
  · exact .inr lay

namespace Program

variable {p q : Program} {key : NodeKey} {node : Node} {topology : Topology}
  {folded : List Program}

/-! ## What holds all along -/

/-- The inputs are nodes that read nothing, each is listed once, and nodes that read nothing without
being listed are overlooked for a reason. -/
structure ListsSources (topology : Topology) (folded : List Program) (program : Program) : Prop where
  nodup : program.inputs.Nodup
  listed : ∀ key node, key ∈ program.inputs → program.node? key = some node →
    node.primitive.inputs = [] ∧ program.dependencies key = []
  unlisted : ∀ key node, program.node? key = some node → program.dependencies key = [] →
    key ∈ program.inputs ∨ topology.Overlooks folded node.primitive
  /-- Network inputs are declared, and read nothing if they are not declared to. -/
  layouts : ∀ key node, program.node? key = some node → node.tag = .inputLayout →
    topology.Offers node.primitive ∧ (node.primitive.inputs = [] → program.dependencies key = [])

namespace ListsSources

theorem mono {more : List Program} (lists : p.ListsSources topology folded)
    (subset : folded ⊆ more) : p.ListsSources topology more where
  nodup := lists.nodup
  listed := lists.listed
  unlisted key node hk none := (lists.unlisted key node hk none).imp_right (·.mono subset)
  layouts := lists.layouts

/-- **A step of a pass keeps what the inputs list.** -/
theorem step (lists : p.ListsSources topology folded) (keeps : KeepsSources p q) :
    q.ListsSources topology folded where
  nodup := lists.nodup.sublist keeps.inputs.fewer
  listed key node hl hk := by
    have pre := keeps.inputs.fewer.subset hl
    rcases keeps.nodes key node hk with ⟨old, foundOld, e, stays, -⟩ | ⟨ha, -⟩
    · obtain ⟨plain, none⟩ := lists.listed key old pre foundOld
      exact ⟨e ▸ plain, stays none⟩
    · exact absurd pre ha
  unlisted key node hk none := by
    rcases keeps.nodes key node hk with ⟨old, foundOld, e, -, loses⟩ | ⟨-, hr, -⟩
    · by_cases pre : p.dependencies key = []
      · rcases lists.unlisted key old foundOld pre with hl | overlooked
        · exact .inl (keeps.inputs.stay key hl (contains_of_node? hk))
        · exact .inr (e ▸ overlooked)
      · -- Only a network input can have lost what it reads, and it was declared to read something.
        have isInput := (loses none).resolve_left pre
        have tag : old.tag = .inputLayout := (congrArg Primitive.tag e).trans isInput
        obtain ⟨offered, quiet⟩ := lists.layouts key old foundOld tag
        exact .inr (.inr ⟨isInput, e ▸ fun plain => pre (quiet plain), e ▸ offered⟩)
    · exact absurd none hr
  layouts key node hk tag := by
    rcases keeps.nodes key node hk with ⟨old, foundOld, e, stays, -⟩ | ⟨-, -, _, kind⟩
    · obtain ⟨offered, quiet⟩ := lists.layouts key old foundOld ((congrArg Primitive.tag e).trans tag)
      exact ⟨e ▸ offered, fun plain => stays (quiet (e ▸ plain))⟩
    · rw [Node.tag_of_kind kind] at tag
      cases tag

end ListsSources

/-! ## Folding constants -/

/-- A node stands in the place of another one with a given id and reads nothing. It is a new constant
buffer, or it has been there before. -/
structure Substitutes (program edited : Program) (new : NodeKey) (id : String) : Prop where
  inputs : edited.inputs = program.inputs
  others : ∀ other node, other ≠ new → edited.node? other = some node → program.node? other = some node ∧
    (edited.dependencies other = [] ↔ program.dependencies other = [])
  reads : edited.dependencies new = []
  origin : ∀ node, edited.node? new = some node → node.id = id ∧
    (new ∉ program.inputs ∧ node.tag = .data ∨ ∃ before, program.node? new = some before ∧
      program.dependencies new = [] ∧ node.primitive = { before.primitive with id })

variable {new : NodeKey}

theorem Refills.substitutes {rep : Node} {lay : Layout} (refills : Refills p q key new node rep
    lay) (wf : p.Consistent) (unlisted : key ∉ p.inputs) : Substitutes p q new node.id where
  inputs := refills.inputs.trans (map_redirected_of_not_mem unlisted new)
  others o m isOther there := by
    rw [refills.nodes] at there
    split at there
    · cases there
    · next notKey =>
      refine ⟨there, ?_⟩
      rw [refills.dependencies, if_neg (not_or.mpr ⟨notKey, isOther⟩), map_eq_nil_iff]
  reads := by rw [refills.dependencies, if_pos (.inr rfl)]
  origin m there := by
    cases refills.node?_new.symm.trans there
    refine ⟨rfl, ?_⟩
    rcases refills.origin with ⟨-, vacant, rfl⟩ | ⟨-, foundNew, alone, -⟩
    · refine .inl ⟨fun hl => ?_, rfl⟩
      obtain ⟨pre, hb⟩ := contains_iff.mp (wf.inputs_live new hl)
      rw [vacant] at hb
      cases hb
    · exact .inr ⟨rep, foundNew, alone, rfl⟩

/-- **A constant buffer in the place of a computed constant is overlooked,** unless it was listed
before. -/
theorem ListsSources.substitute {id : String} (lists : p.ListsSources topology folded) (substitutes :
    Substitutes p q new id) (hc : ∃ inner ∈ folded, inner.HasOutput id) : q.ListsSources topology
    folded where
  nodup := substitutes.inputs ▸ lists.nodup
  listed key node hl hk := by
    rw [substitutes.inputs] at hl
    by_cases isNew : key = new
    · subst isNew
      obtain ⟨-, ⟨ha, -⟩ | ⟨pre, hb, -, e⟩⟩ := substitutes.origin node hk
      · exact absurd hl ha
      · refine ⟨?_, substitutes.reads⟩
        rw [e]
        exact (lists.listed key pre hl hb).1
    · obtain ⟨hb, hr⟩ := substitutes.others key node isNew hk
      obtain ⟨plain, none⟩ := lists.listed key node hl hb
      exact ⟨plain, hr.mpr none⟩
  unlisted key node hk none := by
    rw [substitutes.inputs]
    by_cases isNew : key = new
    · subst isNew
      obtain ⟨sameId, ⟨-, tag⟩ | ⟨pre, hb, nothing, e⟩⟩ := substitutes.origin node hk
      · subst sameId
        exact .inr (.inl ⟨tag, hc⟩)
      · rcases lists.unlisted key pre hb nothing with hl | overlooked
        · exact .inl hl
        · refine .inr ?_
          rw [e]
          rcases overlooked with ⟨tag, -⟩ | ⟨tag, hr, hd, offers, isDeclared⟩
          · exact .inl ⟨tag, hc⟩
          · refine .inr ⟨tag, hr, hd, offers, ?_⟩
            rw [isDeclared]
    · obtain ⟨hb, hr⟩ := substitutes.others key node isNew hk
      exact lists.unlisted key node hb (hr.mp none)
  layouts key node hk tag := by
    by_cases isNew : key = new
    · subst isNew
      obtain ⟨-, ⟨-, data⟩ | ⟨pre, hb, nothing, e⟩⟩ := substitutes.origin node hk
      · rw [tag] at data
        cases data
      · refine ⟨?_, fun _ => substitutes.reads⟩
        have tagBefore : pre.tag = .inputLayout := by
          rw [Node.tag, e] at tag
          exact tag
        obtain ⟨hd, offers, isDeclared⟩ := (lists.layouts key pre hb tagBefore).1
        refine ⟨hd, offers, ?_⟩
        rw [e, isDeclared]
    · obtain ⟨hb, hr⟩ := substitutes.others key node isNew hk
      obtain ⟨offered, quiet⟩ := lists.layouts key node hb tag
      exact ⟨offered, fun plain => hr.mpr (quiet plain)⟩

/-- Replacing several computed constants keeps what the inputs list. -/
theorem ensures_replaceAllByData_lists (hs : p.Sound)
    (lists : p.ListsSources topology folded) {ks : List NodeKey} (nodup : ks.Nodup)
    (hc : ∀ key ∈ ks, ∃ node, p.node? key = some node ∧ key ∉ p.inputs ∧
      ∃ inner ∈ folded, inner.HasOutput node.id) : Ensures (ks.forM Edit.replaceByData) p
      (fun _ q => q.Sound ∧ q.ListsSources topology folded) Fault.SparesProgram := by
  refine (ensures_forM (fun rest (st : Program) => (st.Sound ∧ st.ListsSources topology folded) ∧
    rest.Nodup ∧ ∀ key ∈ rest, ∃ node, st.node? key = some node ∧ key ∉ st.inputs ∧ ∃ inner ∈ folded,
    inner.HasOutput node.id) ?_ ⟨⟨hs, lists⟩, nodup, hc⟩).weaken fun _ _ kept => kept.1
  rintro key rest st ⟨⟨kept, hl⟩, nd, kn⟩
  obtain ⟨ha, nd⟩ := nodup_cons.mp nd
  obtain ⟨node, hk, unlisted, isComputed⟩ := kn key mem_cons_self
  refine (ensures_replaceByData_refills kept hk).mono ?_ fun _ h => h.1
  rintro _ next ⟨soundNext, ⟨-, rfl⟩ | ⟨new, rep, lay, refills⟩⟩
  · exact ⟨⟨soundNext, hl⟩, nd, fun o mem =>
      kn o (mem_cons_of_mem _ mem)⟩
  · have substitutes := refills.substitutes kept.consistent unlisted
    refine ⟨⟨soundNext, hl.substitute substitutes isComputed⟩, nd, fun o mem => ?_⟩
    obtain ⟨pre, hb, unlistedOther, computedOther⟩ := kn o (mem_cons_of_mem _ mem)
    have ne : o ≠ key := fun e => ha (e ▸ mem)
    obtain ⟨after, foundAfter⟩ := contains_iff.mp (refills.contains ne (contains_of_node? hb))
    refine ⟨after, foundAfter, substitutes.inputs ▸ unlistedOther, ?_⟩
    by_cases isNew : o = new
    · subst isNew
      rw [(substitutes.origin after foundAfter).1]
      exact isComputed
    · have e := (substitutes.others o after isNew foundAfter).1
      cases hb.symm.trans e
      exact computedOther

/-! ## Marks -/

/-- A computed constant is declared to read something. -/
def MarksReaders (program : Program) : Prop :=
  program.EachNode fun _ node => node.isComputedConstant → node.primitive.inputs ≠ []

/-- Nothing is read that is not declared to be read. -/
def ReadsDeclared (program : Program) : Prop :=
  ∀ key node, program.node? key = some node → node.primitive.inputs = [] → program.dependencies key = []

theorem Unmarked.marksReaders (unmarked : p.Unmarked) : p.MarksReaders := by
  intro key node hk hc
  rw [unmarked key node hk] at hc
  cases hc

theorem durable_marksReaders : Node.Durable fun _ node =>
    node.isComputedConstant → node.primitive.inputs ≠ [] where
  fused _ _ _ h := h
  widened _ _ _ h := h
  reorder _ _ _ _ _ _ hr _ := hr

theorem ReadsDeclared.altered (hd : p.ReadsDeclared)
    (alters : Alters Node.primitive p q) : q.ReadsDeclared := by
  intro key node hk plain
  obtain ⟨pre, hb, e⟩ := alters.node? hk
  rw [alters.dependencies]
  exact hd key pre hb (e ▸ plain)

/-- A node that reads nothing keeps its mark. -/
theorem MarksReaders.markConstant (marks : p.MarksReaders) (hd : p.ReadsDeclared)
    (key : NodeKey) : (p.markConstant key).MarksReaders := by
  rw [Program.markConstant]
  split
  · exact marks
  · next hr =>
    intro o node hk
    rw [node?_modifyNode] at hk
    split at hk
    · next isKey =>
      obtain ⟨pre, hb, rfl⟩ := map_eq_some_iff.mp hk
      intro _ plain
      refine hr ?_
      rw [dependencyNodes, ← isKey, hd o pre hb plain, filterMap_nil]
    · exact marks o node hk

/-- **Only nodes that read something are marked constant.** -/
theorem ensures_markAll_marksReaders (unmarked : p.MarksReaders)
    (hd : p.ReadsDeclared) (ks : List NodeKey) :
    Ensures (ks.forM Edit.markNode) p (fun _ next => next.MarksReaders) := by
  refine (ensures_forM (fun _ (st : Program) => st.MarksReaders ∧ st.ReadsDeclared) ?_
    ⟨unmarked, hd⟩).weaken fun _ _ kept => kept.1
  intro key rest st kept
  have con := kept.1.markConstant kept.2 key
  have alters : Alters Node.primitive st (st.markConstant key) := by
    rw [Program.markConstant]
    split
    · exact .refl st
    · exact .modifyNode st key fun _ => rfl
  simp only [Edit.markNode, Edit.markConstant, Edit.markDataFlow, Edit.nodeAt, ensures_bind,
    ensures_modify, ensures_get]
  refine ensures_checked fun node _ => ?_
  exact ⟨EachNode.modifyNode con key fun _ h => h,
    (kept.2.altered alters).altered (.modifyNode _ key fun _ => rfl)⟩

/-- What is folded is not listed. -/
theorem ListsSources.not_mem_of_boundary (lists : p.ListsSources topology folded)
    (marks : p.MarksReaders) (mem : key ∈ p.boundaryConstants) : key ∉ p.inputs := by
  intro hl
  obtain ⟨-, node, hk, hc⟩ := mem_matching.mp (mem_of_mem_filter mem)
  exact marks key node hk hc (lists.listed key node hl hk).1

/-! ## The program of a topology -/

theorem Declares.readsDeclared (declares : p.Declares topology) : p.ReadsDeclared := by
  intro key node hk plain
  have hr := declares.reads key node hk
  rw [plain] at hr
  exact map_eq_nil_iff.mp hr

/-- A primitive that reads nothing is no crop, so it is declared. -/
theorem Declares.mem_primitives_of_inputs (declares : p.Declares topology)
    (hk : p.node? key = some node) (plain : node.primitive.inputs = []) :
    node.primitive ∈ topology.primitives := by
  rcases declares.origin key node hk with hd | ⟨split, -, crop⟩
  · exact hd
  · obtain ⟨i, -, hr⟩ := inputs_of_mem_cropsOf crop
    rw [plain] at hr
    cases hr

/-- **The program of a topology lists exactly the nodes that read nothing.** -/
theorem Declares.listsSources (declares : p.Declares topology)
    (wf : p.Consistent) : p.ListsSources topology [] where
  nodup := by
    refine Nodup.of_map p.idOf (declares.inputs ▸ ?_)
    have ids := wf.names_nodup
    rw [declares.ids] at ids
    exact (nodup_append.mp ids).1.sublist (filter_sublist.map _)
  listed key node hl hk := by
    have id : node.id ∈ (topology.primitives.filter (·.inputs.isEmpty)).map (·.id) :=
      declares.inputs ▸ List.mem_map.mpr ⟨key, hl, idOf_of_node? hk⟩
    obtain ⟨prim, mem, sameId⟩ := List.mem_map.mp id
    obtain ⟨hd, plain⟩ := mem_filter.mp mem
    obtain ⟨place, there, named, foundThere, rfl⟩ := declares.declared prim hd
    rw [sameId, wf.keyOf?_id hk] at named
    cases named
    cases hk.symm.trans foundThere
    have plain := List.isEmpty_iff.mp plain
    exact ⟨plain, declares.readsDeclared key node hk plain⟩
  unlisted key node hk none := by
    have plain : node.primitive.inputs = [] := by
      rw [← declares.reads key node hk, none, map_nil]
    have mem : node.primitive ∈ topology.primitives.filter (·.inputs.isEmpty) :=
      mem_filter.mpr ⟨declares.mem_primitives_of_inputs hk plain, List.isEmpty_iff.mpr plain⟩
    have id : node.id ∈ p.inputs.map p.idOf :=
      declares.inputs ▸ List.mem_map.mpr ⟨node.primitive, mem, rfl⟩
    obtain ⟨place, hl, sameId⟩ := List.mem_map.mp id
    obtain ⟨there, foundThere⟩ := contains_iff.mp (wf.inputs_live place hl)
    rw [idOf_of_node? foundThere] at sameId
    exact .inl (wf.key_eq_of_id_eq foundThere hk sameId ▸ hl)
  layouts key node hk tag := by
    refine ⟨?_, declares.readsDeclared key node hk⟩
    rcases declares.origin key node hk with hd | ⟨split, -, crop⟩
    · exact ⟨node.primitive, hd, rfl⟩
    · obtain ⟨-, offset, features, -, kind⟩ := cases_of_mem_cropsOf crop
      rw [Node.tag, Primitive.tag, kind] at tag
      cases tag

end Program

/-! ## Builds -/

namespace Session

open Program

/-- How far a build has come: the program has been set up, or there is no order yet, and the inputs list
what they should. -/
structure Lists (topology : Topology) (also : Program → Prop) (session : Session) : Prop where
  stage : session.program.Unset ∨ session.program.Sound
  sources : session.program.ListsSources topology session.trace.folded
  also : also session.program

variable {s next : Session}

theorem Lists.stable {topology : Topology} {also : Program → Prop} (lists : Lists topology also s) (e :
    next.program = s.program) (folded : next.trace.folded = s.trace.folded) : Lists topology also next :=
  ⟨e ▸ lists.stage, e ▸ folded ▸ lists.sources, e ▸ lists.also⟩

theorem Silent.folded (silent : s.Silent next) : next.trace.folded = s.trace.folded := by
  rw [Trace.folded, Trace.folded, silent.calls]

end Session

namespace Build

open Program Session

variable {s : Session} {folding : Build Unit} {pass : Pass} {topology : Topology}
  {also later : Program → Prop}

/-- A pass other than the first one and the folding of constants keeps what the inputs list. -/
theorem ensures_runWith_lists (lists : Lists topology also s) (notFirst : pass ≠ .setUp)
    (notFolding : pass ≠ .foldConstants) (idle : ∀ p, also p → later p)
    (regroups : ∀ p : Program, later p → later p.orderBreadthFirst)
    (body : s.program.Sound → also s.program → Ensures (pass.body folding) s
      (fun _ next => later next.program)) :
    Ensures (runWith folding pass) s (fun _ next => Lists topology later next) := by
  have skipped : Lists topology later s := ⟨lists.stage, lists.sources, idle _ lists.also⟩
  refine ensures_runWith_placed (fun pre after e silent h =>
    h.stable e silent.folded) (fun _ => ?_) fun _ => skipped
  rcases lists.stage with unset | hs
  · by_cases ordering : pass = .orderBreadthFirst
    · subst ordering
      intro placed
      have acyclic := unset.firstMisplaced?_orderBreadthFirst.mp placed
      have sources := skipped.sources
      exact ⟨.inr (unset.consistent.sound_orderBreadthFirst unset.unordered acyclic),
        ⟨sources.nodup, sources.listed, sources.unlisted, sources.layouts⟩, regroups _ skipped.also⟩
    · apply (ensures_body_unset unset notFirst ordering notFolding).weaken
      intro _ next e _
      subst e
      exact skipped.stable rfl rfl
  · have adv : Ensures (pass.body folding) s (fun _ next => s.Advances next) :=
      (ensures_body hs folding notFirst notFolding).mono fun _ _ h => h
    apply (adv.and (body hs lists.also)).weaken
    intro _ next h _
    obtain ⟨adv, holds⟩ := h
    exact ⟨.inr (adv.rewrites.sound hs), adv.folded ▸
      adv.rewrites.of_sources hs (fun keeps h => h.step keeps) lists.sources, holds⟩

/-- **Folding constants leaves the inputs alone.** What replaces a computed constant is overlooked. -/
theorem ensures_foldConstants_lists (lists : Lists topology MarksReaders s) :
    Ensures (foldConstants buildInternal) s
      (fun _ next => Lists topology (fun _ => True) next) := by
  rcases lists.stage with unset | hs
  · apply (ensures_foldConstants_unset unset).weaken
    rintro _ _ rfl
    exact ⟨lists.stage, lists.sources, trivial⟩
  have folds : Ensures (foldConstants buildInternal) s
      (fun _ next => Lists topology (fun _ => True) next) s.surroundings.Excuses := by
    refine ensures_foldConstants_of (fun fin =>
      (∀ key ∈ s.program.boundaryConstants, fin.program.HasOutput (s.program.idOf key)) ∧
      fin.trace.folded = s.trace.folded) hs ⟨lists.stage, lists.sources, trivial⟩
      (fun cp made => ?_) fun fin finish => ?_
    · apply (ensures_buildInternal (isInner_constantSession hs.consistent made)).weaken
      rintro _ fin ⟨ready, soundReady, prep, rewrites, continues⟩
      exact ⟨hs.hasOutput_of_boundary made soundReady prep rewrites, continues.folded⟩
    · obtain ⟨hc, pre⟩ := finish
      have start := lists.sources.mono (subset_append_left _ [fin.program])
      have wf := hs.consistent
      apply (ensures_replaceAllByData_lists hs start wf.boundaryConstants_nodup
        fun key mem => ?_).weaken
      · rintro _ replaced ⟨kept, sources⟩
        refine ⟨kept, fun pruned last prep _ => ⟨.inr last, ?_, trivial⟩⟩
        rw [folded_foldedSession, pre]
        exact sources.step prep.keepsSources
      · obtain ⟨node, hk⟩ := contains_iff.mp (wf.boundaryConstants_live key mem)
        refine ⟨node, hk, lists.sources.not_mem_of_boundary lists.also mem,
          fin.program, mem_append_right _ mem_cons_self, ?_⟩
        rw [← idOf_of_node? hk]
        exact hc key mem
  exact folds.mono fun _ _ h => h

/-- Setting up keeps what the inputs list, and marks no node. -/
theorem ensures_setUp_lists (unset : s.program.Unset)
    (sources : s.program.ListsSources topology s.trace.folded)
    (unmarked : s.program.Unmarked) (hd : s.program.ReadsDeclared) :
    Ensures (runWith folding .setUp) s (fun _ next =>
      Lists topology (fun p => p.MarksReaders ∧ p.ReadsDeclared) next) := by
  refine ensures_runWith_placed (fun pre after e silent h =>
    h.stable e silent.folded) (fun _ => ?_) fun _ =>
      ⟨.inl unset, sources, unmarked.marksReaders, hd⟩
  have sets := (ensures_setUp unset.consistent).and (ensures_setUp_unmarked unset.consistent unmarked)
  refine sets.mono ?_
  rintro _ next ⟨⟨hs, prep, continues⟩, unmarked⟩ -
  refine ⟨.inr hs, continues.folded ▸ sources.step prep.keepsSources, unmarked.marksReaders, ?_⟩
  intro key node hk plain
  obtain ⟨pre, hb, e, -⟩ := prep.nodes key node hk
  rw [prep.reads key (contains_of_node? hk)]
  exact hd key pre hb (e ▸ plain)

/-- Passes that keep something as they go. -/
theorem ensures_runAll_lists {passes : List Pass} (lists : Lists topology also s)
    (regroups : ∀ p : Program, also p → also p.orderBreadthFirst)
    (keeps : ∀ pass ∈ passes, Keeps folding also pass) :
    Ensures (passes.forM (runWith folding)) s (fun _ next => Lists topology also next) := by
  refine ensures_forM_mem (Lists topology also) (fun pass mem st pre => ?_) lists
  have keepsPass := keeps pass mem
  exact ensures_runWith_lists pre keepsPass.notFirst keepsPass.notFolding (fun _ h => h)
    regroups (keepsPass.body st)

/-- Up to the folding of constants, only nodes that read something are marked constant. -/
theorem ensures_runEarly_lists (opts : Options)
    (lists : Lists topology (fun p => p.MarksReaders ∧ p.ReadsDeclared) s) :
    Ensures ((Pass.beforeFolding opts).forM (runWith folding)) s
      (fun _ next => Lists topology MarksReaders next) := by
  have marks : Ensures (runWith folding .markNodes) s
      (fun _ next => Lists topology MarksReaders next) := by
    refine ensures_runWith_lists lists (by decide) (by decide) (fun _ h => h.1)
      (fun _ h => h) fun _ h => ?_
    simp only [Pass.body, markNodes, ensures_bind, ensures_program, ensures_edit]
    exact ensures_markAll_marksReaders h.1 h.2 _
  rw [Pass.beforeFolding_eq, List.forM, ensures_bind]
  apply marks.weaken
  intro _ hm lists
  refine ensures_runAll_lists lists (fun _ h => h) fun pass mem => ?_
  have mem := Pass.mem_afterMarking mem
  exact ⟨ne_of_mem_of_not_mem mem (by decide), ne_of_mem_of_not_mem mem (by decide),
    fun st hs each => ensures_body_durable durable_marksReaders hs each mem⟩

/-- **A build keeps what the inputs list.** -/
theorem ensures_build_lists (unset : s.program.Unset)
    (sources : s.program.ListsSources topology s.trace.folded)
    (unmarked : s.program.Unmarked) (hd : s.program.ReadsDeclared) :
    Ensures build s (fun _ next => Lists topology (fun _ => True) next) := by
  simp only [build, buildWith, ensures_bind, ensures_program, Pass.pipeline_cut]
  rw [List.forM, ensures_bind]
  apply (ensures_setUp_lists unset sources unmarked hd).weaken
  intro _ ready lists
  rw [ensures_forM_append]
  apply (ensures_runEarly_lists _ lists).weaken
  intro _ early lists
  have idle : Lists topology (fun _ => True) early := ⟨lists.stage, lists.sources, trivial⟩
  rw [ensures_forM_append]
  refine (ensures_only (Lists topology fun _ => True) (fun _ => idle) fun _ => ?_).weaken ?_
  · refine ensures_runWith_placed (fun pre after e silent h =>
      h.stable e silent.folded) (fun _ => ?_) fun _ => idle
    exact (ensures_foldConstants_lists lists).weaken fun _ _ h _ => h
  intro _ folded lists
  refine ensures_runAll_lists lists (fun _ h => h) fun pass mem => ?_
  have mem := Pass.mem_afterFolding mem
  refine ⟨ne_of_mem_of_not_mem mem (by decide), ne_of_mem_of_not_mem mem (by decide), fun st _ _ => ?_⟩
  rw [Ensures]
  split
  · trivial
  · trivial

end Build

namespace Topology

/-- **The inputs of a finished program are nodes that read nothing, each listed once.** A node that reads
nothing and is not listed stands for a constant that was computed during the build, or is a network
input that was declared to read something. Where there are no such nodes, the inputs are exactly the
nodes that read nothing. -/
theorem inputs_are_sources (topology : Topology) (options : Options) (surroundings : Surroundings)
    (number : Nat) (finished : Program)
    (built : (topology.build options surroundings number).outcome = .ok finished) :
    finished.inputs.Nodup ∧
      (∀ key ∈ finished.inputs, finished.contains key ∧ finished.dependencies key = []) ∧
      (∀ key node, finished.node? key = some node → finished.dependencies key = [] →
        key ∈ finished.inputs ∨
          topology.Overlooks (topology.build options surroundings number).trace.folded
            node.primitive) ∧
      ((topology.build options surroundings number).trace.folded = [] →
        (∀ primitive ∈ topology.primitives, primitive.tag = .inputLayout → primitive.inputs = []) →
        ∀ key, key ∈ finished.inputs ↔
          finished.contains key ∧ finished.dependencies key = []) := by
  obtain ⟨declared, session, accepted, finishes, rfl, trace⟩ := exists_of_build built
  obtain ⟨-, -, -, unordered, -⟩ := Program.settings_of_ofTopology accepted
  have consistent := (consistent_ofTopology accepted).1
  have declares := Program.declares_of_ofTopology accepted
  have builds : Ensures Build.build (.start surroundings declared number) _ fun _ => True :=
    Build.ensures_build_lists (declares.unset consistent unordered)
      (declares.listsSources consistent) declares.unmarked declares.readsDeclared
  have lists := builds.of_ok finishes
  have sources := lists.sources
  have kept : session.program.Consistent :=
    lists.stage.elim (·.consistent) (·.consistent)
  rw [trace] at sources
  have listed : ∀ key ∈ session.program.inputs,
      session.program.contains key ∧ session.program.dependencies key = [] := by
    intro key member
    have live := kept.inputs_live key member
    obtain ⟨node, found⟩ := Program.contains_iff.mp live
    exact ⟨live, (sources.listed key node member found).2⟩
  refine ⟨sources.nodup, listed, sources.unlisted, fun unfolded plain key => ⟨listed key, ?_⟩⟩
  rintro ⟨live, none⟩
  obtain ⟨node, found⟩ := Program.contains_iff.mp live
  refine (sources.unlisted key node found none).resolve_right ?_
  rintro (⟨-, inner, member, -⟩ | ⟨tag, reads, primitive, offered, same⟩)
  · rw [unfolded] at member
    cases member
  · rw [same] at tag reads
    exact reads (plain primitive offered tag)

/-- One factor of a product is computed from a constant buffer, and a network input that no output
depends on is declared to read something that is not needed either. -/
def productBesideUnused : Topology where
  primitives := [
    .inputLayout "x" ⟨.bfyx, ⟨1, 1, 1, 1⟩, {}⟩,
    .data "w" ⟨.bfyx, ⟨1, 1, 1, 1⟩, {}⟩,
    { id := "s", kind := .activation .abs, inputs := ["w"] },
    { id := "p", kind := .eltwise .prod, inputs := ["x", "s"] },
    { id := "v", kind := .softmax, inputs := ["x"] },
    { Primitive.inputLayout "u" ⟨.bfyx, ⟨1, 1, 1, 1⟩, {}⟩ with inputs := ["v"] }]
  outputs := ["p"]

theorem inputs_are_sources_productBesideUnused : ∃ finished,
    (productBesideUnused.build {} {} 0).outcome = .ok finished ∧
      finished.inputs.map finished.idOf = ["x"] ∧ finished.inputs.Nodup ∧
      ∀ key node, finished.node? key = some node → finished.dependencies key = [] →
        key ∈ finished.inputs ∨
          productBesideUnused.Overlooks (productBesideUnused.build {} {} 0).trace.folded
            node.primitive := by
  obtain ⟨finished, built, listed⟩ : ∃ fin, (productBesideUnused.build {} {} 0).outcome = .ok fin ∧
      fin.inputs.map fin.idOf = ["x"] := exists_of_outcome (by decide +kernel)
  obtain ⟨nodup, -, unlisted, -⟩ := inputs_are_sources productBesideUnused {} {} 0 finished built
  exact ⟨finished, built, listed, nodup, unlisted⟩

/-- The computed factor and the unused network input read nothing and are not listed. -/
theorem computed_constant_not_listed : ∃ finished factor unused,
    (productBesideUnused.build {} {} 0).outcome = .ok finished ∧
      finished.keyOf? "s" = some factor ∧ finished.contains factor ∧
      finished.dependencies factor = [] ∧ factor ∉ finished.inputs ∧
      finished.keyOf? "u" = some unused ∧ finished.contains unused ∧
      finished.dependencies unused = [] ∧ unused ∉ finished.inputs := by
  obtain ⟨finished, built, seen⟩ : ∃ fin, (productBesideUnused.build {} {} 0).outcome = .ok fin ∧
      fin.keyOf? "s" = some 4 ∧ fin.contains 4 ∧ fin.dependencies 4 = [] ∧ 4 ∉ fin.inputs ∧
      fin.keyOf? "u" = some 5 ∧ fin.contains 5 ∧ fin.dependencies 5 = [] ∧ 5 ∉ fin.inputs :=
    exists_of_outcome (by decide +kernel)
  exact ⟨finished, 4, 5, built, seen⟩

end Topology

end LayerGraph
