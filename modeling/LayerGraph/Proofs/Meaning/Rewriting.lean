import LayerGraph.Proofs.Meaning.Retention
import Mathlib.Logic.Function.Basic

/-!
# Rewriting keeps the meaning

Every step of a pass keeps the outputs and their values. A bypassed reorder has the value of what it
reads. An activation that is fused moves its value to the node that it reads, which nothing else
reads and which is no output. An inserted reorder has the value of the node behind which it stands.
Nodes that no output depends on can go. All other steps leave every node with what it computes from
what it reads.
-/

universe u

namespace LayerGraph

open List Option Function Interpretation Node

namespace Program

variable {V : Type u} {interp : Interpretation V} {constants v : String → V}
  {p q : Program} {k : NodeKey} {n : Node} {id : String}

/-! ## Outputs -/

/-- Some output has the id. -/
def HasOutput (program : Program) (id : String) : Prop :=
  ∃ key node, program.node? key = some node ∧ node.isOutput ∧ node.id = id

/-- The ids of the outputs, in the order of the outputs. -/
def outputIds (program : Program) : List String := program.outputs.map program.idOf

/-- The outputs keep their ids and their places, and there are new ones only in a debug build. -/
structure KeepsOutputs (program edited : Program) : Prop where
  options : edited.options = program.options
  first : program.outputIds <+: edited.outputIds
  alone : program.options.debug = false → edited.outputIds = program.outputIds

namespace KeepsOutputs

theorem of_eq (opts : q.options = p.options) (e : q.outputIds = p.outputIds) : KeepsOutputs p q :=
  ⟨opts, e ▸ prefix_rfl, fun _ => e⟩

theorem refl (p : Program) : KeepsOutputs p p := .of_eq rfl rfl

theorem trans {mid : Program} (a : KeepsOutputs p mid)
    (b : KeepsOutputs mid q) : KeepsOutputs p q where
  options := b.options.trans a.options
  first := a.first.trans b.first
  alone quiet := (b.alone (a.options ▸ quiet)).trans (a.alone quiet)

end KeepsOutputs

/-- Nothing changes about the output ids when the list stays and every output keeps its id. -/
theorem Consistent.outputIds_congr (wf : p.Consistent) (outputs : q.outputs = p.outputs)
    (nodes : ∀ key node, p.node? key = some node → node.isOutput →
      ∃ after, q.node? key = some after ∧ after.id = node.id) : q.outputIds = p.outputIds := by
  rw [outputIds, outputIds, outputs]
  refine map_congr_left fun key hl => ?_
  obtain ⟨node, hk, hm⟩ := (wf.mem_outputs key).mp hl
  obtain ⟨after, foundAfter, e⟩ := nodes key node hk hm
  rw [idOf_of_node? foundAfter, idOf_of_node? hk, e]

theorem Consistent.hasOutput_iff (wf : p.Consistent) : p.HasOutput id ↔ id ∈ p.outputIds := by
  rw [outputIds, List.mem_map]
  constructor
  · rintro ⟨k, n, hk, hm, rfl⟩
    exact ⟨k, (wf.mem_outputs k).mpr ⟨n, hk, hm⟩, idOf_of_node? hk⟩
  · rintro ⟨k, hl, rfl⟩
    obtain ⟨n, hk, hm⟩ := (wf.mem_outputs k).mp hl
    exact ⟨k, n, hk, hm, (idOf_of_node? hk).symm⟩

theorem KeepsOutputs.hasOutput (keeps : KeepsOutputs p q) (wf : p.Consistent) (kept : q.Consistent)
    (h : p.HasOutput id) : q.HasOutput id :=
  kept.hasOutput_iff.mpr (keeps.first.subset (wf.hasOutput_iff.mp h))

theorem outputIds_of_alters (alters : Alters label p q) : q.outputIds = p.outputIds := by
  have outputs : q.outputs = p.outputs := by rw [alters.rest]
  rw [outputIds, outputIds, outputs, idOf_of_alters alters]

/-- What is prepared keeps the outputs that it has, and may get more behind them. -/
theorem Prepares.keepsOutputIds (prep : Prepares p q) (kept : q.Consistent) :
    p.outputIds <+: q.outputIds := by
  have ids : p.outputIds = p.outputs.map q.idOf := by
    refine map_congr_left fun key hl => ?_
    obtain ⟨node, hk, -⟩ := (kept.mem_outputs key).mp (prep.outputs.subset hl)
    obtain ⟨orig, foundOrig, prim, -⟩ := prep.nodes key node hk
    rw [idOf_of_node? hk, idOf_of_node? foundOrig]
    exact congrArg Primitive.id prim
  rw [ids]
  exact prep.outputs.map _

/-! ## Removing nodes -/

section Trim

variable {dead : List NodeKey} (hs : p.Sound)

include hs

/-- No output is dead. -/
theorem Sound.unmarked_of_dead (hk : p.deadKeys = .ok dead)
    (mem : k ∈ dead) (hn : p.node? k = some n) : n.isOutput = false := by
  by_contra hm
  have hl := (hs.consistent.mem_outputs k).mpr ⟨n, hn, by simpa using hm⟩
  exact hs.not_dead_of_servesOutput hk ⟨k, hl, .refl⟩ mem

/-- Nothing that a node reads is dead, unless the node is dead or a network input. -/
theorem Sound.not_dead_of_reads (hk : p.deadKeys = .ok dead)
    (hn : p.node? k = some n) (alive : k ∉ dead)
    (tag : n.tag ≠ .inputLayout) : ∀ dep ∈ p.dependencies k, dep ∉ dead := by
  intro dep hr
  have needed : p.ServesOutput k := by
    by_contra unneeded
    exact alive ((hs.mem_dead_iff hk).mpr ⟨unneeded, n, hn, tag⟩)
  exact hs.not_dead_of_servesOutput hk (needed.reads hr)

/-- So a node that stays reads what it read, unless it is a network input. -/
theorem Sound.dependencies_trimmed (hk : p.deadKeys = .ok dead)
    (hn : p.node? k = some n) (alive : k ∉ dead) (tag : n.tag ≠ .inputLayout) :
    (p.removeAll dead).dependencies k = p.dependencies k := by
  obtain ⟨removes, -⟩ := removes_removeAll hs.consistent dead
  rw [removes.dependencies, if_neg alive]
  refine filter_eq_self.mpr fun dep hr => ?_
  simpa using hs.not_dead_of_reads hk hn alive tag dep hr

theorem Sound.node?_trimmed (hn : (p.removeAll dead).node? k = some n) :
    k ∉ dead ∧ p.node? k = some n := by
  obtain ⟨removes, -⟩ := removes_removeAll hs.consistent dead
  rw [removes.node?] at hn
  split at hn
  · cases hn
  · next alive => exact ⟨alive, hn⟩

theorem valuation_of_trimmed (fusable : p.OnlyFusable) (hk : p.deadKeys = .ok dead)
    (val : Valuation interp constants p v) : Valuation interp constants (p.removeAll dead) v := by
  intro k n hn
  obtain ⟨alive, hn⟩ := hs.node?_trimmed hn
  rw [val k n hn]
  by_cases tag : n.tag = .inputLayout
  · have unfused := fusable.fused_eq_none hn (by rw [tag]; rfl)
    rw [nodeValue_inputLayout tag unfused,
      nodeValue_inputLayout tag unfused]
  · rw [arguments, arguments, hs.dependencies_trimmed hk hn alive tag]
    congr 2
    refine map_congr_left fun dep hr => ?_
    obtain ⟨removes, -⟩ := removes_removeAll hs.consistent dead
    rw [idOf, idOf, removes.node?, if_neg (hs.not_dead_of_reads hk hn alive tag dep hr)]

end Trim

theorem Sound.outputIds_trimmed (hs : p.Sound) {dead : List NodeKey} (hk : p.deadKeys = .ok dead) :
    (p.removeAll dead).outputIds = p.outputIds := by
  obtain ⟨removes, -⟩ := removes_removeAll hs.consistent dead
  have alive : ∀ key node, p.node? key = some node → node.isOutput → key ∉ dead := by
    intro key node hn hm mem
    rw [hs.unmarked_of_dead hk mem hn] at hm
    cases hm
  refine hs.consistent.outputIds_congr ?_ fun key node hn hm => ⟨node, ?_, rfl⟩
  · rw [removes.outputs, filter_eq_self]
    intro key hl
    obtain ⟨node, hn, hm⟩ := (hs.consistent.mem_outputs key).mp hl
    simpa using alive key node hn hm
  · rw [removes.node?, if_neg (alive key node hn hm), hn]

/-! ## Bypassing nodes -/

/-- A node that reads one other is gone, and the other is read in its place. -/
structure Bypasses (program edited : Program) (key input : NodeKey) (node : Node) : Prop where
  found : program.node? key = some node
  reads : program.dependencies key = [input]
  nodes : ∀ other, edited.node? other = if other = key then none else program.node? other
  dependencies : ∀ other, edited.dependencies other =
    if other = key then [] else (program.dependencies other).map (redirected key input)
  different : input ≠ key

theorem Sound.bypasses (hs : p.Sound) (res : p.bypass? k = some q) : ∃ n i, Bypasses p q k i n := by
  obtain ⟨n, i, hk, hr, -, rfl⟩ := bypass?_eq_some.mp res
  have ne : i ≠ k := by
    rintro rfl
    exact hs.complete.not_self i (by simp [hr])
  exact ⟨n, i, hk, hr, node?_bypass hs.consistent hr hk,
    dependencies_bypass hs.consistent hr hk ne, ne⟩

namespace Bypasses

variable {i o : NodeKey} {m : Node}
  (bypasses : Bypasses p q k i n)

include bypasses

theorem node?_eq_some (hk : q.node? o = some m) : o ≠ k ∧ p.node? o = some m := by
  rw [bypasses.nodes] at hk
  split at hk
  · cases hk
  · next ne => exact ⟨ne, hk⟩

/-- The arguments of a node stay, if what is read now has the value of what was read. -/
theorem arguments_eq {after : String → V} (kept : o ≠ k) (e : ∀ dep ∈ p.dependencies o,
      after (p.idOf (redirected k i dep)) = v (p.idOf dep)) :
    q.arguments after o = p.arguments v o := by
  rw [arguments, arguments, bypasses.dependencies, if_neg kept, List.map_map, List.map_map, List.map_map]
  refine map_congr_left fun dep hr => ?_
  have moved : redirected k i dep ≠ k := by
    rw [redirected]
    split
    · exact bypasses.different
    · next notKey => exact notKey
  have sameId : q.idOf (redirected k i dep) = p.idOf (redirected k i dep) := by
    rw [idOf, idOf, bypasses.nodes, if_neg moved]
  rw [comp_apply, comp_apply, sameId]
  exact e dep hr

/-- A reorder can be bypassed, since its value is that of what it reads. -/
theorem valuation (fusable : p.OnlyFusable) {fmt : Format} (kind : n.kind = .reorder fmt)
    (val : Valuation interp constants p v) : Valuation interp constants q v := by
  have unfused : n.fused = none :=
    fusable.fused_eq_none bypasses.found (by rw [tag_of_kind kind]; rfl)
  have moved : v (p.idOf i) = v (p.idOf k) := by
    rw [idOf_of_node? bypasses.found, val k n bypasses.found,
      nodeValue, unfused, kind, arguments, bypasses.reads]
    rfl
  intro o m hk
  obtain ⟨kept, hb⟩ := bypasses.node?_eq_some hk
  rw [val o m hb, bypasses.arguments_eq kept fun dep _ => ?_]
  rw [redirected]
  split
  · next e => rw [moved, e]
  · rfl

end Bypasses

theorem Consistent.outputIds_bypass? (wf : p.Consistent)
    (res : p.bypass? key = some q) : q.outputIds = p.outputIds := by
  refine wf.outputIds_congr (wf.outputs_bypass? res) fun o kept foundKept hm => ⟨kept, ?_, rfl⟩
  obtain ⟨node, i, hk, hr, unmarked, rfl⟩ := bypass?_eq_some.mp res
  rw [node?_bypass wf hr hk, if_neg, foundKept]
  rintro rfl
  cases hk.symm.trans foundKept
  rw [unmarked] at hm
  cases hm

/-! ## Fusing activations -/

section Fuse

variable {i : NodeKey} {into : Node} {fn : Activation}

/-- An activation is bypassed and fused into the node that it reads. -/
structure Fuses (program edited : Program) (key input : NodeKey) (node into : Node)
    (function : Activation) : Prop extends Bypasses program edited key input node where
  kind : node.kind = .activation function
  single : program.users input = [key]
  foundInto : program.node? input = some into
  takes : into.tag.takesActivation
  unfused : into.fused = none
  unmarkedInto : into.isOutput = false

theorem Sound.fuses (hs : p.Sound) (hk : p.node? k = some n)
    (kind : n.kind = .activation fn) (tgt : p.fusionTarget? k n = some i)
    (res : p.bypass? k = some q) : ∃ into, Fuses p q k i n into fn := by
  obtain ⟨e, src, bypasses⟩ := hs.bypasses res
  cases hk.symm.trans bypasses.found
  obtain ⟨hr, -, single, into, foundInto, takes, unfused, unmarked⟩ := fusionTarget?_eq_some.mp tgt
  cases hr.symm.trans bypasses.reads
  exact ⟨into, bypasses, kind, single, foundInto, takes, unfused, unmarked⟩

theorem alters_fused (p : Program) (i : NodeKey) (fn : Activation) : Alters label p
      (p.modifyNode i fun tgt => { tgt with fused := some fn }) :=
  .modifyNode p i fun _ => rfl

namespace Fuses

variable {o : NodeKey} {m : Node}
  (fuses : Fuses p q k i n into fn)

include fuses

theorem onlyFusable (fusable : p.OnlyFusable) : (q.modifyNode i fun tgt =>
      { tgt with fused := some fn }).OnlyFusable := by
  intro o m hk isFused
  rw [node?_modifyNode] at hk
  split at hk
  · next isInput =>
    rw [isInput, fuses.nodes, if_neg fuses.different, fuses.foundInto] at hk
    cases hk
    exact fuses.takes
  · exact fusable o m (fuses.node?_eq_some hk).2 isFused

/-- Nodes other than the one that takes the activation keep their values. -/
theorem update_id (wf : p.Consistent) (hk : p.node? o = some m) (ne : o ≠ i) (moved : V) :
    update v into.id moved m.id = v m.id :=
  update_of_ne (fun e => ne (wf.key_eq_of_id_eq hk fuses.foundInto e)) _ _

/-- Nothing but the activation reads the node that takes it, so all others read what they read. -/
theorem arguments_eq (wf : p.Consistent) (kept : o ≠ k) :
    q.arguments (update v into.id (v n.id)) o = p.arguments v o := by
  refine fuses.toBypasses.arguments_eq kept fun dep hr => ?_
  rw [redirected]
  split
  · next isKey =>
    rw [isKey, idOf_of_node? fuses.foundInto, idOf_of_node? fuses.found, update_self]
  · obtain ⟨src, foundSrc⟩ := contains_iff.mp (wf.reads_live o dep hr).1
    rw [idOf_of_node? foundSrc]
    refine fuses.update_id wf foundSrc ?_ _
    rintro rfl
    have mem := mem_users_iff.mpr hr
    rw [fuses.single, mem_singleton] at mem
    exact kept mem

/-- The value of an activation moves to the node that takes it. -/
theorem valuation (wf : p.Consistent) (fusable : p.OnlyFusable)
    (val : Valuation interp constants p v) :
    Valuation interp constants
      (q.modifyNode i fun tgt => { tgt with fused := some fn })
      (update v into.id (v n.id)) := by
  have applied : v n.id = interp.activate fn (v into.id) := by
    have unfused : n.fused = none :=
      fusable.fused_eq_none fuses.found (by rw [tag_of_kind fuses.kind]; rfl)
    rw [val k n fuses.found, nodeValue, unfused, fuses.kind, arguments,
      fuses.reads, ← idOf_of_node? fuses.foundInto]
    rfl
  intro o m hk
  rw [arguments, idOf_of_alters (alters_fused q i fn),
    (alters_fused q i fn).dependencies, ← arguments]
  rw [node?_modifyNode] at hk
  split at hk
  · next isInput =>
    subst isInput
    rw [fuses.nodes, if_neg fuses.different, fuses.foundInto] at hk
    cases hk
    rw [fuses.arguments_eq wf fuses.different]
    show update v into.id (v n.id) into.id = _
    rw [update_self, applied, val o into fuses.foundInto,
      nodeValue, fuses.unfused]
    rfl
  · next ne =>
    obtain ⟨kept, hb⟩ := fuses.node?_eq_some hk
    rw [fuses.arguments_eq wf kept, fuses.update_id wf hb ne, val o m hb]

end Fuses

end Fuse

/-! ## Inserting nodes -/

namespace Inserts

variable {prev o : NodeKey} {prim : Primitive} {m : Node}
  (ins : Inserts p q k prev prim)

include ins

/-- A node is the inserted one, or it was there before. -/
theorem node?_cases (hk : q.node? o = some m) : o = k ∧ m.core = (ofPrimitive prim).core ∨
      o ≠ k ∧ ∃ pre, p.node? o = some pre ∧ pre.core = m.core := by
  by_cases isNew : o = k
  · have core := ins.node
    rw [← isNew, hk, map_some, some.injEq] at core
    exact .inl ⟨isNew, core⟩
  · have e := ins.others o isNew
    rw [hk, map_some] at e
    exact .inr ⟨isNew, map_eq_some_iff.mp e.symm⟩

theorem node?_kept (hk : p.node? o = some m) :
    o ≠ k ∧ ∃ after, q.node? o = some after ∧ after.core = m.core := by
  have ne := ins.different (contains_of_node? hk)
  have e := ins.others o ne
  rw [hk, map_some] at e
  exact ⟨ne, map_eq_some_iff.mp e⟩

theorem onlyFusable (fusable : p.OnlyFusable) : q.OnlyFusable := by
  intro o m hk isFused
  rcases ins.node?_cases hk with ⟨-, core⟩ | ⟨-, pre, hb, core⟩
  · have unfused : m.fused = none := congrArg (·.2.1) core
    rw [unfused] at isFused
    cases isFused
  · have fused : pre.fused = m.fused := congrArg (·.2.1) core
    have prim : pre.primitive = m.primitive := congrArg (·.1) core
    rw [tag, ← prim]
    exact fusable o pre hb (fused ▸ isFused)

/-- The id of an inserted node is new, so all others keep their values. -/
theorem update_id (wf : p.Consistent) (hk : p.node? o = some m) (moved : V) :
    update v prim.id moved m.id = v m.id := by
  refine update_of_ne (fun e => ?_) _ _
  have taken := wf.keyOf?_eq_some.mpr ⟨m, hk, e⟩
  rw [ins.unused] at taken
  cases taken

/-- The values of what is read after an insertion, in terms of those before it. -/
theorem arguments_eq (wf : p.Consistent) (kept : q.Consistent) (o : NodeKey) :
    q.arguments (update v prim.id (v (p.idOf prev))) o =
      ((q.dependencies o).map (redirected k prev)).map (v ∘ p.idOf) := by
  rw [arguments, List.map_map, List.map_map]
  refine map_congr_left fun dep hr => ?_
  obtain ⟨src, foundSrc⟩ := contains_iff.mp (kept.reads_live o dep hr).1
  rw [comp_apply, comp_apply, comp_apply, idOf_of_node? foundSrc, redirected]
  rcases ins.node?_cases foundSrc with ⟨isNew, core⟩ | ⟨ne, pre, hb, core⟩
  · have newId : src.id = prim.id := congrArg (·.1.id) core
    rw [if_pos isNew, newId, update_self]
  · have oldId : pre.id = src.id := congrArg (·.1.id) core
    rw [if_neg ne, idOf_of_node? hb, ← oldId]
    exact ins.update_id wf hb _

/-- An inserted reorder has the value of the node behind which it stands. -/
theorem valuation (wf : p.Consistent) (kept : q.Consistent) {fmt : Format}
    (kind : prim.kind = .reorder fmt) (val : Valuation interp constants p v) :
    Valuation interp constants q (update v prim.id (v (p.idOf prev))) := by
  intro o m hk
  rw [ins.arguments_eq wf kept]
  rcases ins.node?_cases hk with ⟨rfl, core⟩ | ⟨ne, pre, hb, core⟩
  · have notNew := ins.different ins.prevLive
    have newId : m.id = prim.id := congrArg (·.1.id) core
    have newKind : m.kind = prim.kind := congrArg (·.1.kind) core
    have unfused : m.fused = none := congrArg (·.2.1) core
    rw [ins.reads, nodeValue, unfused, newKind, kind, newId, update_self]
    show _ = v (p.idOf (redirected o prev prev))
    rw [redirected, if_neg notNew]
  · have oldId : pre.id = m.id := congrArg (·.1.id) core
    rw [ins.collapse o ne, ← List.map_map, ← arguments, ← oldId,
      ins.update_id wf hb, val o pre hb]
    exact nodeValue_congr (congrArg (·.1) core) (congrArg (·.2.1) core) _

end Inserts

/-! ## Steps and passes -/

/-- **No step of a pass renames, removes or moves an output.** -/
theorem Rewrite.keepsOutputs (step : Rewrite p q) (hs : p.Sound) : KeepsOutputs p q := by
  have opts := step.options
  cases step with
  | annotated annotated => exact .of_eq opts (outputIds_of_alters annotated.label)
  | regrouped => exact .of_eq opts rfl
  | trimmed hk => exact .of_eq opts (hs.outputIds_trimmed hk)
  | bypassed hk kind res =>
    exact .of_eq opts (hs.consistent.outputIds_bypass? res)
  | fused hk kind tgt res =>
    refine .of_eq opts (Eq.trans ?_ (hs.consistent.outputIds_bypass? res))
    exact outputIds_of_alters (.modifyNode _ _ fun _ => rfl)
  | inserted kind soundAfter ins =>
    refine .of_eq opts (hs.consistent.outputIds_congr ins.outputs ?_)
    intro key node hk _
    obtain ⟨-, after, foundAfter, core⟩ := ins.node?_kept hk
    exact ⟨after, foundAfter, congrArg (·.1.id) core⟩
  | exposed key debug =>
    refine ⟨opts, ?_, fun quiet => absurd debug (by simp [quiet])⟩
    exact (Prepares.setOutput p key).keepsOutputIds (hs.setOutput key true).consistent

theorem Rewrites.keepsOutputs (steps : Rewrites p q) (hs : p.Sound) : KeepsOutputs p q := by
  induction steps with
  | refl => exact .refl p
  | tail pre step ih => exact ih.trans (step.keepsOutputs (Rewrites.sound pre hs))

theorem Rewrite.onlyFusable (step : Rewrite p q) (hs : p.Sound)
    (fusable : p.OnlyFusable) : q.OnlyFusable := by
  cases step with
  | annotated annotated => exact (retains_of_annotated hs annotated).onlyFusable fusable
  | regrouped => exact fusable
  | trimmed hk =>
    exact fun k n hn => fusable k n (hs.node?_trimmed hn).2
  | bypassed hk kind res =>
    obtain ⟨n, i, bypasses⟩ := hs.bypasses res
    exact fun o m ho =>
      fusable o m (bypasses.node?_eq_some ho).2
  | fused hk kind tgt res =>
    obtain ⟨into, fuses⟩ := hs.fuses hk kind tgt res
    exact fuses.onlyFusable fusable
  | inserted kind hs ins => exact ins.onlyFusable fusable
  | exposed k debug => exact (retains_setOutput hs k).onlyFusable fusable

/-- A step keeps the values of the outputs. -/
theorem Rewrite.valuation (step : Rewrite p q) (hs : p.Sound)
    (fusable : p.OnlyFusable) (val : Valuation interp constants p v) :
    ∃ after, Valuation interp constants q after ∧ ∀ id, p.HasOutput id → after id = v id := by
  cases step with
  | annotated annotated =>
    exact ⟨v, (retains_of_annotated hs annotated).valuation val nofun, fun _ _ => rfl⟩
  | regrouped => exact ⟨v, val, fun _ _ => rfl⟩
  | trimmed hk =>
    exact ⟨v, valuation_of_trimmed hs fusable hk val, fun _ _ => rfl⟩
  | bypassed hk kind res =>
    obtain ⟨n, i, bypasses⟩ := hs.bypasses res
    cases hk.symm.trans bypasses.found
    exact ⟨v, bypasses.valuation fusable kind val, fun _ _ => rfl⟩
  | fused hk kind tgt res =>
    obtain ⟨into, fuses⟩ := hs.fuses hk kind tgt res
    refine ⟨_, fuses.valuation hs.consistent fusable val, ?_⟩
    rintro _ ⟨o, m, ho, hm, rfl⟩
    refine fuses.update_id hs.consistent ho ?_ _
    rintro rfl
    cases ho.symm.trans fuses.foundInto
    rw [fuses.unmarkedInto] at hm
    cases hm
  | inserted kind soundAfter ins =>
    refine ⟨_, ins.valuation hs.consistent soundAfter.consistent kind val, ?_⟩
    rintro _ ⟨o, m, hk, -, rfl⟩
    exact ins.update_id hs.consistent hk _
  | exposed k debug =>
    exact ⟨v, (retains_setOutput hs k).valuation val nofun, fun _ _ => rfl⟩

theorem Rewrites.onlyFusable (steps : Rewrites p q) (hs : p.Sound)
    (fusable : p.OnlyFusable) : q.OnlyFusable := by
  induction steps with
  | refl => exact fusable
  | tail pre step ih => exact step.onlyFusable (Rewrites.sound pre hs) ih

/-- **Passes keep the outputs and their values.** -/
theorem Rewrites.valuation (steps : Rewrites p q) (hs : p.Sound)
    (fusable : p.OnlyFusable) (val : Valuation interp constants p v) :
    ∃ after, Valuation interp constants q after ∧
      ∀ id, p.HasOutput id → q.HasOutput id ∧ after id = v id := by
  induction steps with
  | refl => exact ⟨v, val, fun _ h => ⟨h, rfl⟩⟩
  | tail pre step ih =>
    obtain ⟨mid, valued, kept⟩ := ih
    have soundMiddle := Rewrites.sound pre hs
    obtain ⟨after, valuedAfter, keptAfter⟩ :=
      step.valuation soundMiddle (Rewrites.onlyFusable pre hs fusable) valued
    refine ⟨after, valuedAfter, fun id h => ?_⟩
    obtain ⟨stays, e⟩ := kept id h
    exact ⟨(step.keepsOutputs soundMiddle).hasOutput soundMiddle.consistent
      (step.sound soundMiddle).consistent stays, (keptAfter id stays).trans e⟩

/-! ## What stays of nodes -/

/-- Nodes that stay have their primitives and go on reading something or nothing, network inputs apart,
and new ones are reorders, which read something. -/
structure KeepsSources (program edited : Program) : Prop where
  inputs : KeepsInputs program edited
  nodes : ∀ key node, edited.node? key = some node → (∃ before, program.node? key = some before ∧
    before.primitive = node.primitive ∧ (program.dependencies key = [] → edited.dependencies key = []) ∧
    (edited.dependencies key = [] → program.dependencies key = [] ∨ node.tag = .inputLayout)) ∨ key ∉
    program.inputs ∧ edited.dependencies key ≠ [] ∧ ∃ format, node.kind = .reorder format

theorem Prepares.keepsSources (prep : Prepares p q) : KeepsSources p q where
  inputs := prep.inputs
  nodes key node hk := by
    obtain ⟨pre, hb, e, -⟩ := prep.nodes key node hk
    have hr := prep.reads key (contains_of_node? hk)
    exact .inl ⟨pre, hb, e, hr.trans, fun none => .inl (hr.symm.trans none)⟩

theorem KeepsSources.alters {mid : Program} (keeps : KeepsSources p mid)
    (alters : Alters primitive mid q) : KeepsSources p q where
  inputs := keeps.inputs.trans (.of_eq (by rw [alters.rest])) fun k => (alters.contains k).mp
  nodes key node hk := by
    obtain ⟨pre, hb, e⟩ := alters.node? hk
    rw [alters.dependencies, tag, kind, ← e]
    exact keeps.nodes key pre hb

theorem Sound.keepsSources_bypass? (hs : p.Sound) (res : p.bypass? k = some q) :
    KeepsSources p q where
  inputs := .bypass? hs.consistent res
  nodes o m ho := by
    obtain ⟨n, i, bypasses⟩ := hs.bypasses res
    obtain ⟨kept, hb⟩ := bypasses.node?_eq_some ho
    have lists := bypasses.dependencies o
    rw [if_neg kept] at lists
    refine .inl ⟨m, hb, rfl, fun none => ?_, fun none => .inl ?_⟩
    · rw [lists, none, map_nil]
    · exact map_eq_nil_iff.mp (lists.symm.trans none)

theorem Inserts.keepsSources {prev : NodeKey} {prim : Primitive} (ins : Inserts p q k prev prim)
    (wf : p.Consistent) {fmt : Format} (kind : prim.kind = .reorder fmt) : KeepsSources p q where
  inputs := .of_eq ins.inputs
  nodes o m hk := by
    rcases ins.node?_cases hk with ⟨rfl, core⟩ | ⟨ne, pre, hb, core⟩
    · have sameKind : m.kind = prim.kind := congrArg (·.1.kind) core
      refine .inr ⟨fun hl => ins.different (wf.inputs_live o hl) rfl, ?_, fmt, sameKind.trans kind⟩
      rw [ins.reads]
      exact cons_ne_nil _ _
    · have lists := ins.collapse o ne
      refine .inl ⟨pre, hb, congrArg (·.1) core, fun none => ?_, fun none => .inl ?_⟩
      · exact map_eq_nil_iff.mp (lists.trans none)
      · rw [← lists, none, map_nil]

theorem Rewrite.keepsSources (step : Rewrite p q) (hs : p.Sound) : KeepsSources p q := by
  cases step with
  | annotated annotated => exact (Prepares.of_annotated annotated).keepsSources
  | regrouped => exact ⟨.of_eq rfl, fun k n hk => .inl ⟨n, hk, rfl, fun none => none, .inl⟩⟩
  | @trimmed dead hk =>
    refine ⟨.removeAll hs.consistent dead, fun k n hn => ?_⟩
    obtain ⟨alive, hb⟩ := hs.node?_trimmed hn
    refine .inl ⟨n, hb, rfl, fun none => ?_, fun none => ?_⟩
    · rw [(removes_removeAll hs.consistent dead).1.dependencies, if_neg alive, none, filter_nil]
    · by_cases tag : n.tag = .inputLayout
      · exact .inr tag
      · exact .inl ((hs.dependencies_trimmed hk hb alive tag).symm.trans none)
  | bypassed hk kind res => exact hs.keepsSources_bypass? res
  | fused hk kind tgt res =>
    exact (hs.keepsSources_bypass? res).alters (.modifyNode _ _ fun _ => rfl)
  | inserted kind soundAfter ins => exact ins.keepsSources hs.consistent kind
  | exposed k debug => exact (Prepares.setOutput p k).keepsSources

/-- What follows from this for one step follows for all steps of a pass. -/
theorem Rewrites.of_sources {holds : Program → Prop} (steps : Rewrites p q) (hs : p.Sound)
    (step : ∀ {p q}, KeepsSources p q → holds p → holds q) (h : holds p) : holds q := by
  induction steps with
  | refl => exact h
  | tail pre last ih => exact step (last.keepsSources (Rewrites.sound pre hs)) ih

/-- Every kind of a node of the program is admitted. -/
def HasKinds (admits : Kind → Prop) (program : Program) : Prop :=
  ∀ key node, program.node? key = some node → admits node.kind

theorem KeepsSources.hasKinds {admits : Kind → Prop} (keeps : KeepsSources p q)
    (reorders : ∀ fmt, admits (.reorder fmt)) (kinds : p.HasKinds admits) : q.HasKinds admits := by
  intro k n hk
  rcases keeps.nodes k n hk with ⟨orig, foundOrig, prim, -⟩ | ⟨-, -, fmt, kind⟩
  · rw [kind, ← prim]
    exact kinds k orig foundOrig
  · exact kind ▸ reorders fmt

theorem Rewrites.hasKinds {admits : Kind → Prop} (steps : Rewrites p q) (hs : p.Sound)
    (reorders : ∀ fmt, admits (.reorder fmt)) (kinds : p.HasKinds admits) : q.HasKinds admits :=
  steps.of_sources hs (fun keeps => keeps.hasKinds reorders) kinds

end Program

end LayerGraph
