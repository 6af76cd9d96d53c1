import LayerGraph.Proofs.Network.Confluence
import LayerGraph.Proofs.Pass.Lowering

/-!
# Derived facts in networks

Many passes derive something about a node from the node and from what it reads: marks, layouts, whether
it runs in place, whether it is an output. Each of them follows a rule (`Rule`), and on the network it
changes the cells by that rule, one after the other (`Network.derive`).

A rule looks at what is read and changes nothing else, so the steps for two nodes that do not read each
other can be exchanged (`Network.derive_comm`).
-/

namespace LayerGraph

open List Option

/-- How a node is changed, given the node and what it reads; there is no answer when the change cannot
be computed. -/
abbrev Rule : Type := Node → List Node → Option (Node → Node)

namespace Network

variable {net next : Network} {id a b : String} {rule : Rule}

theorem put_comm (net : Network) (ne : a ≠ b) (one m : Option Cell) :
    (net.put a one).put b m = (net.put b m).put a one := by
  apply Network.ext
  · funext id
    simp only [cell?_put]
    split
    · next isSecond =>
      subst isSecond
      rw [if_neg (Ne.symm ne)]
    · rfl
  · rfl

/-- Changes a cell by a rule. -/
def derive (rule : Rule) (id : String) (net : Network) : Option Network :=
  (net.cell? id).bind fun cell => (rule cell.toNode (net.sources cell)).map fun change =>
    net.put id (some (cell.withNode change))

theorem derive_eq_some : derive rule id net = some next ↔ ∃ c change, net.cell? id = some c ∧
    rule c.toNode (net.sources c) = some change ∧ net.put id (some (c.withNode change)) = next := by
  simp only [derive, bind_eq_some_iff, map_eq_some_iff]
  constructor
  · rintro ⟨c, hk, change, made, res⟩
    exact ⟨c, change, hk, made, res⟩
  · rintro ⟨c, change, hk, made, res⟩
    exact ⟨c, hk, change, made, res⟩

/-- What a cell reads is found under the same ids. -/
theorem sources_congr {c : Cell} (e : ∀ src ∈ c.reads, next.cell? src = net.cell? src) :
    next.sources c = net.sources c := by
  rw [sources, sources]
  congr 1
  exact filterMap_congr e

/-- The cell that a rule asks for. -/
def answer (rule : Rule) (id : String) (net : Network) : Option Cell :=
  (net.cell? id).bind fun cell => (rule cell.toNode (net.sources cell)).map cell.withNode

theorem derive_eq_answer (rule : Rule) (id : String) : derive rule id = fun net =>
    (answer rule id net).bind fun c => some (net.put id (some c)) := by
  funext net
  rw [derive, answer, bind_assoc]
  refine Option.bind_congr fun c _ => ?_
  rw [bind_map]
  exact map_eq_bind

/-- What is not read does not matter. -/
theorem answer_put (ne : a ≠ b) (unread : ¬ net.Reads b a) (c : Cell) :
    answer rule b (net.put a (some c)) = answer rule b net := by
  rw [answer, answer, cell?_put, if_neg (Ne.symm ne)]
  refine Option.bind_congr fun r hk => ?_
  rw [sources_congr fun src mem => ?_]
  have away : src ≠ a := fun e => unread ⟨r, hk, e ▸ mem⟩
  rw [cell?_put, if_neg away]

/-- The steps for two nodes that do not read each other can be exchanged. -/
theorem derive_comm (ne : a ≠ b) (unread : ¬ net.Reads a b) (unreadToo : ¬ net.Reads b a) :
    (derive rule a net).bind (derive rule b) = (derive rule b net).bind (derive rule a) := by
  rw [derive_eq_answer rule a, derive_eq_answer rule b]
  apply exchange_of_requests
  · intro c next _ made
    rw [← some.inj made, answer_put ne unreadToo]
  · intro c next _ made
    rw [← some.inj made, answer_put ne.symm unread]
  · exact fun _ _ _ _ => congrArg some (put_comm net ne _ _)

/-- A rule leaves open what a node reads. -/
theorem reads_of_derive (derived : derive rule id net = some next) {r src : String} :
    next.Reads r src ↔ net.Reads r src := by
  obtain ⟨c, change, hk, -, rfl⟩ := derive_eq_some.mp derived
  rw [Reads, Reads, cell?_put]
  by_cases isId : r = id
  · subst isId
    rw [if_pos rfl, hk]
    simp only [some.injEq, exists_eq_left']
    rfl
  · rw [if_neg isId]

/-- **Deriving facts ends alike along lists that put what is read before its readers.** -/
theorem run_derive_eq {ids others : List String} (rule : Rule) (perm : ids.Perm others)
    (respects : ids.Pairwise fun earlier later => ¬ net.Reads earlier later)
    (respectsToo : others.Pairwise fun earlier later => ¬ net.Reads earlier later) :
    run (derive rule) ids net = run (derive rule) others net := by
  have keeps : ∀ id st next, (∀ r src, st.Reads r src → net.Reads r src) → derive rule id st = some next
      → ∀ r src, next.Reads r src → net.Reads r src := fun id st next h derived r src hr =>
      h r src ((reads_of_derive derived).mp hr)
  apply run_eq_of_perm keeps _ perm respects respectsToo fun _ _ hr => hr
  intro st h a _ b _ ne free freeToo
  exact derive_comm ne (fun hr => freeToo (h a b hr)) fun hr => free (h b a hr)

end Network

namespace Program

variable {p q : Program}

theorem Sound.run_derive_eq (hs : p.Sound) (o : q.Sound) (e : q.network = p.network) (rule : Rule) :
    Network.run (Network.derive rule) p.ids p.network =
      Network.run (Network.derive rule) q.ids q.network := by
  have respectsToo := o.pairwise_ids
  rw [e] at respectsToo ⊢
  exact Network.run_derive_eq rule (hs.perm_ids o e) (hs.pairwise_ids.imp fun free hr => free
    (.single hr)) (respectsToo.imp fun free hr => free (.single hr))

end Program

/-- The layout of the output of a node, given what it reads. -/
def Node.inferred (node : Node) (sources : List Node) : Checked (Option Layout) :=
  match sources.mapM (·.layout) with
  | none => pure none
  | some layouts => do
    let shape ← node.kind.outputShape (layouts.map (·.shape))
    return shape.map fun shape =>
      { format := node.kind.outputFormat (layouts.map (·.format)), shape, padding := node.padding }

/-- A rule that ignores notes about conflicts and leaves them alone. -/
structure Rule.Blind (rule : Rule) : Prop where
  ignores : ∀ (program : Program) node sources,
    rule (program.shown node) (sources.map program.shown) = rule node sources
  changes : ∀ node sources change, rule node sources = some change → Node.Blind change

namespace Program

variable {p q next : Program} {k : NodeKey} {n : Node} {rule : Rule}

/-- One node of a program has been changed by a rule. -/
structure Derives (rule : Rule) (program : Program) (key : NodeKey) (node : Node) (next : Program) :
    Prop where
  consistent : next.Consistent
  setting : SameSetting program next
  nodes : ∃ change, rule node (program.dependencyNodes key) = some change ∧ ∀ other, next.node? other =
    if other = key then (program.node? other).map change else program.node? other

theorem Consistent.derive_eq (wf : p.Consistent) (blind : rule.Blind) (hk : p.node? k = some n) :
    Network.derive rule n.id p.network = (rule n (p.dependencyNodes k)).map fun change =>
        p.network.put n.id (some ((p.cellAt k n).withNode change)) := by
  have shown : rule (p.cellAt k n).toNode (p.network.sources (p.cellAt k n)) =
        rule n (p.dependencyNodes k) := by
    rw [wf.sources_cellAt]
    exact blind.ignores p n (p.dependencyNodes k)
  rw [Network.derive, wf.cell?_of_node? hk, bind_some, shown]

/-- On the network the rule is followed as well. -/
theorem Derives.network (derives : Derives rule p k n next)
    (wf : p.Consistent) (blind : rule.Blind) (hk : p.node? k = some n) :
    Network.derive rule n.id p.network = some next.network := by
  obtain ⟨change, made, nodes⟩ := derives.nodes
  rw [wf.derive_eq blind hk, made, map_some, network_of_change (blind.changes n _ change made) wf hk
    derives.consistent derives.setting nodes]

theorem Derives.stays (derives : Derives rule p k n next) (blind : rule.Blind)
    (o : NodeKey) (hv : p.contains o) : next.contains o ∧ next.idOf o = p.idOf o := by
  obtain ⟨change, made, nodes⟩ := derives.nodes
  obtain ⟨st, hk⟩ := contains_iff.mp hv
  have after := nodes o
  rw [hk] at after
  split at after
  · exact stays_of_node? hk after ((blind.changes n _ change made).id st)
  · exact stays_of_node? hk after rfl

/-- **A loop that follows a rule is a run of the rule.** -/
theorem ensures_forM_derive {round : NodeKey → Edit PUnit} (blind : rule.Blind)
    (steps : ∀ k n st, st.Consistent → st.node? k = some n →
      Ensures (round k) st (fun _ next => Derives rule st k n next)
        fun _ => rule n (st.dependencyNodes k) = none)
    {ks : List NodeKey} (nd : ks.Nodup) (hv : ∀ k ∈ ks, p.contains k) (wf : p.Consistent) :
    Ensures (ks.forM round) p
      (fun _ next => Network.run (Network.derive rule) (ks.map p.idOf) p.network =
        some next.network)
      fun _ => Network.run (Network.derive rule) (ks.map p.idOf) p.network = none := by
  apply (ensures_forM_run (fun _ => Consistent) ?_ nd hv wf).weaken fun _ next h => h.2
  intro k _ n st wf hk
  refine (steps k n st wf hk).mono ?_ ?_
  · intro _ next derives
    exact ⟨⟨derives.consistent, fun o _ alive => derives.stays blind o alive⟩,
      derives.network wf blind hk⟩
  · intro _ unanswered
    rw [wf.derive_eq blind hk, unanswered, map_none]

variable {α : Type}

theorem SameSetting.of_alters {view : Node → α} (alters : Alters view p q) : SameSetting p q := by
  refine ⟨?_, alters.dependencies, ?_, ?_⟩ <;> rw [alters.rest]

/-- What a view shows of the nodes that are read stays when the view stays. -/
theorem Alters.map_dependencyNodes {view : Node → α} (alters : Alters view p q) (k : NodeKey) :
    (q.dependencyNodes k).map view = (p.dependencyNodes k).map view := by
  rw [dependencyNodes, dependencyNodes, alters.dependencies, map_filterMap, map_filterMap]
  exact filterMap_congr fun dep _ => alters.same dep

end Program

/-! ## Marks -/

namespace Rule

/-- The marks of a node follow from those of what it reads. -/
def marks : Rule := fun node sources => some fun marked =>
  { marked with
    isConstant := if sources.isEmpty then marked.isConstant else sources.all (·.isConstant)
    inDataFlow := node.tag == .inputLayout || sources.any (·.inDataFlow) }

theorem blind_marks : marks.Blind where
  ignores p n sources := by
    simp only [marks, isEmpty_map, List.all_map, List.any_map]
    rfl
  changes n sources change made := by
    rw [← some.inj made]
    exact ⟨fun _ => rfl, fun _ _ => rfl⟩

/-- The layout of a node follows from those of what it reads. -/
def layout : Rule := fun node sources =>
  (node.inferred sources).toOption.map fun layout node => node.withLayout layout

theorem blind_layout : layout.Blind where
  ignores p n sources := by
    have lays : (sources.map p.shown).mapM (·.layout) = sources.mapM (·.layout) := by
      rw [mapM_map]
      rfl
    simp only [layout, Node.inferred, lays]
    rfl
  changes n sources change made := by
    obtain ⟨layout, -, rfl⟩ := map_eq_some_iff.mp made
    exact ⟨fun _ => rfl, fun _ _ => rfl⟩

/-- A node that can run in place does. -/
def inPlace : Rule := fun node sources =>
  match sources with
  | [source] =>
    if node.padding.isZero && source.padding.isZero && node.kind.canRunInPlace source.layout then
      some fun node => { node with runsInPlace := true }
    else some fun node => node
  | _ => some fun node => node

theorem blind_unchanged : Node.Blind fun n => n where
  id _ := rfl
  conflicts _ _ := rfl

theorem blind_inPlace : inPlace.Blind where
  ignores p n sources := by
    match sources with
    | [] => rfl
    | [src] => rfl
    | a :: b :: rest => rfl
  changes n sources change made := by
    unfold inPlace at made
    split at made
    · split at made
      · rw [← some.inj made]
        exact ⟨fun _ => rfl, fun _ _ => rfl⟩
      · rw [← some.inj made]
        exact blind_unchanged
    · rw [← some.inj made]
      exact blind_unchanged

/-- A node becomes an output unless it is of a given kind. -/
def output (excepted : Option KindTag) : Rule := fun node _ =>
  if some node.tag = excepted then some fun node => node
  else some fun node => { node with isOutput := true }

theorem blind_output (excepted : Option KindTag) : (output excepted).Blind where
  ignores _ _ _ := rfl
  changes n sources change made := by
    rw [output] at made
    split at made
    · rw [← some.inj made]
      exact blind_unchanged
    · rw [← some.inj made]
      exact Program.blind_withOutput true

end Rule

namespace Program

variable {p q : Program} {k : NodeKey} {n : Node} {failed : Fault → Prop}
  {rule : Rule}

section

variable (wf : p.Consistent)

include wf

theorem ensures_markNode (hk : p.node? k = some n) : Ensures (Edit.markNode k) p
      (fun _ next => Derives Rule.marks p k n next) failed := by
  have alters : Alters (fun n => (n.primitive, n.inDataFlow)) p (p.markConstant k) := by
    rw [markConstant]
    split
    · exact .refl p
    · exact .modifyNode p k fun _ => rfl
  obtain ⟨after, foundAfter, sameNode⟩ := alters.node?_after hk
  have samePrimitive : after.primitive = n.primitive := congrArg Prod.fst sameNode
  have fed : (p.markConstant k).isFed k after =
      (n.tag == .inputLayout || (p.dependencyNodes k).any (·.inDataFlow)) := by
    have flows := congrArg (List.any · Prod.snd) (alters.map_dependencyNodes k)
    simp only [List.any_map] at flows
    rw [isFed, Node.tag, samePrimitive]
    exact congrArg _ flows
  simp only [Edit.markNode, Edit.markConstant, Edit.markDataFlow, ensures_bind, ensures_modify,
    ensures_nodeAt foundAfter, ensures_get, fed]
  have hm : ∀ flag, Marked p ((p.markConstant k).modifyNode k fun n =>
      { n with inDataFlow := flag }) := fun flag =>
    (marked_markConstant p k).trans (.modifyNode _ k fun _ => rfl)
  refine ⟨wf.annotated (hm _).annotated, .of_alters (hm _), _, rfl, fun o => ?_⟩
  rw [node?_modifyNode, node?_markConstant]
  split
  · rw [Option.map_map]
    rfl
  · rfl

theorem ensures_refreshLayout_derives (hk : p.node? k = some n) :
    Ensures (Edit.refreshLayout k) p (fun _ next => Derives Rule.layout p k n next)
      fun _ => Rule.layout n (p.dependencyNodes k) = none := by
  have e : p.inferLayout k n = n.inferred (p.dependencyNodes k) := rfl
  simp only [Edit.refreshLayout, ensures_bind, ensures_nodeAt hk, ensures_get, e]
  refine ensures_checked ?_ ?_
  · intro layout inferred
    have ann : Annotated p (p.modifyNode k (·.withLayout layout)) := .modifyNode p k fun _ => rfl
    refine ⟨wf.annotated ann, .of_alters ann, (·.withLayout layout), ?_,
      fun o => node?_modifyNode p k o _⟩
    rw [Rule.layout, inferred]
    rfl
  · intro cause stopped
    rw [Rule.layout, stopped]
    rfl

/-- A rule that asks for no change is followed by doing nothing. -/
theorem Derives.of_unchanged (made : rule n (p.dependencyNodes k) = some fun n => n) :
    Derives rule p k n p where
  consistent := wf
  setting := ⟨rfl, fun _ => rfl, rfl, rfl⟩
  nodes := ⟨_, made, fun o => by rw [Option.map_id', ite_self]⟩

theorem derives_shareBuffer (hk : p.node? k = some n) :
    Derives Rule.inPlace p k n (p.shareBuffer k) := by
  have unchanged (made : Rule.inPlace n (p.dependencyNodes k) = some fun n => n) (e : p.shareBuffer k =
      p) : Derives Rule.inPlace p k n (p.shareBuffer k) := by
    rw [e]
    exact .of_unchanged wf made
  match sources : p.dependencyNodes k with
  | [] => exact unchanged (by rw [sources]; rfl) (by rw [shareBuffer, hk, sources])
  | a :: b :: rest =>
    exact unchanged (by rw [sources]; rfl) (by rw [shareBuffer, hk, sources])
  | [src] =>
    by_cases fits : (n.padding.isZero && src.padding.isZero && n.kind.canRunInPlace src.layout) = true
    · have shares : p.shareBuffer k = p.modifyNode k fun n => { n with runsInPlace := true } := by
        rw [shareBuffer, hk, sources]
        exact if_pos fits
      rw [shares]
      refine ⟨shares ▸ wf.annotated (marked_shareBuffer p k).annotated, ⟨rfl, fun _ => rfl, rfl, rfl⟩,
        fun n => { n with runsInPlace := true }, ?_, fun o => node?_modifyNode p k o _⟩
      rw [sources]
      exact if_pos fits
    · refine unchanged ?_ ?_
      · rw [sources]
        exact if_neg fits
      · rw [shareBuffer, hk, sources]
        exact if_neg fits

theorem derives_setOutput {excepted : Option KindTag} (included : some n.tag ≠ excepted) :
    Derives (Rule.output excepted) p k n (p.setOutput k true) := by
  refine ⟨wf.setOutput k true, ?_, _, if_neg included, fun o => node?_setOutput p k o true⟩
  rw [setOutput_rest]
  exact ⟨rfl, fun _ => rfl, rfl, rfl⟩

theorem ensures_expose_derives (hk : p.node? k = some n) : Ensures (Edit.expose k) p
      (fun _ next => Derives (Rule.output (some .data)) p k n next) failed := by
  simp only [Edit.expose, ensures_bind, ensures_nodeAt hk]
  split
  · next isData =>
    exact .of_unchanged wf (if_pos (congrArg some (beq_iff_eq.mp isData)))
  · next notData =>
    exact derives_setOutput wf (by simpa using notData)

end

/-- The layouts of a program follow their rule. -/
theorem Sound.refreshLayouts (hs : p.Sound) : Ensures Edit.refreshLayouts p
      (fun _ next => Network.run (Network.derive Rule.layout) p.ids p.network = some next.network)
      fun _ => Network.run (Network.derive Rule.layout) p.ids p.network = none := by
  rw [Edit.refreshLayouts, ensures_bind, ensures_get]
  apply ensures_forM_derive Rule.blind_layout _ hs.consistent.order_nodup
    hs.consistent.order_live hs.consistent
  intro k n st wf hk
  rw [ensures_discard]
  exact ensures_refreshLayout_derives wf hk

/-- The nodes that run in place follow their rule. -/
theorem Sound.shareBuffers (hs : p.Sound) :
    Network.run (Network.derive Rule.inPlace) p.ids p.network =
      some (p.order.toList.foldl shareBuffer p).network := by
  have loop := ensures_forM_derive Rule.blind_inPlace (fun k n st wf hk =>
      show Ensures (modify (shareBuffer · k)) st _ _ from derives_shareBuffer wf hk)
    hs.consistent.order_nodup hs.consistent.order_live hs.consistent
  exact loop.of_ok (forM_modify shareBuffer p.order.toList p)

/-! ## Sinks -/

/-- The ids of the nodes that nobody reads. -/
def sinkIds (program : Program) : List String :=
  (program.keys.filter fun key => program.userCount key == 0).map program.idOf

theorem userCount_eq_zero : (p.userCount k == 0) = true ↔ ∀ r, k ∉ p.dependencies r := by
  rw [beq_iff_eq, userCount, length_eq_zero_iff, eq_nil_iff_forall_not_mem]
  exact forall_congr' fun r => not_congr mem_users_iff

namespace Consistent

variable (wf : p.Consistent)

include wf

theorem sinks_live : ∀ k ∈ p.keys.filter fun k => p.userCount k == 0, p.contains k :=
  fun _ mem => wf.mem_keys.mp (mem_of_mem_filter mem)

theorem mem_sinkIds {id : String} : id ∈ p.sinkIds ↔
    p.network.has id ∧ ∀ r, ¬ p.network.Reads r id := by
  refine wf.mem_map_idOf (fun id => p.network.has id ∧
    ∀ r, ¬ p.network.Reads r id) wf.sinks_live (fun _ h => h.1) ?_
  intro k n hk
  rw [mem_filter, userCount_eq_zero, wf.mem_keys]
  refine and_congr ⟨fun _ => ⟨_, wf.cell?_of_node? hk⟩,
    fun _ => contains_of_node? hk⟩ ⟨fun unused r hr => ?_, fun unread user isRead => ?_⟩
  · obtain ⟨user, isRead, -⟩ := (wf.reads_id_iff hk).mp hr
    exact unused user isRead
  · exact unread (p.idOf user) ((wf.reads_id_iff hk).mpr ⟨user, isRead, rfl⟩)

theorem nodup_sinkIds : p.sinkIds.Nodup :=
  wf.nodup_map_idOf (wf.keys_nodup.filter _) wf.sinks_live

/-- There are outputs when there is one in the network. -/
theorem outputs_isEmpty_iff : p.outputs.isEmpty ↔
    ∀ id c, p.network.cell? id = some c → c.isOutput = false := by
  rw [List.isEmpty_iff, eq_nil_iff_forall_not_mem]
  constructor
  · intro none id c hc
    obtain ⟨k, n, hk, -, rfl⟩ := wf.exists_node_of_cell? hc
    exact Bool.eq_false_iff.mpr fun hm =>
      none k ((wf.mem_outputs k).mpr ⟨n, hk, hm⟩)
  · intro unmarked k hl
    obtain ⟨n, hk, hm⟩ := (wf.mem_outputs k).mp hl
    have contrary := unmarked n.id _ (wf.cell?_of_node? hk)
    exact Bool.false_ne_true (contrary.symm.trans hm)

theorem run_sinks : Network.run (Network.derive (Rule.output none)) p.sinkIds p.network =
      some ((p.keys.filter fun k => p.userCount k == 0).foldl
        (fun p k => p.setOutput k true) p).network := by
  have round : ∀ k n st, Program.Consistent st → st.node? k = some n → Ensures (modify (fun p : Program
      => p.setOutput k true)) st (fun _ next => Derives (Rule.output none) st k n next) fun _ =>
      Rule.output none n (st.dependencyNodes k) = none := fun k n st wf _ => derives_setOutput wf nofun
  have loop := ensures_forM_derive (Rule.blind_output none) round (wf.keys_nodup.filter fun k =>
    p.userCount k == 0) wf.sinks_live wf
  exact loop.of_ok (forM_modify (fun p k => p.setOutput k true) _ p)

/-- **Sinks become outputs alike in programs with the same network.** -/
theorem network_markSinks (o : q.Consistent) (e : q.network = p.network) :
    q.markSinks.network = p.markSinks.network := by
  have outputs : q.outputs.isEmpty ↔ p.outputs.isEmpty := by
    rw [o.outputs_isEmpty_iff, wf.outputs_isEmpty_iff, e]
  have perm : p.sinkIds.Perm q.sinkIds :=
    (perm_ext_iff_of_nodup wf.nodup_sinkIds o.nodup_sinkIds).mpr fun id => by
      rw [wf.mem_sinkIds, o.mem_sinkIds, e]
  have unread : ∀ ids : List String, (∀ id ∈ ids, ∀ r, ¬ p.network.Reads r id) →
      ids.Pairwise fun earlier later => ¬ p.network.Reads earlier later := fun ids free =>
    pairwise_of_forall_mem_list fun earlier _ later mem => free later mem earlier
  have runs := Network.run_derive_eq (Rule.output none) perm (unread _ fun id mem => (wf.mem_sinkIds.mp
    mem).2) (unread _ fun id mem => (wf.mem_sinkIds.mp (perm.symm.subset mem)).2)
  have sinks := wf.run_sinks
  have sinksToo := o.run_sinks
  rw [e] at sinksToo
  rw [markSinks, markSinks]
  by_cases empty : p.outputs.isEmpty
  · rw [if_pos empty, if_pos (outputs.mpr empty)]
    exact some.inj (sinksToo.symm.trans (runs.symm.trans sinks))
  · rw [if_neg empty, if_neg fun h => empty (outputs.mp h), e]

end Consistent

end Program

namespace Build

variable {s : Session} (hs : s.program.Sound)

include hs

theorem yields_markNodes : Yields markNodes s
    (Network.run (Network.derive Rule.marks) s.program.ids s.program.network) := by
  apply yields_edit
  exact Program.ensures_forM_derive Rule.blind_marks (fun k n st wf hk => Program.ensures_markNode wf hk)
    hs.consistent.order_nodup hs.consistent.order_live hs.consistent

theorem yields_refreshLayouts : Yields (edit Edit.refreshLayouts) s
      (Network.run (Network.derive Rule.layout) s.program.ids s.program.network) :=
  yields_edit hs.refreshLayouts

theorem yields_shareBuffers : Yields shareBuffers s
    (Network.run (Network.derive Rule.inPlace) s.program.ids s.program.network) := by
  rw [Yields, shareBuffers, ensures_modifyProgram]
  exact ⟨hs.shareBuffers, rfl⟩

theorem yields_expose : Yields (edit (s.program.order.toList.forM Edit.expose)) s
      (Network.run (Network.derive (Rule.output (some .data))) s.program.ids
        s.program.network) := by
  apply yields_edit
  exact Program.ensures_forM_derive (Rule.blind_output (some .data))
    (fun k n st wf hk => Program.ensures_expose_derives wf hk)
    hs.consistent.order_nodup hs.consistent.order_live hs.consistent

end Build

end LayerGraph
