import LayerGraph.Program.Connection
import LayerGraph.Proofs.Program.Outcome

/-!
# Replacing nodes

A node that stands alone takes the place of another one (`Replaceable`): it reads what the other
read, is read where the other was read, and takes over its id, its marks and its place in the order.
Every other node stays, and the order stays complete.

Before that, connections may be taken away one after the other; in the end a node reads nothing
(`ensures_disconnectAll`).
-/

namespace LayerGraph

open List

/-- The replacement once it stands in the place of another node. -/
def Node.inPlaceOf (replacement model : Node) : Node :=
  { replacement with
    isConstant := model.isConstant, inDataFlow := model.inDataFlow,
    isOutput := model.isOutput }.withId model.id

namespace Program

variable {p q : Program} {k old new : NodeKey} {model rep : Node}

theorem substitute_eq (old new : NodeKey) (ks : List NodeKey) :
    substitute old new ks = ks.map (redirected old new) := by
  simp only [substitute, beq_iff_eq]
  rfl

/-- Different keys stay different, unless one of them is the key that is put in. -/
theorem redirected_inj {a b : NodeKey} (firstDiffers : a ≠ new) (secondDiffers : b ≠ new) :
    redirected old new a = redirected old new b ↔ a = b := by
  rw [redirected, redirected]
  by_cases firstOld : a = old
  · by_cases secondOld : b = old
    · simp [firstOld, secondOld]
    · simp [firstOld, secondOld, Ne.symm secondDiffers, Ne.symm secondOld]
  · by_cases secondOld : b = old
    · simp [firstOld, secondOld, firstDiffers]
    · simp [firstOld, secondOld]

theorem nodup_map_redirected {ks : List NodeKey} (nd : ks.Nodup) (ha : new ∉ ks) :
    (ks.map (redirected old new)).Nodup := by
  have differs : ∀ k ∈ ks, k ≠ new := fun k mem e => ha (e ▸ mem)
  exact nd.map_on fun a inFirst b inSecond =>
    (redirected_inj (differs a inFirst) (differs b inSecond)).mp

theorem order_replaceNode (p : Program) (old new : NodeKey) (model : Node) (newId : String) :
    (p.replaceNode old new model newId).order =
      if p.order.contains old then p.order.replace old new
      else p.order.erase new := rfl

/-- The edges after a replacement: copies of the edges of the old node, and those between other nodes. -/
theorem mem_edges_replaceNode {newId : String} {edge : Edge} :
    edge ∈ (p.replaceNode old new model newId).edges ↔ (edge.source ≠ old ∧ edge.target ≠ old) ∧
        ((∃ pre ∈ p.edges, pre.source = old ∧ { pre with source := new } = edge) ∨
          (∃ pre ∈ p.edges, pre.target = old ∧ { pre with target := new } = edge) ∨
            edge ∈ p.edges) := by
  refine mem_filter.trans (and_comm.trans (and_congr (by simp) ?_))
  simp only [copyWiring, modifyNode, outgoing, incoming, mem_append, mem_reverse, List.mem_map,
    mem_filter, beq_iff_eq, and_assoc, or_assoc]

/-- The ids keep their places, and the id that the replacement had is struck. -/
theorem map_fst_names_replaceNode (p : Program) (old new : NodeKey) (model : Node)
    (newId : String) : (p.replaceNode old new model newId).names.map Prod.fst =
      (p.names.map Prod.fst).filter (· != newId) := by
  have names : (p.replaceNode old new model newId).names =
      (p.names.filter (·.1 != newId)).map fun entry =>
        if entry.1 == model.id then (model.id, new) else entry := rfl
  have firsts : (Prod.fst ∘ fun entry : String × NodeKey =>
      if entry.1 == model.id then (model.id, new) else entry) = Prod.fst := by
    funext entry
    by_cases e : entry.1 = model.id
    · simp [e]
    · simp [e]
  rw [names, List.map_map, firsts, List.filter_map]
  rfl

/-- A node that stands alone, and another one in whose place it can be put. -/
structure Replaceable (program : Program) (old new : NodeKey) (model replacement : Node) :
    Prop where
  different : old ≠ new
  foundOld : program.node? old = some model
  foundNew : program.node? new = some replacement
  alone : program.dependencies new = []
  unread : ∀ key, new ∉ program.dependencies key
  unmarked : replacement.isOutput = false

namespace Replaceable

variable (repl : p.Replaceable old new model rep)

include repl

theorem node? (k : NodeKey) : (p.replaceNode old new model rep.id).node? k =
      if k = old then none
      else if k = new then some (rep.inPlaceOf model)
      else p.node? k := by
  have store : (p.replaceNode old new model rep.id).store = ((p.store.modify new fun n => { n with
          isConstant := model.isConstant, inDataFlow := model.inDataFlow,
          isOutput := model.isOutput }).erase old).modify new (·.withId model.id) := rfl
  have hk : p.store.get? new = some rep := repl.foundNew
  rw [Program.node?, store, NodeStore.get?_modify, NodeStore.get?_erase, NodeStore.get?_modify]
  by_cases isNew : k = new
  · have notOld : k ≠ old := fun e => repl.different (e.symm.trans isNew)
    rw [if_pos isNew, if_neg notOld, if_pos isNew, if_neg notOld, if_pos isNew, isNew, hk]
    rfl
  · rw [if_neg isNew, if_neg isNew, if_neg isNew]
    rfl

theorem contains (k : NodeKey) : (p.replaceNode old new model rep.id).contains k ↔
      p.contains k ∧ k ≠ old := by
  rw [contains_iff, repl.node?]
  by_cases isOld : k = old
  · simp [isOld]
  · by_cases isNew : k = new
    · have hv : p.contains new := contains_of_node? repl.foundNew
      simp [isNew, hv, Ne.symm repl.different]
    · simp [isOld, isNew, contains_iff]

/-- The nodes after a replacement are those before it, in their new places. -/
theorem exists_node?_iff {holds : Node → Prop} (same : holds (rep.inPlaceOf model) ↔ holds model)
    (k : NodeKey) : (∃ n, (p.replaceNode old new model rep.id).node? k = some n ∧ holds n) ↔
      ∃ pre, pre ≠ new ∧ redirected old new pre = k ∧ ∃ n, p.node? pre = some n ∧ holds n := by
  rw [repl.node?]
  constructor
  · rintro ⟨n, hk, h⟩
    split at hk
    · cases hk
    next notOld =>
    split at hk
    · next isNew =>
      cases hk
      exact ⟨old, repl.different, by rw [redirected, if_pos rfl, isNew], model, repl.foundOld,
        same.mp h⟩
    · next notNew => exact ⟨k, notNew, if_neg notOld, n, hk, h⟩
  · rintro ⟨pre, notNew, rfl, n, hk, h⟩
    by_cases isOld : pre = old
    · subst isOld
      cases hk.symm.trans repl.foundOld
      rw [redirected, if_pos rfl, if_neg (Ne.symm repl.different), if_pos rfl]
      exact ⟨_, rfl, same.mpr h⟩
    · rw [redirected, if_neg isOld, if_neg isOld, if_neg notNew]
      exact ⟨n, hk, h⟩

theorem mem_names (wf : p.Consistent) (id : String) (k : NodeKey) :
    (id, k) ∈ (p.replaceNode old new model rep.id).names ↔
      ∃ n, (p.replaceNode old new model rep.id).node? k = some n ∧ n.id = id := by
  have names : (p.replaceNode old new model rep.id).names =
      (p.names.filter (·.1 != rep.id)).map fun entry =>
        if entry.1 == model.id then (model.id, new) else entry := rfl
  rw [repl.exists_node?_iff Iff.rfl]
  simp only [names, List.mem_map, mem_filter, bne_iff_ne, beq_iff_eq, and_assoc]
  constructor
  · rintro ⟨entry, hl, kept, moved⟩
    refine ⟨entry.2, mt (wf.name_iff repl.foundNew hl).mpr kept, ?_⟩
    simp only [wf.name_iff repl.foundOld hl] at moved
    split at moved
    · next isOld =>
      cases moved
      exact ⟨by rw [isOld, redirected, if_pos rfl], model, isOld ▸ repl.foundOld, rfl⟩
    · next notOld =>
      cases moved
      exact ⟨if_neg notOld, (wf.mem_names id k).mp hl⟩
  · rintro ⟨pre, notNew, rfl, n, hk, rfl⟩
    have hl := (wf.mem_names n.id pre).mpr ⟨n, hk, rfl⟩
    refine ⟨(n.id, pre), hl, mt (wf.name_iff repl.foundNew hl).mp notNew, ?_⟩
    simp only [wf.name_iff repl.foundOld hl, redirected]
    split
    · next isOld => rw [← (wf.name_iff repl.foundOld hl).mpr isOld]
    · rfl

theorem dependencies (wf : p.Consistent) (notSelf : old ∉ p.dependencies old) (k : NodeKey) :
    (p.replaceNode old new model rep.id).dependencies k = if k = old then [] else if k = new then
    p.dependencies old else (p.dependencies k).map (redirected old new) :=
  dependencies_replaceNode model rep.id wf.slots repl.different notSelf repl.alone k

variable {k : NodeKey}

/-- Where a dependency after a replacement comes from. -/
theorem dependency_cases (wf : p.Consistent) (notSelf : old ∉ p.dependencies old) {dep : NodeKey} (hr
    : dep ∈ (p.replaceNode old new model rep.id).dependencies k) : ∃ pre src, k = redirected old
    new pre ∧ dep = redirected old new src ∧ src ∈ p.dependencies pre := by
  rw [repl.dependencies wf notSelf] at hr
  split at hr
  · cases hr
  next notOld =>
  split at hr
  · next isNew =>
    have kept : dep ≠ old := fun e => notSelf (e ▸ hr)
    exact ⟨old, dep, by simp [redirected, isNew], by simp [redirected, kept], hr⟩
  · obtain ⟨src, mem, rfl⟩ := List.mem_map.mp hr
    exact ⟨k, src, by simp [redirected, notOld], rfl, mem⟩

theorem contains_redirected (hv : p.contains k) : (p.replaceNode old new model rep.id).contains
    (redirected old new k) := by
  rw [repl.contains, redirected]
  split
  · exact ⟨contains_of_node? repl.foundNew, Ne.symm repl.different⟩
  · next o => exact ⟨hv, o⟩

/-- Renaming the replaced node in the old order gives the new one. -/
theorem order_eq (nodup : p.order.toList.Nodup) :
    (p.replaceNode old new model rep.id).order.toList =
      (p.order.erase new).toList.map (redirected old new) := by
  rw [order_replaceNode]
  by_cases hl : old ∈ p.order.toList
  · obtain ⟨pre, after, split, placed⟩ := ProcessingOrder.toList_replace nodup hl repl.different
    have nd : (pre ++ old :: after).Nodup := split ▸ nodup.sublist ProcessingOrder.erase_sublist
    have ha := (nodup_cons.mp (nodup_middle.mp nd)).1
    have others : (pre ++ after).map (redirected old new) = pre ++ after :=
      map_redirected_of_not_mem ha new
    rw [map_append] at others
    obtain ⟨front, back⟩ := append_inj others (by simp)
    rw [if_pos (by simpa [ProcessingOrder.contains] using hl), placed, split, map_append,
      map_cons, front, back, redirected, if_pos rfl]
  · rw [if_neg (by simpa [ProcessingOrder.contains] using hl)]
    exact (map_redirected_of_not_mem (fun mem => hl (ProcessingOrder.mem_erase.mp mem).1) new).symm

theorem new_not_mem_outputs (wf : p.Consistent) : new ∉ p.outputs := by
  intro hl
  obtain ⟨n, hk, hm⟩ := (wf.mem_outputs new).mp hl
  cases hk.symm.trans repl.foundNew
  rw [repl.unmarked] at hm
  cases hm

theorem mem_outputs (wf : p.Consistent) (k : NodeKey) :
    k ∈ (p.replaceNode old new model rep.id).outputs ↔
      ∃ n, (p.replaceNode old new model rep.id).node? k = some n ∧ n.isOutput := by
  have outputs : (p.replaceNode old new model rep.id).outputs =
      p.outputs.map (redirected old new) := substitute_eq old new p.outputs
  rw [outputs, List.mem_map, repl.exists_node?_iff Iff.rfl]
  simp only [← wf.mem_outputs]
  constructor
  · rintro ⟨pre, hl, moved⟩
    exact ⟨pre, ne_of_mem_of_not_mem hl (repl.new_not_mem_outputs wf), moved, hl⟩
  · rintro ⟨pre, -, moved, hl⟩
    exact ⟨pre, hl, moved⟩

theorem consistent (wf : p.Consistent) (notSelf : old ∉ p.dependencies old) :
    (p.replaceNode old new model rep.id).Consistent where
  store := (((wf.store.modify new _).erase old).modify new _)
  names_nodup := by
    rw [map_fst_names_replaceNode]
    exact wf.names_nodup.filter _
  mem_names := repl.mem_names wf
  reads_live k dep hr := by
    obtain ⟨pre, src, rfl, rfl, mem⟩ := repl.dependency_cases wf notSelf hr
    obtain ⟨sourceLive, targetLive⟩ := wf.reads_live pre src mem
    exact ⟨repl.contains_redirected sourceLive, repl.contains_redirected targetLive⟩
  slots := slotsExact_replaceNode model rep.id wf.slots repl.different notSelf repl.alone
  order_nodup := by
    rw [repl.order_eq wf.order_nodup]
    exact nodup_map_redirected (wf.order_nodup.sublist ProcessingOrder.erase_sublist)
      fun mem => (ProcessingOrder.mem_erase.mp mem).2 rfl
  order_live k hl := by
    rw [repl.order_eq wf.order_nodup, List.mem_map] at hl
    obtain ⟨pre, mem, rfl⟩ := hl
    exact repl.contains_redirected (wf.order_live pre (ProcessingOrder.mem_erase.mp mem).1)
  inputs_live k hl := by
    have inputs : (p.replaceNode old new model rep.id).inputs =
        p.inputs.map (redirected old new) := substitute_eq old new p.inputs
    rw [inputs, List.mem_map] at hl
    obtain ⟨pre, mem, rfl⟩ := hl
    exact repl.contains_redirected (wf.inputs_live pre mem)
  outputs_nodup := by
    have outputs : (p.replaceNode old new model rep.id).outputs =
        p.outputs.map (redirected old new) := substitute_eq old new p.outputs
    rw [outputs]
    exact nodup_map_redirected wf.outputs_nodup (repl.new_not_mem_outputs wf)
  mem_outputs := repl.mem_outputs wf

/-- **The order stays valid when a node is replaced.** -/
theorem hasValidOrder (wf : p.Consistent) (valid : p.HasValidOrder) :
    (p.replaceNode old new model rep.id).HasValidOrder := by
  have notSelf := valid.not_self old
  refine ⟨(repl.consistent wf notSelf).order_nodup, fun k dep hr => ?_⟩
  obtain ⟨tgt, src, rfl, rfl, mem⟩ := repl.dependency_cases wf notSelf hr
  have pair := valid.before tgt src mem
  have sourceKept : src ≠ new := fun e => repl.unread tgt (e ▸ mem)
  have targetKept : tgt ≠ new := fun e => by
    subst e
    rw [repl.alone] at mem
    cases mem
  rw [repl.order_eq valid.nodup]
  exact (ProcessingOrder.pair_sublist_erase pair sourceKept targetKept).map (redirected old new)

/-- **The order stays complete when a node is replaced.** The replacement itself need not be listed
before. -/
theorem hasCompleteOrder (wf : p.Consistent) (valid : p.HasValidOrder)
    (hl : ∀ k, p.contains k → k ≠ new → k ∈ p.order.toList) :
    (p.replaceNode old new model rep.id).HasCompleteOrder := by
  have oldListed := hl old (contains_of_node? repl.foundOld) repl.different
  have kept := repl.consistent wf (valid.not_self old)
  refine ⟨repl.hasValidOrder wf valid, fun k => ⟨kept.order_live k, fun hv => ?_⟩⟩
  obtain ⟨hv, notOld⟩ := (repl.contains k).mp hv
  rw [repl.order_eq valid.nodup, List.mem_map]
  by_cases isNew : k = new
  · exact ⟨old, ProcessingOrder.mem_erase.mpr ⟨oldListed, repl.different⟩, by simp [redirected, isNew]⟩
  · exact ⟨k, ProcessingOrder.mem_erase.mpr ⟨hl k hv isNew, isNew⟩, by simp [redirected, notOld]⟩

end Replaceable

/-- What an edit checks before it puts a node in the place of another one. -/
theorem detached_iff : (p.dependencyCount new == 0 && p.userCount new == 0) = true ↔
    p.dependencies new = [] ∧ ∀ k, new ∉ p.dependencies k := by
  simp only [Bool.and_eq_true, beq_iff_eq, userCount, length_eq_zero_iff, ← mem_users_iff,
    eq_nil_iff_forall_not_mem, ← length_dependencies]

/-- **A node is replaced, or the replacement is refused.** A node in its own place changes
nothing. -/
theorem ends_replace (old new : NodeKey) : Ends (Edit.replace old new) p
      (fun _ q => p.contains old ∧ old = new ∧ q = p ∨
        ∃ model rep, p.Replaceable old new model rep ∧ q = p.replaceNode old new model rep.id)
      (fun fault left => fault.IsRefusal ∧ left = p ∧
        ∀ model rep, ¬ p.Replaceable old new model rep) := by
  rw [Edit.replace]
  refine ends_requireBoth (fun hv => ?_) fun _ refused missing => ⟨refused, rfl, fun _ _ h =>
    missing ⟨contains_of_node? h.foundOld, contains_of_node? h.foundNew⟩⟩
  obtain ⟨model, foundOld⟩ := contains_iff.mp hv.1
  obtain ⟨rep, foundNew⟩ := contains_iff.mp hv.2
  split
  · next e => exact .inl ⟨hv.1, e, rfl⟩
  next ne =>
  simp only [ends_bind, ends_get, ends_nodeAt foundNew]
  split
  case isFalse ht =>
    exact ⟨⟨not_false, _, rfl⟩, rfl, fun _ _ h =>
      ht (detached_iff.mpr ⟨h.alone, h.unread⟩)⟩
  next detached =>
  obtain ⟨alone, unread⟩ := detached_iff.mp detached
  split
  · next hm =>
    refine ⟨⟨not_false, _, rfl⟩, rfl, fun _ _ h => ?_⟩
    cases foundNew.symm.trans h.foundNew
    simp [h.unmarked] at hm
  next unmarked =>
  simp only [ends_bind, ends_nodeAt foundOld, ends_modify]
  exact .inr ⟨model, rep, ⟨ne, foundOld, foundNew, alone, unread, by simpa using unmarked⟩, rfl⟩

/-- A node that stands alone is put in the place of another one. -/
theorem Replaceable.replace_eq (repl : p.Replaceable old new model rep) :
    Edit.replace old new p = .ok () (p.replaceNode old new model rep.id) := by
  obtain ⟨_, q, result, ⟨-, e, -⟩ | ⟨_, _, again, rfl⟩⟩ :=
    (ends_replace old new).exists_ok fun _ _ h => h.2.2 _ _ repl
  · exact absurd e repl.different
  · cases again.foundOld.symm.trans repl.foundOld
    cases again.foundNew.symm.trans repl.foundNew
    exact result

/-! ## Taking away what a node reads -/

/-- A program in which one node reads less and nothing else differs. -/
structure ReadsLess (program edited : Program) (key : NodeKey) : Prop where
  rest : edited = { program with edges := edited.edges }
  others : ∀ other, other ≠ key → edited.dependencies other = program.dependencies other
  subset : edited.dependencies key ⊆ program.dependencies key
  slots : ∀ other, edited.SlotsExact other

namespace ReadsLess

theorem refl (slots : ∀ k, p.SlotsExact k) (k : NodeKey) : ReadsLess p p k :=
  ⟨rfl, fun _ _ => rfl, fun _ mem => mem, slots⟩

theorem trans {mid : Program} (a : ReadsLess p mid k)
    (b : ReadsLess mid q k) : ReadsLess p q k where
  rest := by rw [b.rest, a.rest]
  others o ne := (b.others o ne).trans (a.others o ne)
  subset _ mem := a.subset (b.subset mem)
  slots := b.slots

theorem dependencies_subset (less : ReadsLess p q k) (o : NodeKey) :
    q.dependencies o ⊆ p.dependencies o := by
  by_cases e : o = k
  · subst e
    exact less.subset
  · rw [less.others o e]
    exact fun _ mem => mem

theorem node? (less : ReadsLess p q k) : q.node? = p.node? := by
  rw [less.rest]
  rfl

theorem consistent (less : ReadsLess p q k) (wf : p.Consistent) : q.Consistent := by
  have subset := less.dependencies_subset
  have slots := less.slots
  rw [less.rest] at subset slots ⊢
  exact wf.rewired (fun o dep hr =>
    wf.reads_live o dep (subset o hr)) slots

theorem hasValidOrder (less : ReadsLess p q k) (valid : p.HasValidOrder) : q.HasValidOrder := by
  have subset := less.dependencies_subset
  rw [less.rest] at subset ⊢
  exact ⟨valid.nodup, fun o dep hr =>
    valid.before o dep (subset o hr)⟩

end ReadsLess

/-- The program in which `next` reads `prev` no longer. -/
def separated (program : Program) (prev next : NodeKey) : Program :=
  if program.hasEdge prev next then
    (program.dropEdges fun edge => edge.source == prev && edge.target == next).closeGaps next
  else program

theorem readsLess_separated (slots : ∀ k, p.SlotsExact k) (prev next : NodeKey) :
    ReadsLess p (p.separated prev next) next ∧ (p.separated prev next).dependencies next =
        (p.dependencies next).filter (· != prev) := by
  rw [separated]
  split
  · have lists := dependencies_disconnect slots prev next
    refine ⟨⟨rfl, fun o ne => ?_, ?_, slotsExact_disconnect slots prev next⟩, ?_⟩
    · rw [lists, if_neg ne]
    · rw [lists, if_pos rfl]
      exact filter_sublist.subset
    · rw [lists, if_pos rfl]
  · next apart =>
    refine ⟨.refl slots next, (filter_eq_self.mpr fun src hr => ?_).symm⟩
    rw [bne_iff_ne]
    rintro rfl
    exact apart (hasEdge_iff.mpr hr)

theorem ends_disconnect (prev next : NodeKey) : Ends (Edit.disconnect prev next) p
      (fun _ q => (p.contains prev ∧ p.contains next) ∧ q = p.separated prev next)
      (fun fault left => fault.IsRefusal ∧ left = p ∧ ¬ (p.contains prev ∧ p.contains next)) := by
  rw [Edit.disconnect]
  refine ends_requireBoth (fun hv => ?_) fun _ refused missing => ⟨refused, rfl, missing⟩
  rw [ends_bind, ends_get, separated]
  split
  · exact ⟨hv, rfl⟩
  · exact ⟨hv, rfl⟩

/-- **A node that is disconnected from everything it reads reads nothing.** -/
theorem ensures_disconnectAll {failed : Fault → Prop} (wf : p.Consistent) (k : NodeKey) :
    Ensures ((p.dependencies k).forM fun dep => Edit.disconnect dep k)
      p (fun _ q => ReadsLess p q k ∧ q.dependencies k = []) failed := by
  have start : ReadsLess p p k ∧ p.dependencies k ⊆ p.dependencies k ∧ ∀ dep ∈ p.dependencies k,
      p.contains dep ∧ p.contains k := ⟨.refl wf.slots k, fun _ mem => mem, wf.reads_live k⟩
  refine (ensures_forM (fun rest state => ReadsLess p state k ∧ state.dependencies k ⊆ rest ∧
    ∀ dep ∈ rest, p.contains dep ∧ p.contains k) ?_ start).weaken ?_
  · rintro dep rest state ⟨less, inside, hv⟩
    have e : state.contains = p.contains := by
      rw [less.rest]
      rfl
    obtain ⟨dependencyLive, keyLive⟩ := hv dep mem_cons_self
    rw [← e] at dependencyLive keyLive
    refine (ends_disconnect dep k).mono ?_ fun _ _ h =>
      absurd ⟨dependencyLive, keyLive⟩ h.2.2
    rintro _ _ ⟨-, rfl⟩
    obtain ⟨step, list⟩ := readsLess_separated less.slots dep k
    refine ⟨less.trans step, fun src hr => ?_, fun o mem =>
      hv o (mem_cons_of_mem _ mem)⟩
    rw [list, mem_filter, bne_iff_ne] at hr
    exact (mem_cons.mp (inside hr.1)).resolve_left hr.2
  · rintro _ q ⟨less, inside, -⟩
    exact ⟨less, subset_nil.mp inside⟩

end Program

end LayerGraph
