import LayerGraph.Proofs.Network.Confluence
import LayerGraph.Proofs.Program.Extraction

/-!
# Programs seen through ids when a node is replaced

A node that takes the place of another one also takes over its id. Through ids nothing can be seen of
this (`SameWithout`): every id reads the ids that it read, the order, the names and the outputs list the
ids that they listed, and only the id that the replacement had before is gone.

The list of inputs does not follow in the same way. When it names exactly the nodes that read nothing,
the replacement is among them, and afterwards it is listed twice or is listed although it reads
something (`inputs_exact_after_replace_iff`).
-/

namespace LayerGraph

open List Option

namespace Program

variable {program edited : Program} {key old new : NodeKey} {model replacement : Node} {id : String}

/-! ## What can be seen through ids -/

/-- The ids that the node of an id reads, in slot order. -/
def readIds? (program : Program) (id : String) : Option (List String) :=
  (program.keyOf? id).map fun key => (program.dependencies key).map program.idOf

/-- The ids of the readers of the node of an id. -/
def readerIds (program : Program) (id : String) : List String :=
  match program.keyOf? id with
  | some key => (program.users key).map program.idOf
  | none => []

/-- Through ids, one program is the other one without an id that was not connected to anything. -/
structure SameWithout (program edited : Program) (gone : String) : Prop where
  reads : ∀ id, edited.readIds? id = if id = gone then none else program.readIds? id
  readers : ∀ id reader, reader ∈ edited.readerIds id ↔ reader ∈ program.readerIds id
  order : edited.ids = program.ids.filter (· != gone)
  names : edited.names.map Prod.fst = (program.names.map Prod.fst).filter (· != gone)
  outputs : edited.outputs.map edited.idOf = program.outputs.map program.idOf

theorem Consistent.keyOf?_eq_some_iff_idOf (wf : program.Consistent) :
    program.keyOf? id = some key ↔ program.contains key ∧ program.idOf key = id := by
  rw [wf.keyOf?_eq_some]
  constructor
  · rintro ⟨n, hk, rfl⟩
    exact ⟨contains_of_node? hk, idOf_of_node? hk⟩
  · rintro ⟨hv, rfl⟩
    obtain ⟨n, hk⟩ := contains_iff.mp hv
    exact ⟨n, hk, (idOf_of_node? hk).symm⟩

/-- The readers of an id are the ids that read it. -/
theorem Consistent.mem_readerIds (wf : program.Consistent) {reader : String} :
    reader ∈ program.readerIds id ↔ ∃ ids, program.readIds? reader = some ids ∧ id ∈ ids := by
  constructor
  · intro hl
    rw [readerIds] at hl
    split at hl
    case h_2 => cases hl
    next key named =>
    obtain ⟨user, uses, rfl⟩ := List.mem_map.mp hl
    have hk := wf.keyOf?_eq_some_iff_idOf.mpr ⟨wf.users_live uses, rfl⟩
    refine ⟨_, by rw [readIds?, hk, map_some], List.mem_map.mpr ⟨key, ?_, ?_⟩⟩
    · exact mem_users_iff.mp uses
    · exact (wf.keyOf?_eq_some_iff_idOf.mp named).2
  · rintro ⟨ids, hr, mem⟩
    obtain ⟨user, named, rfl⟩ := map_eq_some_iff.mp hr
    obtain ⟨key, isRead, rfl⟩ := List.mem_map.mp mem
    have hv := (wf.reads_live user key isRead).1
    rw [readerIds, wf.keyOf?_eq_some_iff_idOf.mpr ⟨hv, rfl⟩]
    exact List.mem_map.mpr ⟨user, mem_users_iff.mpr isRead, (wf.keyOf?_eq_some_iff_idOf.mp named).2⟩

/-! ## Replacing a node -/

namespace Replaceable

variable (replaceable : program.Replaceable old new model replacement)

include replaceable

theorem exists_redirected {o : NodeKey}
    (hv : (program.replaceNode old new model replacement.id).contains o) :
    ∃ key, key ≠ new ∧ program.contains key ∧ o = redirected old new key := by
  obtain ⟨hv, notOld⟩ := (replaceable.contains o).mp hv
  by_cases isNew : o = new
  · exact ⟨old, replaceable.different, contains_of_node? replaceable.foundOld,
      by rw [redirected, if_pos rfl, isNew]⟩
  · exact ⟨o, isNew, hv, by rw [redirected, if_neg notOld]⟩

theorem idOf_redirected (ne : key ≠ new) :
    (program.replaceNode old new model replacement.id).idOf (redirected old new key) =
      program.idOf key := by
  by_cases isOld : key = old
  · have placed : (program.replaceNode old new model replacement.id).node? new =
        some (replacement.inPlaceOf model) := by
      rw [replaceable.node?, if_neg replaceable.different.symm, if_pos rfl]
    rw [redirected, if_pos isOld, isOld, idOf_of_node? placed, idOf_of_node? replaceable.foundOld]
    rfl
  · rw [redirected, if_neg isOld, idOf, idOf, replaceable.node?, if_neg isOld, if_neg ne]

variable (wf : program.Consistent)

include wf

theorem idOf_eq_iff (hv : program.contains key) :
    program.idOf key = replacement.id ↔ key = new := by
  rw [← idOf_of_node? replaceable.foundNew]
  exact wf.idOf_inj hv (contains_of_node? replaceable.foundNew)

theorem ids_eq : (program.replaceNode old new model replacement.id).ids =
    program.ids.filter (· != replacement.id) := by
  have kept : program.order.toList.filter (· != new) = program.order.toList.filter ((· != replacement.id)
      ∘ program.idOf) := filter_congr fun key hl => by
      rw [Function.comp_apply, Bool.eq_iff_iff, bne_iff_ne, bne_iff_ne]
      exact not_congr (replaceable.idOf_eq_iff wf (wf.order_live key hl)).symm
  rw [Program.ids, Program.ids, replaceable.order_eq wf.order_nodup, List.map_map,
    List.filter_map, ← kept]
  refine map_congr_left fun key hl => replaceable.idOf_redirected ?_
  exact (ProcessingOrder.mem_erase.mp hl).2

variable (notSelf : old ∉ program.dependencies old)

include notSelf

/-- Every id names the node it named, under the key that now stands for it. -/
theorem keyOf? (id : String) : (program.replaceNode old new model replacement.id).keyOf? id =
      if id = replacement.id then none else (program.keyOf? id).map (redirected old new) := by
  have after := replaceable.consistent wf notSelf
  refine Option.ext fun o => ?_
  rw [after.keyOf?_eq_some_iff_idOf, ite_none_left_eq_some, map_eq_some_iff]
  simp only [wf.keyOf?_eq_some_iff_idOf]
  constructor
  · rintro ⟨hv, rfl⟩
    obtain ⟨key, ne, keyLive, rfl⟩ := replaceable.exists_redirected hv
    rw [replaceable.idOf_redirected ne, replaceable.idOf_eq_iff wf keyLive]
    exact ⟨ne, key, ⟨keyLive, rfl⟩, rfl⟩
  · rintro ⟨ne, key, ⟨hv, rfl⟩, rfl⟩
    rw [replaceable.idOf_eq_iff wf hv] at ne
    exact ⟨replaceable.contains_redirected hv, replaceable.idOf_redirected ne⟩

/-- What is read in the place of the replaced node is read under the same id. -/
theorem map_idOf_dependencies (ne : key ≠ new) :
    ((program.replaceNode old new model replacement.id).dependencies (redirected old new key)).map
        (program.replaceNode old new model replacement.id).idOf =
      (program.dependencies key).map program.idOf := by
  have lists : (program.replaceNode old new model replacement.id).dependencies
      (redirected old new key) = (program.dependencies key).map (redirected old new) := by
    rw [replaceable.dependencies wf notSelf, redirected]
    by_cases isOld : key = old
    · rw [if_pos isOld, if_neg replaceable.different.symm, if_pos rfl, isOld,
        map_redirected_of_not_mem notSelf]
    · rw [if_neg isOld, if_neg isOld, if_neg ne]
  rw [lists, List.map_map]
  exact map_congr_left fun src hr =>
    replaceable.idOf_redirected fun e => replaceable.unread key (e ▸ hr)

theorem readIds? (id : String) : (program.replaceNode old new model replacement.id).readIds? id =
      if id = replacement.id then none else program.readIds? id := by
  rw [Program.readIds?, Program.readIds?, replaceable.keyOf? wf notSelf]
  split
  · rfl
  next ne =>
  cases named : program.keyOf? id with
  | none => rfl
  | some key =>
    obtain ⟨hv, rfl⟩ := wf.keyOf?_eq_some_iff_idOf.mp named
    rw [replaceable.idOf_eq_iff wf hv] at ne
    exact congrArg some (replaceable.map_idOf_dependencies wf notSelf ne)

theorem mem_readerIds (id reader : String) :
    reader ∈ (program.replaceNode old new model replacement.id).readerIds id ↔
      reader ∈ program.readerIds id := by
  rw [(replaceable.consistent wf notSelf).mem_readerIds, wf.mem_readerIds,
    replaceable.readIds? wf notSelf]
  split
  · next isGone =>
    have nothing : program.readIds? reader = some [] := by
      rw [Program.readIds?, isGone, wf.keyOf?_id replaceable.foundNew, map_some,
        replaceable.alone, map_nil]
    simp [nothing]
  · rfl

/-- **Through ids, nothing but the loss of one id can be seen of a replacement.** -/
theorem sameWithout :
    SameWithout program (program.replaceNode old new model replacement.id) replacement.id where
  reads := replaceable.readIds? wf notSelf
  readers := replaceable.mem_readerIds wf notSelf
  order := replaceable.ids_eq wf
  names := map_fst_names_replaceNode program old new model replacement.id
  outputs := by
    have outputs : (program.replaceNode old new model replacement.id).outputs =
        program.outputs.map (redirected old new) := substitute_eq old new program.outputs
    rw [outputs, List.map_map]
    exact map_congr_left fun key hl => replaceable.idOf_redirected fun e =>
      replaceable.new_not_mem_outputs wf (e ▸ hl)

end Replaceable

/-- **Replacing a node by one that stands alone cannot be seen through ids.** The replacement gets the id
and the marks of the node, whose key is free then, and nothing is noted as removed. -/
theorem replacement_invisible_by_id (consistent : program.Consistent)
    (replaceable : program.Replaceable old new model replacement)
    (notSelf : old ∉ program.dependencies old) :
    ∃ edited, Edit.replace old new program = .ok () edited ∧
      SameWithout program edited replacement.id ∧ edited.keyOf? model.id = some new ∧
      edited.node? new = some (replacement.inPlaceOf model) ∧ edited.node? old = none ∧
      (∀ key, key ≠ old → key ≠ new → edited.node? key = program.node? key) ∧
      edited.optimizedOut = program.optimizedOut := by
  refine ⟨_, replaceable.replace_eq, replaceable.sameWithout consistent notSelf, ?_, ?_, ?_,
    fun key notOld notNew => ?_, rfl⟩
  · rw [replaceable.keyOf? consistent notSelf, if_neg fun e => replaceable.different
      (consistent.key_eq_of_id_eq replaceable.foundOld replaceable.foundNew e),
      consistent.keyOf?_id replaceable.foundOld, Option.map_some, redirected, if_pos rfl]
  · rw [replaceable.node?, if_neg replaceable.different.symm, if_pos rfl]
  · rw [replaceable.node?, if_pos rfl]
  · rw [replaceable.node?, if_neg notOld, if_neg notNew]

open Rewiring

/-- The node in the middle is replaced by the spare one, whose id is no longer seen. -/
theorem replacement_invisible_by_id_orderedReadings :
    orderedReadings.Consistent ∧ 1 ∉ orderedReadings.dependencies 1 ∧
      ∃ edited, Edit.replace 1 3 orderedReadings = .ok () edited ∧
        edited.readIds? "reader" = some ["source", "middle", "source"] ∧
        edited.ids = ["source", "middle", "reader"] ∧ edited.keyOf? "middle" = some 3 := by
  have notSelf : 1 ∉ orderedReadings.dependencies 1 := by decide
  have replaceable : orderedReadings.Replaceable 1 3
      (.ofPrimitive { id := "middle", kind := .eltwise .sum })
      (.ofPrimitive { id := "spare", kind := .eltwise .sum }) := by
    refine ⟨by decide, by decide, by decide, by decide, fun key reads => ?_, rfl⟩
    obtain ⟨edge, member, source, -⟩ := mem_dependencies.mp reads
    have apart : ∀ edge ∈ orderedReadings.edges, edge.source ≠ 3 := by decide
    exact apart edge member source
  obtain ⟨edited, result, same, named, -⟩ :=
    replacement_invisible_by_id consistent_orderedReadings replaceable notSelf
  refine ⟨consistent_orderedReadings, notSelf, edited, result, ?_, ?_, named⟩
  · rw [same.reads]
    decide
  · rw [same.order]
    decide

/-! ## The list of inputs -/

theorem mem_dependencies_replaceNode {newId : String} {src : NodeKey} :
    src ∈ (program.replaceNode old new model newId).dependencies key ↔
      (src ≠ old ∧ key ≠ old) ∧ (src = new ∧ old ∈ program.dependencies key ∨
        key = new ∧ src ∈ program.dependencies old ∨ src ∈ program.dependencies key) := by
  simp only [mem_dependencies, mem_edges_replaceNode]
  constructor
  · rintro ⟨_, ⟨apart, ⟨pre, mem, rfl, rfl⟩ | ⟨pre, mem, rfl, rfl⟩ | mem⟩, rfl, rfl⟩
    · exact ⟨apart, .inl ⟨rfl, pre, mem, rfl, rfl⟩⟩
    · exact ⟨apart, .inr (.inl ⟨rfl, pre, mem, rfl, rfl⟩)⟩
    · exact ⟨apart, .inr (.inr ⟨_, mem, rfl, rfl⟩)⟩
  · rintro ⟨apart, ⟨rfl, pre, mem, rfl, rfl⟩ | ⟨rfl, pre, mem, rfl, rfl⟩ |
      ⟨pre, mem, rfl, rfl⟩⟩
    · exact ⟨_, ⟨apart, .inl ⟨pre, mem, rfl, rfl⟩⟩, rfl, rfl⟩
    · exact ⟨_, ⟨apart, .inr (.inl ⟨pre, mem, rfl, rfl⟩)⟩, rfl, rfl⟩
    · exact ⟨pre, ⟨apart, .inr (.inr mem)⟩, rfl, rfl⟩

namespace Replaceable

variable (replaceable : program.Replaceable old new model replacement)

include replaceable

/-- The replacement reads nothing when the node read nothing but itself. -/
theorem dependencies_new_eq_nil :
    (program.replaceNode old new model replacement.id).dependencies new = [] ↔
      ∀ src ∈ program.dependencies old, src = old := by
  simp only [eq_nil_iff_forall_not_mem, mem_dependencies_replaceNode, replaceable.alone,
    not_mem_nil, and_false, or_false, false_or, true_and, not_and]
  exact forall_congr' fun src => ⟨fun none hr => not_not.mp fun differs =>
    none ⟨differs, replaceable.different.symm⟩ hr, fun all apart hr => apart.1 (all hr)⟩

/-- Any other node reads nothing when it read nothing. -/
theorem dependencies_eq_nil (notOld : key ≠ old) (notNew : key ≠ new) :
    (program.replaceNode old new model replacement.id).dependencies key = [] ↔
      program.dependencies key = [] := by
  simp only [eq_nil_iff_forall_not_mem, mem_dependencies_replaceNode, notNew]
  refine ⟨fun none src hr => ?_, fun none src => ?_⟩
  · by_cases isOld : src = old
    · subst isOld
      exact none new ⟨⟨replaceable.different.symm, notOld⟩, .inl ⟨rfl, hr⟩⟩
    · exact none src ⟨⟨isOld, notOld⟩, .inr (.inr hr)⟩
  · simp [none]

/-- When the replaced node read something, the list of inputs stays as it is. -/
theorem inputsExact_iff (exact : program.InputsExact) :
    (program.replaceNode old new model replacement.id).InputsExact ↔
      program.dependencies old ≠ [] ∧ ∀ src ∈ program.dependencies old, src = old := by
  have newLive := contains_of_node? replaceable.foundNew
  have newListed : new ∈ program.inputs := (exact.mem new).mpr ⟨newLive, replaceable.alone⟩
  have inputs : (program.replaceNode old new model replacement.id).inputs =
      program.inputs.map (redirected old new) := substitute_eq old new program.inputs
  by_cases hl : old ∈ program.inputs
  · -- Both keys are listed, and become the same one.
    have hr := ((exact.mem old).mp hl).2
    refine iff_of_false (fun after => ?_) fun both => both.1 hr
    have nd := after.nodup
    rw [inputs] at nd
    have e := inj_on_of_nodup_map nd hl newListed (by simp [redirected])
    exact replaceable.different e
  · have e : (program.replaceNode old new model replacement.id).inputs = program.inputs :=
      inputs.trans (map_redirected_of_not_mem hl new)
    have hr : program.dependencies old ≠ [] := fun none =>
      hl ((exact.mem old).mpr ⟨contains_of_node? replaceable.foundOld, none⟩)
    rw [← replaceable.dependencies_new_eq_nil]
    constructor
    · intro after
      exact ⟨hr, ((after.mem new).mp (e ▸ newListed)).2⟩
    · rintro ⟨-, nothing⟩
      refine ⟨e ▸ exact.nodup, fun key => ?_⟩
      rw [e, exact.mem, replaceable.contains]
      by_cases isOld : key = old
      · simp [isOld, hr]
      · by_cases isNew : key = new
        · simp [isNew, nothing, replaceable.alone, replaceable.different.symm]
        · rw [replaceable.dependencies_eq_nil isOld isNew]
          simp [isOld]

end Replaceable

/-- **A replacement keeps the list of inputs exact only where a node replaces itself, or one that reads
itself and nothing else.** -/
theorem inputs_exact_after_replace_iff (exact : program.InputsExact)
    (done : Edit.replace old new program = .ok () edited) :
    edited.InputsExact ↔ old = new ∨
      program.dependencies old ≠ [] ∧ ∀ source ∈ program.dependencies old, source = old := by
  have ends : Ends (Edit.replace old new) program _ _ := ends_replace old new
  rw [Ends, done] at ends
  rcases ends with ⟨-, same, rfl⟩ | ⟨model, replacement, replaceable, rfl⟩
  · exact iff_of_true exact (.inl same)
  · rw [replaceable.inputsExact_iff exact, or_iff_right replaceable.different]

theorem inputsExact_orderedReadings : orderedReadings.InputsExact := by
  refine ⟨by decide, fun key => ⟨fun hl => ?_, fun ⟨hv, nothing⟩ => ?_⟩⟩
  · have each : ∀ key ∈ orderedReadings.inputs,
        orderedReadings.contains key ∧ orderedReadings.dependencies key = [] := by decide
    exact each key hl
  · have each : ∀ key < 4, orderedReadings.dependencies key = [] →
        key ∈ orderedReadings.inputs := by decide
    exact each key (lt_of_contains hv) nothing

/-- The spare node reads the source once it stands for the node in the middle, and is still listed. -/
theorem inputs_exact_after_replace_iff_orderedReadings :
    orderedReadings.InputsExact ∧ ∃ edited, Edit.replace 1 3 orderedReadings = .ok () edited ∧
      ¬ edited.InputsExact := by
  refine ⟨inputsExact_orderedReadings, _, rfl, fun exact => ?_⟩
  have done : Edit.replace 1 3 orderedReadings = .ok () _ := rfl
  have cases := (inputs_exact_after_replace_iff inputsExact_orderedReadings done).mp exact
  exact absurd cases (by decide)

/-- A source that is replaced by another one leaves the other one listed twice. -/
theorem replaced_source_listed_twice :
    orderedReadings.Consistent ∧ orderedReadings.InputsExact ∧
      ∃ edited, Edit.replace 0 3 orderedReadings = .ok () edited ∧ edited.inputs = [3, 3] ∧
        ¬ edited.InputsExact := by
  refine ⟨consistent_orderedReadings, inputsExact_orderedReadings, _, rfl, rfl, fun exact => ?_⟩
  exact absurd exact.nodup (by decide)

end Program

end LayerGraph
