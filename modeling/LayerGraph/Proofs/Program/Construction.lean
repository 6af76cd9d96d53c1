import LayerGraph.Program.Construction
import LayerGraph.Proofs.Geometry.Overflow
import LayerGraph.Proofs.Program.Outcome

/-!
# Building programs

A program that is made from a topology, or from some of the nodes of another program, is consistent.
No node of it has a fused activation unless the node that it is a copy of has one, and every copy
reads the copies of what its model reads (`IsCopy`).

Both constructions are loops that may be refused. What such a loop keeps is what each of its rounds
keeps (`foldlM_keeps`).
-/

namespace LayerGraph

open List Option Prod

/-- An error that is about what was asked for, and not about the program. -/
def Error.BlamesRequest (error : Error) : Prop := ¬ (Fault.refused error).BlamesProgram

/-- The copy of a node in the program of some nodes. -/
def Node.copied (node : Node) : Node :=
  { Node.ofPrimitive (Program.copiedPrimitive node) with fused := node.fused }.withPadding node.padding

section Loops

variable {error : Error} {σ α : Type} {step : σ → α → Except Error σ} {xs : List α} {st final : σ}

/-- A loop that is not refused ends with what its rounds keep. -/
theorem foldlM_keeps (keeps : List α → σ → Prop) (round : ∀ x rest st next, keeps (x :: rest) st →
      step st x = .ok next → keeps rest next)
    (start : keeps xs st) (res : xs.foldlM step st = .ok final) : keeps [] final := by
  induction xs generalizing st with
  | nil =>
    cases res
    exact start
  | cons x rest ih =>
    rw [foldlM_cons, bind_eq_ok] at res
    obtain ⟨next, taken, res⟩ := res
    exact ih (round x rest st next start taken) res

/-- A loop that is not refused ends with what its rounds build, one after the other. -/
theorem foldlM_builds (built : List α → σ → Prop)
    (round : ∀ done x rest st next, done ++ x :: rest = xs → built done st →
      step st x = .ok next → built (done ++ [x]) next)
    (start : built [] st) (res : xs.foldlM step st = .ok final) : built xs final := by
  obtain ⟨done, split, last⟩ : ∃ done, done ++ [] = xs ∧ built done final := by
    refine foldlM_keeps (fun rest st => ∃ done, done ++ rest = xs ∧ built done st) ?_
      ⟨[], rfl, start⟩ res
    rintro x rest st next ⟨done, split, pre⟩ taken
    exact ⟨done ++ [x], by simp [← split], round done x rest st next split pre taken⟩
  rw [append_nil] at split
  exact split ▸ last

/-- When it does not depend on the rounds before whether a round is refused, a loop ends if and only
if no round is refused. -/
theorem foldlM_isOk (keeps : σ → Prop) (fine : α → Prop)
    (round : ∀ st x, keeps st → ((∃ next, step st x = .ok next) ↔ fine x))
    (kept : ∀ st x next, keeps st → step st x = .ok next → keeps next) (start : keeps st) :
    (∃ final, xs.foldlM step st = .ok final) ↔ ∀ x ∈ xs, fine x := by
  induction xs generalizing st with
  | nil => exact ⟨fun _ _ mem => (not_mem_nil mem).elim, fun _ => ⟨st, rfl⟩⟩
  | cons x rest ih =>
    simp only [foldlM_cons, bind_eq_ok, forall_mem_cons]
    constructor
    · rintro ⟨final, next, taken, later⟩
      exact ⟨(round st x start).mp ⟨next, taken⟩, (ih (kept st x next start taken)).mp ⟨final, later⟩⟩
    · rintro ⟨a, others⟩
      obtain ⟨next, taken⟩ := (round st x start).mpr a
      obtain ⟨final, later⟩ := (ih (kept st x next start taken)).mpr others
      exact ⟨final, next, taken, later⟩

/-- A loop either goes through, or stops at a round that is refused. -/
theorem foldlM_cases (keeps : List α → σ → Prop) {accepts : α → Prop} {refuses : α → Error → Prop}
    (round : ∀ x rest st, keeps (x :: rest) st →
      (∃ next, step st x = .ok next ∧ keeps rest next ∧ accepts x) ∨
        ∃ error, step st x = .error error ∧ refuses x error) (start : keeps xs st) :
    (∃ final, xs.foldlM step st = .ok final ∧ keeps [] final ∧ ∀ x ∈ xs, accepts x) ∨
      ∃ x ∈ xs, ∃ error, xs.foldlM step st = .error error ∧ refuses x error := by
  induction xs generalizing st with
  | nil => exact .inl ⟨st, rfl, start, nofun⟩
  | cons head tail ih =>
    rw [foldlM_cons]
    rcases round head tail st start with ⟨next, taken, kept, accepted⟩ | ⟨error, taken, refused⟩
    · rw [taken]
      rcases ih kept with ⟨final, done, last, all⟩ | ⟨x, mem, error, stopped, refused⟩
      · exact .inl ⟨final, done, last, forall_mem_cons.mpr ⟨accepted, all⟩⟩
      · exact .inr ⟨x, mem_cons_of_mem _ mem, error, stopped, refused⟩
    · rw [taken]
      exact .inr ⟨head, mem_cons_self, error, rfl, refused⟩

/-- A loop is refused for a reason for which one of its rounds is. -/
theorem foldlM_refused (round : ∀ x st error, step st x = .error error → error.BlamesRequest) (res :
    xs.foldlM step st = .error error) : error.BlamesRequest := by
  induction xs generalizing st with
  | nil => cases res
  | cons x rest ih =>
    rw [foldlM_cons, bind_eq_error] at res
    rcases res with taken | ⟨next, -, res⟩
    · exact round x st error taken
    · exact ih res

theorem forM_refused {check : α → Except Error Unit} (round : ∀ x error, check x = .error error →
    error.BlamesRequest) (res : xs.forM check = .error error) : error.BlamesRequest := by
  induction xs with
  | nil => cases res
  | cons x rest ih =>
    rw [List.forM, bind_eq_error] at res
    rcases res with taken | ⟨_, -, res⟩
    · exact round x error taken
    · exact ih res

end Loops

namespace Program

variable {p q src : Program} {k user : NodeKey} {n : Node} {id : String}
  {error : Error}

theorem consistent_empty (num : Nat) (opts : Options) (isInternal : Bool) :
    ({ id := num, options := opts, isInternal } : Program).Consistent where
  store := NodeStore.wellFormed_empty
  names_nodup := by simp
  mem_names := by simp [node?, NodeStore.get?]
  reads_live := by simp [dependencies, incoming, sortByRank]
  slots := by simp [SlotsExact, incoming, dependencyCount]
  order_nodup := by simp
  order_live := by simp
  inputs_live := by simp
  outputs_nodup := by simp
  mem_outputs := by simp [node?, NodeStore.get?]

/-! ## Wiring by ids -/

theorem idOf_of_node? (hk : p.node? k = some n) : p.idOf k = n.id := by
  simp only [idOf, hk]

theorem keyOf?_eq_none_iff : p.keyOf? id = none ↔ id ∉ p.names.map fst := by
  rw [keyOf?, lookup_eq_none_iff, List.mem_map]
  constructor
  · rintro ha ⟨entry, mem, e⟩
    simpa [e] using ha entry mem
  · intro ha entry mem
    rw [bne_iff_ne]
    intro e
    exact ha ⟨entry, mem, e.symm⟩

theorem hasId_iff : p.hasId id ↔ id ∈ p.names.map fst := by
  rw [hasId, isSome_iff_ne_none, ne_eq, keyOf?_eq_none_iff, not_not]

theorem exists_keyOf?_iff : (∃ k, p.keyOf? id = some k) ↔ id ∈ p.names.map fst := by
  rw [← hasId_iff, hasId, isSome_iff_exists]

/-- Ids tell live keys apart. -/
theorem Consistent.idOf_inj (wf : p.Consistent) {o : NodeKey} (hv : p.contains k)
    (otherLive : p.contains o) : p.idOf k = p.idOf o ↔ k = o := by
  obtain ⟨n, hk⟩ := contains_iff.mp hv
  obtain ⟨m, ho⟩ := contains_iff.mp otherLive
  rw [idOf_of_node? hk, idOf_of_node? ho]
  constructor
  · exact wf.key_eq_of_id_eq hk ho
  · intro e
    subst e
    rw [some.inj (hk.symm.trans ho)]

theorem Consistent.key_eq_of_idOf (wf : p.Consistent) {o : NodeKey} (hk : p.node? k = some n)
    (hv : p.contains o) (e : p.idOf o = n.id) : o = k := by
  rw [← idOf_of_node? hk] at e
  exact (wf.idOf_inj hv (contains_of_node? hk)).mp e

theorem Consistent.attach (wf : p.Consistent) (sourceLive : p.contains k)
    (userLive : p.contains user) : (p.attach k user).Consistent := by
  refine wf.rewired (fun o dep hr => ?_) fun o =>
    slotsExact_attach (wf.slots o) k user
  have mem : dep ∈ (p.attach k user).dependencies o := hr
  rw [dependencies_attach (wf.slots o)] at mem
  split at mem
  · next e =>
    subst e
    rcases mem_append.mp mem with pre | last
    · exact wf.reads_live o dep pre
    · exact ⟨mem_singleton.mp last ▸ sourceLive, userLive⟩
  · exact wf.reads_live o dep mem

/-- A node has been made to read nodes given by ids, and nothing else is different. -/
structure Resolves (program edited : Program) (user : NodeKey) (ids : List String) : Prop where
  consistent : edited.Consistent
  rest : edited = { program with edges := edited.edges }
  others : ∀ other, other ≠ user → edited.dependencies other = program.dependencies other
  reads : (edited.dependencies user).map program.idOf =
    (program.dependencies user).map program.idOf ++ ids

variable {userId : String} {ids : List String}

theorem resolves_resolve (wf : p.Consistent) (userLive : p.contains user) (res : resolve user userId p id
    = .ok q) : Resolves p q user [id] := by
  rw [resolve] at res
  split at res
  case h_2 => cases res
  next k named =>
  cases res
  obtain ⟨n, hk, e⟩ := wf.keyOf?_eq_some.mp named
  have lists := fun o => dependencies_attach (wf.slots o) k user
  refine ⟨wf.attach (contains_of_node? hk) userLive, rfl, fun o ne => ?_, ?_⟩
  · rw [lists, if_neg ne]
  · rw [lists, if_pos rfl, map_append, map_singleton, idOf_of_node? hk, e]

theorem resolves_foldlM (wf : p.Consistent) (userLive : p.contains user) (res : ids.foldlM (resolve user
    userId) p = .ok q) : Resolves p q user ids := by
  refine foldlM_builds (fun done st => Resolves p st user done) (fun done id _ st next _ pre taken => ?_)
    ⟨wf, rfl, fun _ _ => rfl, by simp⟩ res
  have hv : st.contains user := by
    rw [pre.rest]
    exact userLive
  have step := resolves_resolve pre.consistent hv taken
  have ids : st.idOf = p.idOf := by
    rw [pre.rest]
    rfl
  refine ⟨step.consistent, ?_, fun o ne => ?_, ?_⟩
  · rw [step.rest, pre.rest]
  · rw [step.others o ne, pre.others o ne]
  · have hr := step.reads
    rw [ids] at hr
    rw [hr, pre.reads, append_assoc]

/-- Wiring by ids is refused for what was asked for only. -/
theorem resolve_refused (res : ids.foldlM (resolve user userId) p = .error error) : error.BlamesRequest
    := by
  refine foldlM_refused ?_ res
  intro id st error taken
  rw [resolve] at taken
  split at taken
  · cases taken
  · cases taken
    exact nofun

theorem requireKey_refused (res : p.requireKey id = .error error) : error.BlamesRequest := by
  rw [requireKey] at res
  split at res
  · cases res
  · cases res
    exact nofun

/-! ## Programs of topologies -/

section Topologies

variable {prim : Primitive}

theorem cases_of_mem_splitCrops {split i : String} {parts : List SplitPart}
    (mem : prim ∈ splitCrops split i parts) : ∃ part offset features,
      prim.id = splitPartId split part ∧ prim.kind = .crop offset features := by
  induction parts with
  | nil => cases mem
  | cons part rest ih =>
    rcases mem_cons.mp mem with rfl | later
    · exact ⟨part.name, _, _, rfl, rfl⟩
    · exact ih later

theorem cases_of_mem_cropsOf (mem : prim ∈ cropsOf n) : ∃ part offset features,
    prim.id = splitPartId n.id part ∧ prim.kind = .crop offset features := by
  rw [cropsOf] at mem
  split at mem
  · exact cases_of_mem_splitCrops mem
  · cases mem

variable {topo : Topology} {num : Nat} {opts : Options} {isInternal : Bool}

theorem ofTopology_refused (res : ofTopology num topo opts isInternal = .error error) :
    error.BlamesRequest := by
  simp only [ofTopology, bind_eq_error] at res
  rcases res with declaring | ⟨_, -, wiring | ⟨_, -, checking | ⟨_, -, marking⟩⟩⟩
  · refine foldlM_refused ?_ declaring
    intro prim st error taken
    rw [declare] at taken
    split at taken
    · cases taken
      exact nofun
    · cases taken
  · refine foldlM_refused ?_ wiring
    intro k st error taken
    rw [resolveInputs] at taken
    split at taken
    · exact resolve_refused taken
    · cases taken
  · refine forM_refused ?_ checking
    intro id error taken
    simp only [checkInput, bind_eq_error] at taken
    rcases taken with missing | ⟨_, -, reading⟩
    · exact requireKey_refused missing
    · split at reading
      · cases reading
      · cases reading
        exact nofun
  · refine foldlM_refused ?_ marking
    intro id st error taken
    simp only [declareOutput, bind_eq_error] at taken
    rcases taken with missing | ⟨_, -, made⟩
    · exact requireKey_refused missing
    · cases made

end Topologies

/-! ## Programs of nodes -/

/-- A node is a copy of the node with a given key in another program. -/
def CopiesNode (source : Program) (model : NodeKey) (node : Node) : Prop :=
  ∃ original, source.node? model = some original ∧ node = original.copied

theorem id_copiedPrimitive (n : Node) : (copiedPrimitive n).id = n.id := by
  rw [copiedPrimitive]
  split <;> rfl

theorem CopiesNode.id_eq {model : NodeKey} (copies : CopiesNode src model n) :
    n.id = src.idOf model := by
  obtain ⟨orig, hk, rfl⟩ := copies
  rw [idOf_of_node? hk]
  exact id_copiedPrimitive orig

/-- A node is a copy of one node only. -/
theorem CopiesNode.unique (wf : src.Consistent) {a b : NodeKey} {o : Node}
    (one : CopiesNode src a n) (two : CopiesNode src b o) (e : n.id = o.id) : a = b := by
  have ids := one.id_eq.symm.trans (e.trans two.id_eq)
  obtain ⟨orig, hk, -⟩ := one
  obtain ⟨m, ho, -⟩ := two
  exact (wf.idOf_inj (contains_of_node? hk) (contains_of_node? ho)).mp ids

/-- The program to which copies are added. -/
def blank (number : Nat) (options : Options) : Program := { id := number, options, isInternal := true }

/-- A program of copies that do not read each other yet, listed like their models. -/
structure Gathers (start source : Program) (models : List NodeKey) (program : Program) : Prop where
  consistent : program.Consistent
  rest : program = { start with store := program.store, names := program.names }
  live : ∀ model ∈ models, source.contains model
  ids : program.names.map fst = models.map source.idOf
  copies : ∀ key node, program.node? key = some node → ∃ model ∈ models, CopiesNode source model node

section Copies

variable {opts : Options} {models : List NodeKey} {model : NodeKey}

variable {start cp : Program} {num : Nat}

theorem exists_of_copyNode (res : copyNode src p model = .ok q) :
    ∃ orig, src.node? model = some orig ∧
      q = (p.ensure (copiedPrimitive orig)).1.modifyNode
        (p.ensure (copiedPrimitive orig)).2 fun fr =>
          { fr with fused := orig.fused }.withPadding orig.padding := by
  rw [copyNode] at res
  split at res
  · cases res
  · next orig hk => exact ⟨orig, hk, (Except.ok.inj res).symm⟩

theorem Consistent.copyNode (wf : p.Consistent)
    (res : copyNode src p model = .ok q) : q.Consistent := by
  obtain ⟨orig, -, rfl⟩ := exists_of_copyNode res
  exact (wf.ensure _).altered (.modifyNode _ _ fun _ => rfl)

/-- A node that has not been copied yet gets a node of its own. -/
theorem Gathers.copyNode (gathers : Gathers start src models p) (wf : src.Consistent)
    (fr : model ∉ models) (res : copyNode src p model = .ok q) :
    Gathers start src (models ++ [model]) q := by
  have consistent := gathers.consistent.copyNode res
  obtain ⟨orig, hk, rfl⟩ := exists_of_copyNode res
  have unused : p.keyOf? (copiedPrimitive orig).id = none := by
    rw [keyOf?_eq_none_iff, gathers.ids, id_copiedPrimitive]
    intro mem
    obtain ⟨o, hl, e⟩ := List.mem_map.mp mem
    exact fr (wf.key_eq_of_idOf hk (gathers.live o hl) e ▸ hl)
  refine ⟨consistent, ?_, fun o mem => ?_, ?_, fun k n hn => ?_⟩
  · rw [modifyNode, ensure_rest unused, gathers.rest]
  · rcases mem_append.mp mem with pre | last
    · exact gathers.live o pre
    · exact mem_singleton.mp last ▸ contains_of_node? hk
  · rw [modifyNode, ensure_rest unused]
    show (p.names ++ [_]).map fst = _
    rw [map_append, gathers.ids, map_append, map_singleton, map_singleton, idOf_of_node? hk,
      id_copiedPrimitive]
  · rw [node?_modifyNode, node?_ensure gathers.consistent unused] at hn
    split at hn
    · cases hn
      exact ⟨model, by simp, orig, hk, rfl⟩
    · obtain ⟨o, hl, copies⟩ := gathers.copies k n hn
      exact ⟨o, mem_append_left _ hl, copies⟩

theorem Gathers.present (gathers : Gathers start src models p) (wf : src.Consistent)
    (mem : model ∈ models) : ∃ k n, p.node? k = some n ∧ CopiesNode src model n := by
  obtain ⟨k, named⟩ := exists_keyOf?_iff.mpr (gathers.ids ▸ List.mem_map_of_mem mem)
  obtain ⟨n, hk, e⟩ := gathers.consistent.keyOf?_eq_some.mp named
  obtain ⟨o, hl, copies⟩ := gathers.copies k n hk
  obtain rfl := (wf.idOf_inj (gathers.live o hl) (gathers.live model mem)).mp
    (copies.id_eq.symm.trans e)
  exact ⟨k, n, hk, copies⟩

/-- A program of copies in which those of some models read what they have to, and the others
nothing yet. -/
structure Wires (source copied : Program) (models : List NodeKey) (program : Program) : Prop where
  consistent : program.Consistent
  rest : program = { copied with edges := program.edges }
  reads : ∀ key node model, copied.node? key = some node → CopiesNode source model node →
    (program.dependencies key).map copied.idOf =
      if model ∈ models then (source.dependencies model).map source.idOf else []

theorem Wires.copyEdges (wires : Wires src cp models p) (wf : src.Consistent) (gathered :
    cp.Consistent) (ha : model ∉ models) (kn : ∃ k n, cp.node? k = some n ∧ CopiesNode src
    model n) (res : copyEdges src p model = .ok q) : Wires src cp (models ++ [model]) q := by
  obtain ⟨copy, n, hk, copies⟩ := kn
  have ids : p.idOf = cp.idOf := by
    rw [wires.rest]
    rfl
  have nodes : p.node? = cp.node? := by
    rw [wires.rest]
    rfl
  simp only [Program.copyEdges, bind_eq_ok] at res
  obtain ⟨place, required, res⟩ := res
  have isCopy : place = copy := by
    have named := wires.consistent.keyOf?_id ((congrFun nodes copy).trans hk)
    rw [copies.id_eq] at named
    rw [requireKey, named] at required
    exact (Except.ok.inj required).symm
  subst isCopy
  have hv : p.contains place := contains_of_node? ((congrFun nodes place).trans hk)
  have resolves := resolves_foldlM wires.consistent hv res
  refine ⟨resolves.consistent, by rw [resolves.rest, wires.rest], ?_⟩
  intro k o m ho copiesOther
  by_cases isKey : k = place
  · subst isKey
    cases ho.symm.trans hk
    have isModel : m = model := copiesOther.unique wf copies rfl
    subst isModel
    have pre := wires.reads k n m hk copies
    rw [if_neg ha] at pre
    rw [if_pos (by simp), ← ids, resolves.reads, ids, pre, nil_append]
  · have ne : m ≠ model := by
      rintro rfl
      exact isKey (gathered.key_eq_of_id_eq ho hk (copiesOther.id_eq.trans copies.id_eq.symm))
    rw [resolves.others k isKey, wires.reads k o m ho copiesOther]
    simp [ne]

theorem gathers_foldlM (wf : src.Consistent) (nodup : models.Nodup)
    (copying : models.foldlM (Program.copyNode src) (blank num opts) = .ok cp) :
    Gathers (blank num opts) src models cp := by
  refine foldlM_builds (Gathers (blank num opts) src) (fun done model rest st next split pre taken => ?_)
    ⟨consistent_empty num opts true, rfl, nofun, rfl, by simp [node?, NodeStore.get?]⟩ copying
  exact pre.copyNode wf (fun mem => disjoint_of_nodup_append (split ▸ nodup) mem mem_cons_self) taken

theorem wires_foldlM {wired : Program} (gathers : Gathers (blank num opts) src models cp)
    (wf : src.Consistent) (nodup : models.Nodup)
    (wiring : models.foldlM (Program.copyEdges src) cp = .ok wired) : Wires src cp models wired := by
  have unwired : cp.edges = [] := by
    rw [gathers.rest]
    rfl
  refine foldlM_builds (Wires src cp) (fun done model rest st next split pre taken => ?_)
    ⟨gathers.consistent, rfl, fun k n model _ _ => ?_⟩ wiring
  · exact pre.copyEdges wf gathers.consistent
      (fun mem => disjoint_of_nodup_append (split ▸ nodup) mem mem_cons_self)
      (gathers.present wf (by simp [← split])) taken
  · simp [dependencies, incoming, unwired, sortByRank]

/-- The inputs are the nodes that read nothing, each listed once. -/
structure InputsExact (program : Program) : Prop where
  nodup : program.inputs.Nodup
  mem : ∀ key, key ∈ program.inputs ↔ program.contains key ∧ program.dependencies key = []

/-- Collecting the inputs finds them all. -/
theorem Consistent.inputsExact_collectInputs (wf : p.Consistent) : p.collectInputs.InputsExact where
  nodup := wf.keys_nodup.filter _
  mem key := by
    refine mem_filter.trans (and_congr wf.mem_keys ?_)
    rw [beq_iff_eq, ← length_dependencies, length_eq_zero_iff]
    rfl

/-- A program whose nodes are copies of nodes of another program, wired in the same way. -/
structure IsCopy (start source : Program) (models : List NodeKey) (program : Program) : Prop where
  consistent : program.Consistent
  rest : program = { start with
    store := program.store, names := program.names, edges := program.edges, inputs := program.inputs }
  ids : program.names.map fst = models.map source.idOf
  copies : ∀ key node, program.node? key = some node → ∃ model ∈ models, CopiesNode source model node ∧
    (program.dependencies key).map program.idOf = (source.dependencies model).map source.idOf
  present : ∀ model ∈ models, ∃ key node, program.node? key = some node ∧ CopiesNode source model node
  inputs : program.InputsExact

/-- **A program that is made from nodes of a consistent program is a copy of them.** -/
theorem isCopy_ofNodes (wf : src.Consistent) (nodup : models.Nodup)
    (res : ofNodes num src models opts = .ok p) : IsCopy (blank num opts) src models p := by
  simp only [ofNodes, bind_eq_ok] at res
  obtain ⟨cp, copying, wired, wiring, collected⟩ := res
  cases collected
  have gathers := gathers_foldlM wf nodup copying
  have wires := wires_foldlM gathers wf nodup wiring
  have nodes : wired.node? = cp.node? := by
    rw [wires.rest]
    rfl
  have ids : wired.idOf = cp.idOf := by
    rw [wires.rest]
    rfl
  refine ⟨wires.consistent.withInputs fun k mem => ?_, ?_, ?_, fun k n hk => ?_, fun model hl => ?_,
    wires.consistent.inputsExact_collectInputs⟩
  · exact wires.consistent.mem_keys.mp (mem_of_mem_filter mem)
  · rw [collectInputs, wires.rest, gathers.rest]
  · rw [collectInputs, wires.rest]
    exact gathers.ids
  · have hk : cp.node? k = some n := nodes ▸ hk
    obtain ⟨model, hl, copies⟩ := gathers.copies k n hk
    refine ⟨model, hl, copies, ?_⟩
    show (wired.dependencies k).map wired.idOf = _
    rw [ids, wires.reads k n model hk copies, if_pos hl]
  · obtain ⟨k, n, hk, copies⟩ := gathers.present wf hl
    exact ⟨k, n, (congrFun nodes k).trans hk, copies⟩

/-- Reading by ids goes through when all of them are there. -/
theorem foldlM_resolve (user : NodeKey) (userId : String) (ids : List String) (p : Program) :
    (∃ q, ids.foldlM (resolve user userId) p = .ok q ∧
      q.names = p.names ∧ ∀ id ∈ ids, id ∈ p.names.map fst) ∨
      ∃ id ∈ ids, ∃ error, ids.foldlM (resolve user userId) p = .error error ∧
        error = .unresolvedDependency userId id ∧ id ∉ p.names.map fst := by
  refine foldlM_cases (fun _ (st : Program) => st.names = p.names) (fun id _ st e => ?_) rfl
  by_cases named : id ∈ p.names.map fst
  · obtain ⟨key, hk⟩ := exists_keyOf?_iff.mpr (e ▸ named : id ∈ st.names.map fst)
    exact .inl ⟨st.attach key user, by rw [resolve, hk], e, named⟩
  · have missing := keyOf?_eq_none_iff.mpr (e ▸ named : id ∉ st.names.map fst)
    exact .inr ⟨_, by rw [resolve, missing], rfl, named⟩

/-- Edges are copied when what is read has been copied. -/
theorem foldlM_copyEdges (wf : src.Consistent) (hv : ∀ model ∈ models, src.contains model)
    (ids : p.names.map fst = models.map src.idOf) :
    (∃ wired, models.foldlM (copyEdges src) p = .ok wired ∧
      ∀ model ∈ models, src.dependencies model ⊆ models) ∨
      ∃ model ∈ models, ∃ error, models.foldlM (copyEdges src) p = .error error ∧
        ∃ dep ∈ src.dependencies model, dep ∉ models ∧
          error = .unresolvedDependency (src.idOf model) (src.idOf dep) := by
  have hl : ∀ model dep, dep ∈ src.dependencies model →
      (src.idOf dep ∈ p.names.map fst ↔ dep ∈ models) := by
    intro model dep hr
    have dependencyLive := (wf.reads_live model dep hr).1
    rw [ids, List.mem_map]
    constructor
    · rintro ⟨o, mem, e⟩
      exact (wf.idOf_inj (hv o mem) dependencyLive).mp e ▸ mem
    · exact fun mem => ⟨dep, mem, rfl⟩
  refine (foldlM_cases (fun rest (st : Program) => st.names = p.names ∧ rest ⊆ models) ?_
    ⟨rfl, List.Subset.refl _⟩).imp_left fun ⟨wired, res, _, all⟩ => ⟨wired, res, all⟩
  rintro model rest st ⟨e, subset⟩
  obtain ⟨mem, others⟩ := cons_subset.mp subset
  have named : src.idOf model ∈ st.names.map fst := by
    rw [e, ids]
    exact List.mem_map_of_mem mem
  obtain ⟨copy, hk⟩ := exists_keyOf?_iff.mpr named
  have step : copyEdges src st model =
      ((src.dependencies model).map src.idOf).foldlM (resolve copy (src.idOf model)) st := by
    rw [copyEdges, requireKey, hk]
    rfl
  rw [step]
  rcases foldlM_resolve copy (src.idOf model) ((src.dependencies model).map src.idOf) st
    with ⟨next, taken, kept, kn⟩ | ⟨id, isRead, error, stopped, rfl, missing⟩
  · refine .inl ⟨next, taken, ⟨kept.trans e, others⟩, fun dep hr => ?_⟩
    rw [← hl model dep hr, ← e]
    exact kn _ (List.mem_map_of_mem hr)
  · obtain ⟨dep, hr, rfl⟩ := List.mem_map.mp isRead
    refine .inr ⟨_, stopped, dep, hr, ?_, rfl⟩
    rwa [← hl model dep hr, ← e]

/-- **A program can be made of different live nodes exactly when everything that they read is among
them.** Otherwise it is refused for something that is not. -/
theorem ofNodes_cases (wf : src.Consistent) (nodup : models.Nodup)
    (hv : ∀ model ∈ models, src.contains model) (num : Nat) (opts : Options) :
    (∃ p, ofNodes num src models opts = .ok p ∧ ∀ model ∈ models, src.dependencies model ⊆ models) ∨
      ∃ model ∈ models, ∃ dep ∈ src.dependencies model, dep ∉ models ∧ ofNodes num src models opts =
          .error (.unresolvedDependency (src.idOf model) (src.idOf dep)) := by
  obtain ⟨cp, copying⟩ : ∃ cp, models.foldlM (copyNode src) (blank num opts) = .ok cp := by
    refine (foldlM_isOk (fun _ => True) (src.contains ·) (fun st k _ => ?_)
      (fun _ _ _ _ _ => trivial) trivial).mpr hv
    rw [copyNode, contains_iff]
    cases src.node? k with
    | none => simp
    | some n => simp
  have copied : ofNodes num src models opts = (do
      let wired ← models.foldlM (copyEdges src) cp
      return wired.collectInputs) := by
    rw [ofNodes, ← blank, copying]
    rfl
  rw [copied]
  rcases foldlM_copyEdges wf hv (gathers_foldlM wf nodup copying).ids with
    ⟨wired, wiring, closed⟩ | ⟨model, mem, _, stopped, dep, hr, missing, rfl⟩
  · rw [wiring]
    exact .inl ⟨_, rfl, closed⟩
  · rw [stopped]
    exact .inr ⟨model, mem, dep, hr, missing, rfl⟩

/-- A program that is made from nodes of another one is consistent, whatever the other one is like. -/
theorem consistent_ofNodes (res : ofNodes num src models opts = .ok p) : p.Consistent := by
  simp only [ofNodes, bind_eq_ok] at res
  obtain ⟨cp, copying, wired, wiring, collected⟩ := res
  cases collected
  have gathered : cp.Consistent := foldlM_keeps (fun _ st => st.Consistent) (fun _ _ _ _ pre taken
    => pre.copyNode taken) (consistent_empty num opts true) copying
  have stays : wired.Consistent := by
    refine foldlM_keeps (fun _ st => st.Consistent) ?_ gathered wiring
    intro model rest st next pre taken
    simp only [copyEdges, bind_eq_ok] at taken
    obtain ⟨place, required, taken⟩ := taken
    rw [requireKey] at required
    split at required
    · next k named =>
      cases required
      obtain ⟨n, hk, -⟩ := pre.keyOf?_eq_some.mp named
      exact (resolves_foldlM pre (contains_of_node? hk) taken).consistent
    · cases required
  exact stays.withInputs fun k mem => stays.mem_keys.mp (mem_of_mem_filter mem)

theorem ofNodes_refused (res : ofNodes num src models opts = .error error) : error.BlamesRequest := by
  simp only [ofNodes, bind_eq_error] at res
  rcases res with copying | ⟨_, -, wiring | ⟨_, -, collected⟩⟩
  · refine foldlM_refused ?_ copying
    intro model st error taken
    rw [copyNode] at taken
    split at taken
    · cases taken
      exact nofun
    · cases taken
  · refine foldlM_refused ?_ wiring
    intro model st error taken
    simp only [copyEdges, bind_eq_error] at taken
    rcases taken with missing | ⟨_, -, resolving⟩
    · exact requireKey_refused missing
    · exact resolve_refused resolving
  · cases collected

end Copies

end Program

end LayerGraph
