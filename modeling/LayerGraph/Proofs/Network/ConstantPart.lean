import LayerGraph.Proofs.Meaning.Folding
import LayerGraph.Proofs.Network.Confluence

/-!
# The constant part of a network

Which nodes are constant, which of them have values that are needed elsewhere, and which constant
buffers they read can all be told from the network. So can the program of the constant part: its
network is a function of the network that it is taken from (`Network.constants`), and it can be made
exactly when the constant part reads nothing else (`Network.SelfContained`).
-/

namespace LayerGraph

open List Option

/-- The copy of a cell, which may be exposed. -/
def Cell.copied (cell : Cell) (exposed : Bool) : Cell :=
  { cell.toNode.copied with
    isOutput := exposed, reads := cell.reads, listed := if cell.reads = [] then 1 else 0 }

namespace Network

/-- A constant node that is no constant buffer. -/
def Computed (net : Network) (id : String) : Prop :=
  ∃ cell, net.cell? id = some cell ∧ cell.isComputedConstant

/-- A node is an output, or is read by a node that is not constant. -/
def Kept (net : Network) (id : String) : Prop :=
  (∃ cell, net.cell? id = some cell ∧ cell.isOutput) ∨
    ∃ reader cell, net.cell? reader = some cell ∧ id ∈ cell.reads ∧ cell.isConstant = false

/-- A computed constant whose value is needed elsewhere. -/
def Boundary (net : Network) (id : String) : Prop := net.Computed id ∧ net.Kept id

/-- A computed constant, or a constant buffer that one reads. -/
def Selected (net : Network) (id : String) : Prop :=
  net.Computed id ∨ (∃ cell, net.cell? id = some cell ∧ cell.tag = .data) ∧
    ∃ reader, net.Computed reader ∧ net.Reads reader id

/-- The constant part reads nothing else. -/
def SelfContained (net : Network) : Prop :=
  ∀ id source, net.Selected id → net.Reads id source → net.Selected source

/-- Makes the nodes with some ids outputs. -/
def expose (net : Network) (ids : List String) : Network :=
  { net with cell? := fun id => (net.cell? id).map fun cell => cell.withNode fun node =>
      { node with isOutput := node.isOutput || decide (id ∈ ids) } }

open scoped Classical in
/-- The network of the constant part, in which the boundary is exposed. -/
noncomputable def constants (net : Network) : Network where
  cell? id := if net.Selected id then (net.cell? id).map (·.copied (decide (net.Boundary id))) else none
  dropped _ := 0

theorem Computed.selected {net : Network} {id : String} (hc : net.Computed id) :
    net.Selected id := .inl hc

end Network

namespace Program

variable {p src : Program} {k : NodeKey} {n : Node} {models : List NodeKey}

/-! ## The parts of a program -/

section Parts

variable (hs : p.Sound) (hk : p.node? k = some n)
include hs hk

theorem Sound.computed_iff : p.network.Computed n.id ↔ n.isComputedConstant := by
  rw [Network.Computed, hs.consistent.exists_cell_iff hk]
  exact Iff.rfl

theorem Sound.mem_computedConstants : k ∈ p.computedConstants ↔ p.network.Computed n.id := by
  rw [hs.computed_iff hk, computedConstants, mem_matching, hk]
  simp only [some.injEq, exists_eq_left']
  exact and_iff_right (hs.complete.mem_of_node? hk)

theorem Sound.isBoundary_iff : p.isBoundary k n ↔ p.network.Kept n.id := by
  have wf := hs.consistent
  rw [isBoundary, Bool.or_eq_true, List.any_eq_true, Network.Kept, wf.exists_cell_iff hk]
  apply or_congr Iff.rfl
  constructor
  · rintro ⟨user, isUser, varies⟩
    have hr := mem_users_iff.mp isUser
    obtain ⟨r, foundReader⟩ := contains_iff.mp (wf.reads_live user k hr).2
    refine ⟨r.id, _, wf.cell?_of_node? foundReader, ?_, ?_⟩
    · rw [← idOf_of_node? hk]
      exact List.mem_map_of_mem hr
    · rw [foundReader, any_some, Bool.not_eq_true'] at varies
      exact varies
  · rintro ⟨r, c, hc, hr, varies⟩
    obtain ⟨user, st, foundUser, rfl, rfl⟩ := wf.exists_node_of_cell? hc
    obtain ⟨dep, isRead, e⟩ := List.mem_map.mp hr
    obtain rfl := wf.key_eq_of_idOf hk (wf.reads_live user dep isRead).1 e
    refine ⟨user, mem_users_iff.mpr isRead, ?_⟩
    rw [foundUser, any_some, Bool.not_eq_true']
    exact varies

theorem Sound.mem_boundaryConstants : k ∈ p.boundaryConstants ↔ p.network.Boundary n.id := by
  rw [boundaryConstants, mem_matching, hs.mem_computedConstants hk, hk]
  simp only [some.injEq, exists_eq_left']
  rw [hs.isBoundary_iff hk]
  exact Iff.rfl

theorem Sound.mem_selectedConstants : k ∈ p.selectedConstants ↔ p.network.Selected n.id := by
  have wf := hs.consistent
  rw [selectedConstants, mem_matching, hk]
  simp only [some.injEq, exists_eq_left', Bool.or_eq_true, Bool.and_eq_true, beq_iff_eq,
    contains_iff_mem, List.any_eq_true]
  rw [and_iff_right (hs.complete.mem_of_node? hk), hs.mem_computedConstants hk]
  apply or_congr_right
  rw [wf.exists_cell_iff hk]
  apply and_congr Iff.rfl
  constructor
  · rintro ⟨user, isUser, hc⟩
    have hr := mem_users_iff.mp isUser
    obtain ⟨r, foundReader⟩ := contains_iff.mp (wf.reads_live user k hr).2
    exact ⟨r.id, (hs.mem_computedConstants foundReader).mp hc,
      (wf.reads_id_iff hk).mpr ⟨user, hr, idOf_of_node? foundReader⟩⟩
  · rintro ⟨r, hc, hr⟩
    obtain ⟨user, isRead, rfl⟩ := (wf.reads_id_iff hk).mp hr
    obtain ⟨st, foundUser⟩ := contains_iff.mp (wf.reads_live user k isRead).2
    rw [idOf_of_node? foundUser] at hc
    exact ⟨user, mem_users_iff.mpr isRead, (hs.mem_computedConstants foundUser).mpr hc⟩

end Parts

variable {start cp : Program} {model : NodeKey} {num : Nat} {opts : Options} {id : String}

/-! ## The network of the constant part -/

/-- Exposing some nodes marks their cells. -/
theorem network_exposeBoundary (bd : List NodeKey) {inner : Program}
    (wf : inner.Consistent) : (p.exposeBoundary bd inner).network =
      inner.network.expose (bd.map p.idOf) := by
  induction bd generalizing inner with
  | nil =>
    apply Network.ext
    · funext id
      simp [exposeBoundary, Network.expose, Cell.withNode]
    · rfl
  | cons k rest ih =>
    rw [map_cons]
    cases named : inner.keyOf? (p.idOf k) with
    | none =>
      have unfolded : p.exposeBoundary (k :: rest) inner = p.exposeBoundary rest inner := by
        rw [exposeBoundary, foldl_cons, named]
        rfl
      rw [unfolded, ih wf]
      apply Network.ext
      · funext id
        by_cases e : id = p.idOf k
        · simp [Network.expose, e, cell?_of_unused named]
        · simp [Network.expose, e]
      · rfl
    | some copy =>
      have unfolded : p.exposeBoundary (k :: rest) inner =
          p.exposeBoundary rest (inner.setOutput copy true) := by
        rw [exposeBoundary, foldl_cons, named]
        rfl
      obtain ⟨n, hk, sameId⟩ := wf.keyOf?_eq_some.mp named
      rw [unfolded, ih (wf.setOutput copy true), network_setOutput wf hk, ← sameId]
      apply Network.ext
      · funext id
        by_cases e : id = n.id
        · simp [Network.expose, e, wf.cell?_of_node? hk, Cell.withNode]
        · simp [Network.expose, e]
      · rfl

/-- Exactly the nodes that read nothing are listed, each once. -/
theorem InputsExact.count_inputs (inputs : p.InputsExact) (hv : p.contains k) :
    p.inputs.count k = if p.dependencies k = [] then 1 else 0 := by
  split
  · next none => exact count_eq_one_of_mem inputs.nodup ((inputs.mem k).mpr ⟨hv, none⟩)
  · next some => exact count_eq_zero_of_not_mem fun mem => some ((inputs.mem k).mp mem).2

/-- Every copy shows what its model shows. -/
theorem IsCopy.cellAt_copied {orig : Node} (isCopy : IsCopy start p models cp) (hv : cp.contains k)
    (hr : (cp.dependencies k).map cp.idOf = (p.dependencies model).map p.idOf) :
    cp.cellAt k orig.copied = (p.cellAt model orig).copied false := by
  have hl := isCopy.inputs.count_inputs hv
  have none : cp.dependencies k = [] ↔ (p.dependencies model).map p.idOf = [] := by
    rw [← hr, map_eq_nil_iff]
  have notes : cp.shown orig.copied = orig.copied := by
    rw [Program.shown]
    split
    · rfl
    · rfl
  rw [cellAt, notes, hr, hl, if_congr none rfl rfl]
  rfl

theorem Sound.network_copied (hs : p.Sound) (res : ofNodes num p p.selectedConstants opts = .ok
    cp) {c : Cell} : cp.network.cell? id = some c ↔ p.network.Selected id ∧ ∃ model,
    p.network.cell? id = some model ∧ c = model.copied false := by
  have sourceFine := hs.consistent
  have isCopy := isCopy_ofNodes sourceFine sourceFine.selectedConstants_nodup res
  have wf := isCopy.consistent
  have exact : ∀ k n, cp.node? k = some n → ∃ model orig, model ∈ p.selectedConstants ∧ p.node? model
      = some orig ∧ n.id = orig.id ∧ cp.cellAt k n = (p.cellAt model orig).copied false := by
    intro k n hk
    obtain ⟨model, hl, ⟨orig, foundOrig, rfl⟩, hr⟩ := isCopy.copies k n hk
    exact ⟨model, orig, hl, foundOrig, id_copiedPrimitive orig,
      isCopy.cellAt_copied (contains_of_node? hk) hr⟩
  constructor
  · intro hc
    obtain ⟨k, n, hk, rfl, rfl⟩ := wf.exists_node_of_cell? hc
    obtain ⟨model, orig, hl, foundOrig, sameId, e⟩ := exact k n hk
    rw [sameId, e]
    exact ⟨(hs.mem_selectedConstants foundOrig).mp hl, _, sourceFine.cell?_of_node? foundOrig, rfl⟩
  · rintro ⟨selected, model, hc, rfl⟩
    obtain ⟨place, orig, foundOrig, rfl, rfl⟩ := sourceFine.exists_node_of_cell? hc
    obtain ⟨k, n, hk, copies⟩ :=
      isCopy.present place ((hs.mem_selectedConstants foundOrig).mpr selected)
    obtain ⟨m, e, -, foundSame, sameId, cells⟩ := exact k n hk
    have sameOriginal : e.id = orig.id := by
      rw [← sameId, copies.id_eq, idOf_of_node? foundOrig]
    have isPlace := sourceFine.key_eq_of_id_eq foundSame foundOrig sameOriginal
    subst isPlace
    cases foundSame.symm.trans foundOrig
    rw [← cells, ← sameId]
    exact wf.cell?_of_node? hk

/-- **The program of the constant part can be made exactly when the constant part reads nothing
else.** -/
theorem Sound.exists_ofNodes_iff (hs : p.Sound) (num : Nat) (opts : Options) :
    (∃ cp, ofNodes num p p.selectedConstants opts = .ok cp) ↔ p.network.SelfContained := by
  have wf := hs.consistent
  have hv : ∀ k ∈ p.selectedConstants, p.contains k := fun k hl =>
    wf.order_live k (mem_of_mem_filter hl)
  constructor
  · intro h id src selected hr
    obtain ⟨cp, res⟩ := h
    obtain ⟨c, hc, isRead⟩ := hr
    have copiedFine := (isCopy_ofNodes wf wf.selectedConstants_nodup res).consistent
    have copy : cp.network.cell? id = some (c.copied false) :=
      (hs.network_copied res).mpr ⟨selected, c, hc, rfl⟩
    obtain ⟨o, lookedToo⟩ := copiedFine.has_of_reads ⟨_, copy, isRead⟩
    exact ((hs.network_copied res).mp lookedToo).1
  · intro contained
    rcases ofNodes_cases wf wf.selectedConstants_nodup hv num opts with
      ⟨cp, res, -⟩ | ⟨k, hl, dep, hr, missing, -⟩
    · exact ⟨cp, res⟩
    refine absurd ?_ missing
    obtain ⟨n, hk⟩ := contains_iff.mp (hv k hl)
    obtain ⟨src, foundSrc⟩ := contains_iff.mp (wf.reads_live k dep hr).1
    have selected := (hs.mem_selectedConstants hk).mp hl
    have isRead := wf.reads_of_dependency hr
    rw [idOf_of_node? hk, idOf_of_node? foundSrc] at isRead
    exact (hs.mem_selectedConstants foundSrc).mpr (contained _ _ selected isRead)

theorem Sound.mem_boundary_ids (hs : p.Sound) : id ∈ p.boundaryConstants.map p.idOf ↔
    p.network.Boundary id := by
  refine hs.consistent.mem_map_idOf p.network.Boundary
    hs.consistent.boundaryConstants_live ?_ fun _ _ => hs.mem_boundaryConstants
  rintro id ⟨⟨c, hc, -⟩, -⟩
  exact ⟨c, hc⟩

open scoped Classical in
/-- **The network of the program of the constant part** is that of the constant part. -/
theorem Sound.network_constants (hs : p.Sound) (res : ofNodes num p p.selectedConstants opts = .ok
    cp) : (p.exposeBoundary p.boundaryConstants cp).network = p.network.constants := by
  have wf := hs.consistent
  have isCopy := isCopy_ofNodes wf wf.selectedConstants_nodup res
  rw [network_exposeBoundary _ isCopy.consistent]
  apply Network.ext
  · funext id
    have exposed : (decide (id ∈ p.boundaryConstants.map p.idOf)) = decide (p.network.Boundary id) := by
      rw [decide_eq_decide]
      exact hs.mem_boundary_ids
    show (cp.network.cell? id).map _ = if _ then _ else _
    rw [exposed]
    split
    · next selected =>
      cases hc : p.network.cell? id with
      | none =>
        rw [map_none, map_eq_none_iff, eq_none_iff_forall_ne_some]
        intro c h
        obtain ⟨-, model, hk, -⟩ := (hs.network_copied res).mp h
        rw [hc] at hk
        cases hk
      | some model =>
        rw [(hs.network_copied res).mpr ⟨selected, model, hc, rfl⟩]
        rfl
    · next apart =>
      rw [map_eq_none_iff, eq_none_iff_forall_ne_some]
      exact fun c h => apart ((hs.network_copied res).mp h).1
  · funext id
    show cp.optimizedOut.count id = 0
    rw [isCopy.rest]
    rfl

end Program

end LayerGraph
