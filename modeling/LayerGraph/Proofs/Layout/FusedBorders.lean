import LayerGraph.Proofs.Build.Marks
import LayerGraph.Proofs.Layout.Room

/-!
# Borders of fused activations

When an activation is fused into a layer, its readers read the layer instead. The layer keeps the border
that it had: what was requested around the output of the activation is not passed on to it. So the
readers of an activation find its border again only if the layer had a border as wide before
(`Build.fused_border_covered_iff`).

An activation is fused into the layer that it read before the pass: had another activation stood in
between, the layer would have taken that one and would take no second one (`Program.Fusing`).
-/

namespace LayerGraph

open List

namespace Program

variable {p q st : Program} {k d input : NodeKey} {n into : Node} {function : Activation}

/-- What is read in the place of a node: the node itself, or what it read, when it is gone. -/
def standIn (before after : Program) (key : NodeKey) : NodeKey :=
  if after.contains key then key else (before.dependencies key).headD key

/-- An activation that is gone has been fused into the layer that it read. -/
structure FusedInto (before after : Program) (node : Node) (key input : NodeKey) : Prop where
  reads : before.dependencies key = [input]
  fused : ∃ function target, node.kind = .activation function ∧ after.node? input = some target ∧
    target.tag.takesActivation ∧ target.fused = some function

/-- What fusing activations has done to a program so far. Nodes keep their kinds and their borders, and
those that are gone have been fused. -/
structure Fusing (before after : Program) : Prop where
  nodes : ∀ key node, after.node? key = some node → ∃ origin, before.node? key = some origin ∧
    node.kind = origin.kind ∧ node.padding = origin.padding
  gone : ∀ key node, before.node? key = some node → ¬ after.contains key →
    ∃ input, FusedInto before after node key input
  reads : ∀ key, after.contains key →
    after.dependencies key = (before.dependencies key).map (standIn before after)

theorem standIn_of_contains (hv : q.contains k) : standIn p q k = k := if_pos hv

theorem standIn_of_gone (gone : ¬ q.contains k) (hr : p.dependencies k = [input]) :
    standIn p q k = input := by
  rw [standIn, if_neg gone, hr]
  rfl

theorem Fusing.refl (wf : p.Consistent) : Fusing p p where
  nodes _ n hk := ⟨n, hk, rfl, rfl⟩
  gone _ _ hk gone := absurd (contains_of_node? hk) gone
  reads k _ := by
    have e : (p.dependencies k).map (standIn p p) = (p.dependencies k).map fun d => d :=
      map_congr_left fun d hr => standIn_of_contains (wf.reads_live k d hr).1
    rw [e, map_id']

/-- Activations cannot take activations. -/
theorem not_takesActivation (kind : n.kind = .activation function) : ¬ n.tag.takesActivation := by
  have tag : n.tag = .activation := congrArg Kind.tag kind
  rw [tag]
  decide

namespace Fuses

variable (fuses : Fuses st q k input n into function)
include fuses

/-- The nodes after an activation has been fused. -/
theorem node?_fused (o : NodeKey) : (q.modifyNode input fun tgt =>
      { tgt with fused := some function }).node? o =
    if o = k then none else if o = input then some { into with fused := some function }
    else st.node? o := by
  rw [node?_modifyNode, fuses.nodes]
  by_cases isKey : o = k
  · rw [if_pos isKey, if_neg (isKey ▸ fuses.different.symm), if_pos isKey]
  · rw [if_neg isKey, if_neg isKey]
    split
    · next isInput => rw [isInput, fuses.foundInto, Option.map_some]
    · rfl

theorem contains_fused (o : NodeKey) : (q.modifyNode input fun tgt =>
      { tgt with fused := some function }).contains o ↔ o ≠ k ∧ st.contains o := by
  rw [contains_iff, contains_iff, fuses.node?_fused]
  by_cases isKey : o = k
  · simp [isKey]
  · by_cases isInput : o = input
    · simp [isInput, fuses.different, fuses.foundInto]
    · simp [isKey, isInput]

/-- An activation is fused into the layer that it read from the beginning. -/
theorem reads_before (wf : p.Consistent) (fusing : Fusing p st) : p.dependencies k = [input] := by
  have hr := fusing.reads k (contains_of_node? fuses.found)
  rw [fuses.reads] at hr
  obtain ⟨d, single, e⟩ := map_eq_singleton_iff.mp hr.symm
  have isRead : d ∈ p.dependencies k := by simp [single]
  by_cases hv : st.contains d
  · rw [single, ← e, standIn_of_contains hv]
  · -- A layer that stands in for an activation has taken it, and takes no other one.
    obtain ⟨origin, foundOrigin⟩ := contains_iff.mp (wf.reads_live k d isRead).1
    obtain ⟨o, readsOther, _, tgt, -, foundTarget, -, taken⟩ := fusing.gone d origin foundOrigin hv
    rw [standIn_of_gone hv readsOther] at e
    rw [e, fuses.foundInto] at foundTarget
    cases foundTarget
    rw [fuses.unfused] at taken
    cases taken

/-- A layer that has taken an activation stays as it is when another one is fused. -/
theorem fusedInto (fusing : Fusing p st) {origin : Node} {key : NodeKey}
    (pre : p.node? key = some origin) (gone : ¬ st.contains key) :
    ∃ layer, layer ≠ k ∧ FusedInto p (q.modifyNode input fun tgt =>
      { tgt with fused := some function }) origin key layer := by
  obtain ⟨layer, hr, taken, tgt, kind, hk, takes, fused⟩ := fusing.gone key origin pre gone
  have notKey : layer ≠ k := by
    rintro rfl
    cases hk.symm.trans fuses.found
    exact not_takesActivation fuses.kind takes
  have notInput : layer ≠ input := by
    rintro rfl
    cases hk.symm.trans fuses.foundInto
    rw [fuses.unfused] at fused
    cases fused
  refine ⟨layer, notKey, hr, taken, tgt, kind, ?_, takes, fused⟩
  rw [fuses.node?_fused, if_neg notKey, if_neg notInput, hk]

/-- **Fusing one more activation.** -/
theorem fusing (wf : p.Consistent) (fusing : Fusing p st) :
    Fusing p (q.modifyNode input fun tgt => { tgt with fused := some function }) where
  nodes key node hk := by
    rw [fuses.node?_fused] at hk
    split at hk
    · cases hk
    · split at hk
      · next isInput =>
        cases hk
        exact isInput ▸ fusing.nodes input into fuses.foundInto
      · exact fusing.nodes key node hk
  gone key node pre gone := by
    by_cases isKey : key = k
    · subst isKey
      obtain ⟨origin, foundOrigin, kind, -⟩ := fusing.nodes key n fuses.found
      cases pre.symm.trans foundOrigin
      refine ⟨input, fuses.reads_before wf fusing, function, { into with fused := some function },
        kind ▸ fuses.kind, ?_, fuses.takes, rfl⟩
      rw [fuses.node?_fused, if_neg fuses.different, if_pos rfl]
    · have goneBefore : ¬ st.contains key := fun hv =>
        gone ((fuses.contains_fused key).mpr ⟨isKey, hv⟩)
      obtain ⟨layer, -, fused⟩ := fuses.fusedInto fusing pre goneBefore
      exact ⟨layer, fused⟩
  reads key hv := by
    obtain ⟨notKey, liveBefore⟩ := (fuses.contains_fused key).mp hv
    change q.dependencies key = _
    rw [fuses.dependencies, if_neg notKey, fusing.reads key liveBefore, map_map]
    refine map_congr_left fun d hr => ?_
    rw [Function.comp_apply]
    by_cases stays : st.contains d
    · rw [standIn_of_contains stays, redirected]
      split
      · next isKey =>
        subst isKey
        exact (standIn_of_gone (fun there => ((fuses.contains_fused d).mp there).1 rfl)
          (fuses.reads_before wf fusing)).symm
      · next o => exact (standIn_of_contains ((fuses.contains_fused d).mpr ⟨o, stays⟩)).symm
    · obtain ⟨origin, foundOrigin⟩ := contains_iff.mp (wf.reads_live key d hr).1
      obtain ⟨layer, notLayer, fused⟩ := fuses.fusedInto fusing foundOrigin stays
      rw [standIn_of_gone stays fused.reads, redirected, if_neg notLayer]
      exact (standIn_of_gone (fun there => stays ((fuses.contains_fused d).mp there).2) fused.reads).symm

end Fuses

/-- What read an activation that is gone reads the layer at the same slot. -/
theorem Fusing.dependency? (fusing : Fusing p q) (wf : p.Consistent) (gone : ¬ q.contains k)
    (hr : p.dependencies k = [input]) {r : NodeKey} {slot : Nat}
    (isRead : p.dependency? r slot = some k) : q.dependency? r slot = some input := by
  have hv : q.contains r := by
    by_contra goneToo
    obtain ⟨origin, foundReader⟩ := contains_iff.mp (wf.reads_live r k (mem_of_getElem? isRead)).2
    obtain ⟨layer, readsLayer, _, tgt, -, hf, -⟩ := fusing.gone r origin foundReader goneToo
    have isLayer := mem_of_getElem? isRead
    rw [readsLayer, mem_singleton] at isLayer
    exact gone (isLayer ▸ contains_of_node? hf)
  rw [Program.dependency?, fusing.reads r hv, getElem?_map]
  rw [Program.dependency?] at isRead
  rw [isRead, Option.map_some, standIn_of_gone gone hr]

end Program

namespace Build

open Program

/-- **The border of a fused activation is covered only if it was covered before.** An activation that is
gone has been fused into the layer that it read, and its readers read the layer at the same slots. The
layer has the border that it had. -/
theorem fused_border_covered_iff (s : Session) (sound : s.program.Sound) :
    ∃ next, fuseActivations s = .ok () next ∧
      ∀ key node, s.program.node? key = some node → ¬ next.program.contains key →
        ∃ function input layer fused, node.kind = .activation function ∧
          s.program.dependencies key = [input] ∧ s.program.node? input = some layer ∧
          next.program.node? input = some fused ∧ fused.fused = some function ∧
          (∀ reader slot, s.program.dependency? reader slot = some key →
            next.program.dependency? reader slot = some input) ∧
          fused.padding = layer.padding ∧
          (fused.padding.Covers node.padding ↔ layer.padding.Covers node.padding) := by
  have wf := sound.consistent
  have fuses : Ensures fuseActivations s (fun _ next => Fusing s.program next.program)
      fun _ => False := by
    refine ensures_fuseActivations_keeps (Fusing s.program) sound (.refl wf) ?_
    intro st k n function input q kept before found kind target result
    obtain ⟨into, fuses⟩ := kept.fuses found kind target result
    exact fuses.fusing wf before
  obtain ⟨_, next, finished, fusing⟩ := fuses.exists_ok
  refine ⟨next, finished, fun k n hk gone => ?_⟩
  obtain ⟨input, reads, function, target, kind, found, -, taken⟩ := fusing.gone k n hk gone
  obtain ⟨layer, foundLayer, -, border⟩ := fusing.nodes input target found
  exact ⟨function, input, layer, target, kind, reads, foundLayer, found, taken,
    fun _ _ isRead => fusing.dependency? wf gone reads isRead, border, by rw [border]⟩

end Build

namespace Topology

/-- An activation with a border of one in every direction, and the layer that it is fused into. -/
def borderedActivation (border : Padding) : Topology where
  primitives := [
    .inputLayout "x" ⟨.bfyx, ⟨1, 1, 4, 4⟩, {}⟩,
    { id := "sum", kind := .eltwise .sum, inputs := ["x", "x"], outputPadding := border },
    { id := "relu", kind := .activation .relu, inputs := ["sum"], outputPadding := ⟨⟨1, 1⟩, ⟨1, 1⟩⟩ },
    { id := "y", kind := .softmax, inputs := ["relu"] }]

theorem fused_border_covered_iff_borderedActivation : ∃ s next node fused,
    (borderedActivation ⟨⟨1, 1⟩, ⟨1, 1⟩⟩).after? Build.fuseActivations = some (s, next) ∧ s.program.Sound ∧
      Build.fuseActivations s = .ok () next ∧ s.program.node? 2 = some node ∧
      node.padding = ⟨⟨1, 1⟩, ⟨1, 1⟩⟩ ∧ ¬ next.program.contains 2 ∧
      next.program.dependency? 3 0 = some 1 ∧ next.program.node? 1 = some fused ∧
      fused.fused = some .relu ∧ fused.padding.Covers node.padding := by
  obtain ⟨⟨s, next⟩, fuses, ⟨node, found, kind, border⟩, ⟨layer, foundLayer, wide⟩, reads, isRead,
      gone⟩ : ∃ pair ∈ (borderedActivation ⟨⟨1, 1⟩, ⟨1, 1⟩⟩).after? Build.fuseActivations,
      (∃ node ∈ pair.1.program.node? 2, node.kind = .activation .relu ∧
        node.padding = ⟨⟨1, 1⟩, ⟨1, 1⟩⟩) ∧
      (∃ layer ∈ pair.1.program.node? 1, layer.padding = ⟨⟨1, 1⟩, ⟨1, 1⟩⟩) ∧
      pair.1.program.dependencies 2 = [1] ∧ pair.1.program.dependency? 3 0 = some 2 ∧
      ¬ pair.2.program.contains 2 := by decide +kernel
  obtain ⟨sound, finished⟩ := exists_of_after? fuses
  obtain ⟨same, finishedSame, fused⟩ := Build.fused_border_covered_iff s sound
  cases finished.symm.trans finishedSame
  obtain ⟨function, input, target, after, isActivation, readsInput, foundTarget, foundAfter, taken,
    redirects, -, covers⟩ := fused 2 node found gone
  cases reads.symm.trans readsInput
  cases kind.symm.trans isActivation
  cases foundLayer.symm.trans foundTarget
  exact ⟨s, next, node, after, fuses, sound, finished, found, border, gone,
    redirects 3 0 isRead, foundAfter, taken, covers.mpr (by rw [wide, border]; decide)⟩

/-- The readers of a fused activation may find no border where the activation had one. -/
theorem fused_border_lost : ∃ s next node fused, (borderedActivation {}).after? Build.fuseActivations = some (s, next) ∧
    s.program.Sound ∧ Build.fuseActivations s = .ok () next ∧ s.program.node? 2 = some node ∧
    s.program.dependency? 3 0 = some 2 ∧ ¬ next.program.contains 2 ∧
    next.program.dependency? 3 0 = some 1 ∧ next.program.node? 1 = some fused ∧
    fused.fused = some .relu ∧ ¬ fused.padding.Covers node.padding := by
  obtain ⟨⟨s, next⟩, fuses, node, found, isRead, gone, redirected, fused, foundFused, taken, bare⟩ :
      ∃ pair ∈ (borderedActivation {}).after? Build.fuseActivations,
        ∃ node ∈ pair.1.program.node? 2, pair.1.program.dependency? 3 0 = some 2 ∧
        ¬ pair.2.program.contains 2 ∧ pair.2.program.dependency? 3 0 = some 1 ∧
        ∃ fused ∈ pair.2.program.node? 1, fused.fused = some .relu ∧
          ¬ fused.padding.Covers node.padding := by decide +kernel
  obtain ⟨sound, finished⟩ := exists_of_after? fuses
  exact ⟨s, next, node, fused, fuses, sound, finished, found, isRead, gone, redirected, foundFused,
    taken, bare⟩

end Topology

end LayerGraph
