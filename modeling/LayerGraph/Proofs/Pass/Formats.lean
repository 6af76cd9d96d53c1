import LayerGraph.Pass.Formats
import LayerGraph.Proofs.Pass.Fusion
import LayerGraph.Proofs.Pass.Windows
import Mathlib.Data.Option.Basic

/-!
# Reorders

Dropping a reorder bypasses it, and giving an input the preferred format inserts one. Both rewrite a
sound program.
-/

namespace LayerGraph

open List Option Edit

/-- The id of the reorder that gives an input another format. -/
def reorderId (input : String) (format : Format) : String := s!"{input}_reorder_{format.name}"

namespace Program

variable {p q : Program} {k : NodeKey} {n : Node} {failed : Fault → Prop}

/-- A redundant reorder has no border, and what it reads has its format. -/
theorem isRedundantReorder_cases (redundant : p.isRedundantReorder k n) :
    ∃ i src lay, n.kind = .reorder lay.format ∧ n.padding.isZero ∧
      p.dependency? k 0 = some i ∧ p.node? i = some src ∧ src.layout = some lay := by
  rw [isRedundantReorder] at redundant
  split at redundant
  · next fmt kind =>
    simp only [Bool.and_eq_true, Option.any_eq_true, beq_iff_eq] at redundant
    obtain ⟨⟨-, borderless⟩, src, foundSrc, lay, kn, rfl⟩ := redundant
    obtain ⟨i, hr, foundInput⟩ := bind_eq_some_iff.mp foundSrc
    exact ⟨i, src, lay, kind, borderless, hr, foundInput, kn⟩
  · cases redundant

/-- A redundant reorder is bypassed, or nothing happens. -/
theorem ensures_dropReorder_cases (hk : p.node? k = some n) :
    Ensures (dropReorder k) p (fun _ next =>
      (next = p ∧ (p.isRedundantReorder k n → p.bypass? k = none)) ∨
        p.isRedundantReorder k n ∧ p.bypass? k = some next) failed := by
  simp only [dropReorder, ensures_bind, ensures_nodeAt hk, ensures_get]
  split
  · next redundant =>
    rw [ensures_discard, bypass]
    exact ensures_attempt (fun q res => .inr ⟨redundant, res⟩) fun refused =>
      .inl ⟨rfl, fun _ => refused⟩
  · next needed => exact .inl ⟨rfl, fun redundant => absurd redundant needed⟩

theorem ensures_dropReorder (hs : p.Sound) (hv : p.contains k) :
    Ensures (dropReorder k) p (fun _ next => Rewrites p next ∧
      ∀ o, o ≠ k → p.contains o → next.contains o) failed := by
  obtain ⟨n, hk⟩ := contains_iff.mp hv
  refine (ensures_dropReorder_cases hk).weaken ?_
  rintro _ next (⟨rfl, -⟩ | ⟨redundant, res⟩)
  · exact ⟨.refl, fun _ _ h => h⟩
  · obtain ⟨_, _, _, kind, -⟩ := isRedundantReorder_cases redundant
    exact ⟨.single (.bypassed hk kind res), fun o ne h =>
      contains_bypass? hs.consistent res ne h⟩

variable {r : NodeKey} {ks : List NodeKey}

/-- A network input that a convolution reads gets a reorder to the preferred format, if it has
another one. -/
theorem neededReorder?_cases {prim : Primitive} (needed : p.neededReorder? k n = some (prim, r)) : ∃
    lay, n.tag = .inputLayout ∧ n.layout = some lay ∧ p.convolutionReader? k = some r ∧
    lay.format ≠ preferredFormat lay.shape.batch ∧ prim = .reorder (reorderId n.id (preferredFormat
    lay.shape.batch)) n.id (preferredFormat lay.shape.batch) := by
  obtain ⟨_, isInput, needed⟩ := bind_eq_some_iff.mp needed
  obtain ⟨lay, kn, needed⟩ := bind_eq_some_iff.mp needed
  obtain ⟨src, isReader, needed⟩ := bind_eq_some_iff.mp needed
  obtain ⟨_, differs, needed⟩ := bind_eq_some_iff.mp needed
  rw [guard_eq_some', beq_iff_eq] at isInput
  rw [guard_eq_some', bne_iff_ne] at differs
  cases needed
  exact ⟨lay, isInput, kn, isReader, differs, rfl⟩

theorem convolutionReader?_eq_some (isReader : p.convolutionReader? k = some r) : ∃ convolution, p.node?
    r = some convolution ∧ convolution.tag = .convolution ∧ p.dependency? r 0 = some k := by
  have hr := find?_some isReader
  simp only [Bool.and_eq_true, Option.any_eq_true, beq_iff_eq] at hr
  obtain ⟨⟨convolution, hk, tag⟩, a⟩ := hr
  exact ⟨convolution, hk, tag, a⟩

/-- A needed reorder is inserted, unless its id is taken, or nothing happens. -/
theorem ensures_reorderInput_cases (hs : p.Sound) (hk : p.node? k = some n) :
    Ensures (reorderInput k) p
      (fun new next => new = none ∧ p.neededReorder? k n = none ∧ next = p ∨
        ∃ prim r ins, new = some ins ∧ p.neededReorder? k n = some (prim, r) ∧ next.Sound ∧
          InsertsAt p next ins k prim r 0 true ∧ TakesMarks p next ins prim n)
      (fun fault => ∃ prim r, p.neededReorder? k n = some (prim, r) ∧
        p.hasId prim.id ∧ fault = .refused (.duplicateId prim.id)) := by
  simp only [reorderInput, ensures_bind, ensures_nodeAt hk, ensures_get]
  split
  · next prim r needed =>
    obtain ⟨lay, -, -, isReader, -, rfl⟩ := neededReorder?_cases needed
    obtain ⟨-, -, -, hr⟩ := convolutionReader?_eq_some isReader
    rw [ensures_map]
    exact (hs.insertPrimitive hr hk fun _ => KindTag.noConfusion).mono (fun ins q h => .inr ⟨_, r,
      ins, rfl, needed, h⟩) fun fault taken => ⟨_, r, needed, taken⟩
  · next unneeded => exact .inl ⟨rfl, unneeded, rfl⟩

theorem ensures_reorderInput (hs : p.Sound) (hv : p.contains k) :
    Ensures (reorderInput k) p (fun _ next => Rewrites p next ∧
      ∀ o, p.contains o → next.contains o) Fault.SparesProgram := by
  obtain ⟨n, hk⟩ := contains_iff.mp hv
  refine (ensures_reorderInput_cases hs hk).mono ?_ ?_
  · rintro _ next (⟨-, -, rfl⟩ | ⟨prim, r, ins, -, needed, soundNext, inserts, -⟩)
    · exact ⟨.refl, fun _ h => h⟩
    · obtain ⟨lay, -, -, -, -, rfl⟩ := neededReorder?_cases needed
      exact ⟨.single (.inserted rfl soundNext inserts.toInserts), fun o => inserts.contains⟩
  · rintro _ ⟨_, _, -, -, rfl⟩
    exact False.elim

/-- Giving inputs the reorders that they need keeps what giving one of them its reorder keeps. -/
theorem ensures_reorderEach_keeps (holds : Program → Prop) (hs : p.Sound) (hv : ∀ k ∈ ks,
    p.contains k) (start : holds p) (round : ∀ k ∈ ks, ∀ st, Sound st → st.contains k → holds st →
    Ensures (reorderInput k) st (fun _ next => holds next) failed) : Ensures (reorderEach ks)
    p (fun _ next => Rewrites p next ∧ holds next) failed := by
  induction ks generalizing p with
  | nil => exact ⟨.refl, start⟩
  | cons k rest ih =>
    have alive := hv k mem_cons_self
    simp only [reorderEach, ensures_bind, ensures_pure]
    refine ((round k mem_cons_self p hs alive start).and (ensures_reorderInput hs alive)).weaken ?_
    rintro _ next ⟨kept, steps, stays⟩
    refine (ih (steps.sound hs) (fun o mem => stays o (hv o (mem_cons_of_mem _ mem))) kept fun o mem
      => round o (mem_cons_of_mem _ mem)).weaken ?_
    exact fun _ _ later => ⟨steps.trans later.1, later.2⟩

theorem ensures_reorderEach (hs : p.Sound) (hv : ∀ k ∈ ks, p.contains k) : Ensures
    (reorderEach ks) p (fun _ next => Rewrites p next) Fault.SparesProgram :=
  (ensures_reorderEach_keeps (fun _ => True) hs hv trivial fun _ _ _ kept alive _ =>
    (ensures_reorderInput kept alive).weaken fun _ _ _ => trivial).weaken fun _ _ h => h.1

end Program

namespace Build

open Program

variable {s : Session}

theorem ensures_dropReorders (hs : s.program.Sound) :
    Ensures dropReorders s (fun _ next => s.Advances next) s.surroundings.Excuses := by
  simp only [dropReorders, ensures_bind, ensures_program]
  exact ensures_edit_advances (ensures_forM_rewrites (fun k st kept hv =>
    ensures_dropReorder kept hv) hs hs.complete.nodup hs.consistent.order_live)

/-- Dropping reorders keeps what dropping one of them keeps. -/
theorem ensures_dropReorders_keeps (holds : Program → Prop) {failed : Fault → Prop}
    (hs : s.program.Sound) (start : holds s.program)
    (round : ∀ st k n q, Sound st → holds st → st.node? k = some n →
      st.isRedundantReorder k n → st.bypass? k = some q → holds q) :
    Ensures dropReorders s (fun _ next => holds next.program) failed := by
  simp only [dropReorders, ensures_bind, ensures_program, ensures_edit]
  refine ensures_forM_sound (fun _ st => holds st) (fun k rest st kept hv pre => ?_) hs
    hs.complete.nodup hs.consistent.order_live start
  obtain ⟨n, hk⟩ := contains_iff.mp hv
  have drops : Ensures (dropReorder k) st _ failed := ensures_dropReorder_cases hk
  refine ((ensures_dropReorder kept hv).and drops).weaken ?_
  rintro _ next ⟨steps, ⟨rfl, -⟩ | ⟨redundant, res⟩⟩
  · exact ⟨steps, pre⟩
  · exact ⟨steps, round st k n next kept pre hk redundant res⟩

theorem ensures_edit_refreshLayouts (hs : s.program.Sound) :
    Ensures (edit refreshLayouts) s (fun _ next => s.Advances next) s.surroundings.Excuses :=
  ensures_edit_advances ((ensures_refreshLayouts hs.consistent).weaken fun _ _ ann =>
    .single (.annotated ann))

theorem ensures_reorderInputs (hs : s.program.Sound) :
    Ensures reorderInputs s (fun _ next => s.Advances next) s.surroundings.Excuses := by
  simp only [reorderInputs, ensures_bind, ensures_program]
  refine (ensures_edit_advances (ensures_reorderEach hs hs.consistent.inputs_live)).weaken ?_
  intro ins mid pre
  split
  · exact pre
  · rw [ensures_bind]
    refine pre.andThen (ensures_edit_refreshLayouts (pre.rewrites.sound hs)) ?_
    intro _ refreshed step
    refine step.andThen ((ensures_compileNodes ins).weaken ?_) fun _ _ later => later
    rintro _ next ⟨e, continues⟩
    exact continues.advances e

end Build

end LayerGraph
