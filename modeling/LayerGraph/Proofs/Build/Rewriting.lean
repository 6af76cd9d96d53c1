import LayerGraph.Pass.Fusion
import LayerGraph.Pass.Setup
import LayerGraph.Proofs.Program.Insertion
import LayerGraph.Proofs.Program.Removal

/-!
# Rewriting steps

Once a program is set up, every pass but the folding of constants is made of a few kinds of steps
(`Rewrite`): facts about nodes are derived, the order is regrouped, nodes that no output depends on
are removed, a reorder is bypassed, an activation is fused into what it reads, a reorder is inserted,
and in a debug build a node is made an output.

A program is sound when it is consistent and its order is complete (`Sound`). What a step keeps, a
pass keeps; to begin with, every step leaves a sound program sound (`Rewrites.sound`).
-/

namespace LayerGraph

namespace Program

variable {p q : Program} {k : NodeKey}

/-- The parts of a program agree with each other, and its order is complete. -/
structure Sound (program : Program) : Prop where
  consistent : program.Consistent
  complete : program.HasCompleteOrder

/-- One step of a pass. -/
inductive Rewrite (program : Program) : Program → Prop
  | annotated {edited : Program} (annotated : Annotated program edited) : Rewrite program edited
  | regrouped : Rewrite program program.orderBreadthFirst
  | trimmed {dead : List NodeKey} (found : program.deadKeys = .ok dead) :
      Rewrite program (program.removeAll dead)
  | bypassed {edited : Program} {key : NodeKey} {node : Node} {format : Format}
      (found : program.node? key = some node) (kind : node.kind = .reorder format)
      (result : program.bypass? key = some edited) : Rewrite program edited
  | fused {edited : Program} {key input : NodeKey} {node : Node} {function : Activation}
      (found : program.node? key = some node) (kind : node.kind = .activation function)
      (target : program.fusionTarget? key node = some input)
      (result : program.bypass? key = some edited) :
      Rewrite program (edited.modifyNode input fun target => { target with fused := some function })
  | inserted {edited : Program} {key prev : NodeKey} {primitive : Primitive} {format : Format}
      (kind : primitive.kind = .reorder format) (sound : edited.Sound)
      (inserts : Inserts program edited key prev primitive) : Rewrite program edited
  | exposed (key : NodeKey) (debug : program.options.debug) :
      Rewrite program (program.setOutput key true)

/-- Any number of steps. -/
abbrev Rewrites : Program → Program → Prop := Relation.ReflTransGen Rewrite

/-- What an activation is fused into is read by the activation only. -/
theorem fusionTarget?_eq_some {n : Node} {i : NodeKey} : p.fusionTarget? k n = some i ↔
    p.dependencies k = [i] ∧ n.isOutput = false ∧ p.users i = [k] ∧
      ∃ into, p.node? i = some into ∧ into.tag.takesActivation ∧ into.fused = none ∧
        into.isOutput = false := by
  rw [fusionTarget?]
  split
  · next src hr =>
    have single : p.userCount src = 1 ↔ p.users src = [k] := by
      refine ⟨fun counted => ?_, fun only => congrArg List.length only⟩
      obtain ⟨r, only⟩ := List.length_eq_one_iff.mp counted
      have mem : k ∈ p.users src := mem_users_iff.mpr (by simp [hr])
      rw [only, List.mem_singleton] at mem
      rw [only, mem]
    simp only [Bool.and_eq_true, beq_iff_eq, Option.any_eq_true, Bool.not_eq_true', single,
      Option.isNone_iff_eq_none, Option.ite_none_right_eq_some, Option.some.injEq, hr,
      List.cons.injEq, and_true]
    constructor
    · rintro ⟨⟨⟨unmarked, into, found, ⟨takes, unfused⟩, kept⟩, only⟩, rfl⟩
      exact ⟨rfl, unmarked, only, into, found, takes, unfused, kept⟩
    · rintro ⟨rfl, unmarked, only, into, found, takes, unfused, kept⟩
      exact ⟨⟨⟨unmarked, into, found, ⟨takes, unfused⟩, kept⟩, only⟩, rfl⟩
  · next several => exact ⟨nofun, fun h => absurd h.1 (several i)⟩

theorem Sound.altered (hs : p.Sound) (alters : Alters Node.label p q) : q.Sound :=
  ⟨hs.consistent.altered alters, hs.complete.altered alters⟩

theorem Sound.setOutput (hs : p.Sound) (k : NodeKey) (output : Bool) : (p.setOutput k output).Sound :=
  ⟨hs.consistent.setOutput k output, hs.complete.setOutput k output⟩

theorem Rewrite.sound (step : Rewrite p q) (hs : p.Sound) : q.Sound := by
  cases step with
  | annotated annotated =>
    exact ⟨hs.consistent.annotated annotated, hs.complete.altered annotated⟩
  | regrouped =>
    obtain ⟨wf, complete⟩ := hs.consistent.breadthFirst hs.complete
    exact ⟨wf, complete⟩
  | trimmed hk =>
    obtain ⟨-, wf, -, complete⟩ := removes_removeAll hs.consistent _
    exact ⟨wf, complete hs.complete⟩
  | bypassed hk kind res =>
    obtain ⟨wf, -, complete⟩ := hs.consistent.bypass? res
    exact ⟨wf, complete hs.complete⟩
  | fused hk kind tgt res =>
    obtain ⟨wf, -, complete⟩ := hs.consistent.bypass? res
    exact Sound.altered ⟨wf, complete hs.complete⟩ (.modifyNode _ _ fun _ => rfl)
  | inserted kind hs ins => exact hs
  | exposed k debug => exact hs.setOutput k true

theorem settings_detachAndErase (p : Program) (k : NodeKey) :
    (p.detachAndErase k).settings = p.settings := by
  rw [detachAndErase, eraseNode, detach_rest]
  split <;> rfl

theorem options_detachAndErase (p : Program) (k : NodeKey) : (p.detachAndErase k).options = p.options :=
  options_of_settings (p.settings_detachAndErase k)

theorem settings_removeAll (p : Program) (ks : List NodeKey) :
    (p.removeAll ks).settings = p.settings := by
  induction ks generalizing p with
  | nil => rfl
  | cons k rest ih =>
    rw [removeAll, List.foldl_cons, ← removeAll, ih]
    split
    · exact p.settings_detachAndErase k
    · rfl

theorem settings_bypass? (res : p.bypass? k = some q) : q.settings = p.settings := by
  obtain ⟨n, i, -, -, -, rfl⟩ := bypass?_eq_some.mp res
  rw [settings_detachAndErase, redirectAll_rest]
  rfl

theorem settings_of_alters {α : Type} {view : Node → α} (alters : Alters view p q) :
    q.settings = p.settings := by
  rw [settings, alters.rest]
  rfl

theorem settings_setOutput (p : Program) (k : NodeKey) (output : Bool) :
    (p.setOutput k output).settings = p.settings := by
  rw [settings, setOutput_rest]
  rfl

theorem Rewrite.settings (step : Rewrite p q) : q.settings = p.settings := by
  cases step with
  | annotated annotated => exact settings_of_alters annotated
  | regrouped => rfl
  | trimmed hk => exact p.settings_removeAll _
  | bypassed hk kind res => exact settings_bypass? res
  | fused hk kind tgt res =>
    have e := settings_bypass? res
    exact e
  | inserted kind hs ins => exact ins.settings
  | exposed k debug => exact p.settings_setOutput k true

theorem Rewrite.options (step : Rewrite p q) : q.options = p.options :=
  options_of_settings step.settings

/-- **Passes leave sound programs sound.** -/
theorem Rewrites.sound (steps : Rewrites p q) (hs : p.Sound) : q.Sound := by
  induction steps with
  | refl => exact hs
  | tail _ step ih => exact step.sound ih

theorem Rewrites.settings (steps : Rewrites p q) : q.settings = p.settings := by
  induction steps with
  | refl => rfl
  | tail _ step ih => exact step.settings.trans ih

theorem Rewrites.options (steps : Rewrites p q) : q.options = p.options :=
  options_of_settings steps.settings

variable {step : NodeKey → Edit PUnit} {failed : Fault → Prop} {ks : List NodeKey}

/-- **A loop over live nodes keeps what its rounds keep,** when each round rewrites and removes no
node but its own. -/
theorem ensures_forM_sound (keeps : List NodeKey → Program → Prop) (round : ∀ k rest st, Sound st →
    st.contains k → keeps (k :: rest) st → Ensures (step k) st (fun _ next => (Rewrites st next ∧ ∀ o, o
    ≠ k → st.contains o → next.contains o) ∧ keeps rest next) failed) (hs : p.Sound) (nodup :
    ks.Nodup) (hv : ∀ k ∈ ks, p.contains k) (start : keeps ks p) : Ensures (ks.forM step) p
    (fun _ q => keeps [] q) failed := by
  refine (ensures_forM (fun rest st => Sound st ∧ rest.Nodup ∧ (∀ k ∈ rest, st.contains k) ∧ keeps rest
    st) ?_ ⟨hs, nodup, hv, start⟩).weaken fun _ _ kept => kept.2.2.2
  rintro k rest st ⟨kept, nd, alive, holds⟩
  obtain ⟨ha, nd⟩ := List.nodup_cons.mp nd
  refine (round k rest st kept (alive k List.mem_cons_self) holds).weaken ?_
  rintro _ next ⟨⟨steps, stays⟩, holdsNext⟩
  refine ⟨steps.sound kept, nd, fun o mem => ?_, holdsNext⟩
  exact stays o (fun e => ha (e ▸ mem)) (alive o (List.mem_cons_of_mem _ mem))

/-- Such a loop rewrites what its rounds rewrite. -/
theorem ensures_forM_rewrites (round : ∀ k st, Sound st → st.contains k → Ensures (step k) st (fun _ next
    => Rewrites st next ∧ ∀ o, o ≠ k → st.contains o → next.contains o) failed) (hs : p.Sound) (nd
    : ks.Nodup) (hv : ∀ k ∈ ks, p.contains k) : Ensures (ks.forM step) p (fun _ q => Rewrites p
    q) failed := by
  refine ensures_forM_sound (fun _ st => Rewrites p st)
    (fun k _ st kept alive pre => ?_) hs nd hv .refl
  exact (round k st kept alive).weaken fun _ next h => ⟨h, pre.trans h.1⟩

end Program

end LayerGraph
