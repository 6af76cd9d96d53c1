import LayerGraph.Proofs.Build.Session

/-!
# Fusing layers and buffers

Fusing an activation removes its node and notes the activation with the layer that it read. Running
in place is a mark. Both rewrite a sound program.
-/

namespace LayerGraph

namespace Program

variable {p q : Program} {k : NodeKey}

theorem contains_bypass? (wf : p.Consistent) (res : p.bypass? k = some q) {o : NodeKey} (ne : o ≠ k)
    (hv : p.contains o) : q.contains o := by
  obtain ⟨n, i, hk, hr, -, rfl⟩ := bypass?_eq_some.mp res
  obtain ⟨kept, foundKept⟩ := contains_iff.mp hv
  refine contains_iff.mpr ⟨kept, ?_⟩
  rw [node?_bypass wf hr hk, if_neg ne, foundKept]

variable {failed : Fault → Prop}

/-- An activation is fused into what it reads, or nothing happens. -/
theorem ensures_fuse_cases {n : Node} (hk : p.node? k = some n) : Ensures (Edit.fuse k) p (fun _ next =>
    (next = p ∧ ∀ fn, n.kind = .activation fn → p.fusionTarget? k n = none) ∨ ∃ fn i q,
      n.kind = .activation fn ∧ p.fusionTarget? k n = some i ∧ p.bypass? k = some q ∧
      next = q.modifyNode i fun tgt => { tgt with fused := some fn })
      failed := by
  simp only [Edit.fuse, ensures_bind, ensures_nodeAt hk]
  split
  case h_2 other => exact .inl ⟨rfl, fun fn kind => absurd kind (other fn)⟩
  next fn kind =>
  simp only [ensures_bind, ensures_get]
  split
  case h_2 none => exact .inl ⟨rfl, fun _ _ => none⟩
  next i tgt =>
  rw [ensures_bind, Edit.bypass]
  refine ensures_attempt (fun q res => .inr ⟨fn, i, q, kind, tgt, res, rfl⟩) fun refused => ?_
  obtain ⟨hr, unmarked, -⟩ := fusionTarget?_eq_some.mp tgt
  cases refused.symm.trans (bypass?_eq_some.mpr ⟨n, i, hk, hr, unmarked, rfl⟩)

theorem ensures_fuse (hs : p.Sound) (hv : p.contains k) : Ensures (Edit.fuse k) p (fun _ next =>
    Rewrites p next ∧ ∀ o, o ≠ k → p.contains o → next.contains o) failed := by
  obtain ⟨n, hk⟩ := contains_iff.mp hv
  refine (ensures_fuse_cases hk).weaken ?_
  rintro _ _ (⟨rfl, -⟩ | ⟨fn, i, q, kind, tgt, res, rfl⟩)
  · exact ⟨.refl, fun _ _ h => h⟩
  refine ⟨.single (.fused hk kind tgt res), fun o ne h => ?_⟩
  have alters : Alters Node.label q (q.modifyNode i fun tgt =>
      { tgt with fused := some fn }) := .modifyNode q i fun _ => rfl
  exact (alters.contains o).mpr (contains_bypass? hs.consistent res ne h)

theorem marked_shareBuffer (p : Program) (k : NodeKey) : Marked p (p.shareBuffer k) := by
  rw [shareBuffer]
  split
  · split
    · exact .modifyNode p k fun _ => rfl
    · exact .refl p
  · exact .refl p

theorem marked_foldl_shareBuffer (ks : List NodeKey) (p : Program) :
    Marked p (ks.foldl shareBuffer p) := by
  induction ks generalizing p with
  | nil => exact .refl p
  | cons k rest ih => exact (p.marked_shareBuffer k).trans (ih _)

end Program

namespace Build

open Program

variable {s : Session}

theorem ensures_fuseActivations (hs : s.program.Sound) :
    Ensures fuseActivations s (fun _ next => s.Advances next) s.surroundings.Excuses := by
  simp only [fuseActivations, ensures_bind, ensures_program]
  exact ensures_edit_advances (ensures_forM_rewrites (fun k st kept hv =>
    ensures_fuse kept hv) hs hs.complete.nodup hs.consistent.order_live)

/-- Fusing activations keeps what fusing one of them keeps. -/
theorem ensures_fuseActivations_keeps (holds : Program → Prop) {failed : Fault → Prop}
    (hs : s.program.Sound) (start : holds s.program)
    (round : ∀ st k n fn i q, Sound st → holds st →
      st.node? k = some n → n.kind = .activation fn →
      st.fusionTarget? k n = some i → st.bypass? k = some q →
      holds (q.modifyNode i fun tgt => { tgt with fused := some fn })) :
    Ensures fuseActivations s (fun _ next => holds next.program) failed := by
  simp only [fuseActivations, ensures_bind, ensures_program, ensures_edit]
  refine ensures_forM_sound (fun _ st => holds st) (fun k rest st kept hv pre => ?_) hs
    hs.complete.nodup hs.consistent.order_live start
  obtain ⟨n, hk⟩ := contains_iff.mp hv
  have fuses : Ensures (Edit.fuse k) st _ failed := ensures_fuse_cases hk
  refine ((ensures_fuse kept hv).and fuses).weaken ?_
  rintro _ next ⟨steps, ⟨rfl, -⟩ | ⟨fn, i, q, kind, tgt, res, rfl⟩⟩
  · exact ⟨steps, pre⟩
  · exact ⟨steps, round st k n fn i q kept pre hk kind tgt res⟩

theorem ensures_shareBuffers : Ensures shareBuffers s (fun _ next => s.Advances next)
      s.surroundings.Excuses := by
  rw [shareBuffers, ensures_modifyProgram]
  exact ⟨⟨rfl, rfl⟩, .single (.annotated (marked_foldl_shareBuffer _ _).annotated)⟩

end Build

end LayerGraph
