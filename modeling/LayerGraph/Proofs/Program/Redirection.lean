import LayerGraph.Proofs.Program.Reversal

/-!
# Redirecting readers

The readers of one node are made to read another one, and only the other node itself goes on reading
what it read. So a path of two or more edges from the one to the other is closed to a cycle: the reader
with which it goes on reads its end afterwards. No other cycle arises (`Acyclic.redirect_iff`).
-/

namespace LayerGraph

/-- **Redirecting the readers of a node closes the long ways to the other node, and only these.** -/
theorem Acyclic.redirect_iff {dependencies after : NodeKey → List NodeKey} {old new : NodeKey}
    (acyclic : Acyclic dependencies) (hr : ∀ k src, src ∈ after k ↔
      src ∈ dependencies k ∧ (src ≠ old ∨ k = new) ∨ src = new ∧ old ∈ dependencies k ∧ k ≠ new) :
    Acyclic after ↔ ¬ ∃ middle, old ∈ dependencies middle ∧
      Relation.TransGen (Feeds dependencies) middle new := by
  constructor
  · rintro still ⟨middle, direct, path⟩
    -- No edge of the path starts at the old node, for the path would come back to it.
    have kept : ∀ last, Relation.TransGen (Feeds dependencies) middle last →
        Relation.TransGen (Feeds after) middle last := by
      intro last path
      induction path with
      | single step =>
        refine .single ((hr _ _).mpr (.inl ⟨step, .inl ?_⟩))
        rintro rfl
        exact acyclic _ (.single direct)
      | tail front step ih =>
        refine ih.tail ((hr _ _).mpr (.inl ⟨step, .inl ?_⟩))
        rintro rfl
        exact acyclic _ (.head direct front)
    have apart : middle ≠ new := fun e => acyclic new (e ▸ path)
    exact still new (.head ((hr _ _).mpr (.inr ⟨rfl, direct, apart⟩)) (kept new path))
  · intro direct
    have short : ∀ middle, old ∈ dependencies middle → middle ≠ new →
        ¬ Relation.ReflTransGen (Feeds dependencies) middle new := fun middle read apart path =>
      direct ⟨middle, read, (Relation.reflTransGen_iff_eq_or_transGen.mp path).resolve_left
        (Ne.symm apart)⟩
    -- A path of the new graph is one of the old graph, or it passes the other node once.
    have cut : ∀ a last, Relation.TransGen (Feeds after) a last → Relation.TransGen (Feeds dependencies)
        a last ∨ Relation.ReflTransGen (Feeds dependencies) a new ∧ ∃ middle, old ∈ dependencies middle ∧
        middle ≠ new ∧ Relation.ReflTransGen (Feeds dependencies) middle last := by
      intro a last path
      induction path with
      | single step =>
        rcases (hr _ _).mp step with ⟨step, -⟩ | ⟨rfl, read, apart⟩
        · exact .inl (.single step)
        · exact .inr ⟨.refl, _, read, apart, .refl⟩
      | tail _ step ih =>
        rcases (hr _ _).mp step with ⟨step, -⟩ | ⟨rfl, read, apart⟩
        · rcases ih with without | ⟨front, middle, pre, differs, back⟩
          · exact .inl (without.tail step)
          · exact .inr ⟨front, middle, pre, differs, back.tail step⟩
        · rcases ih with without | ⟨-, middle, pre, differs, back⟩
          · exact .inr ⟨without.to_reflTransGen, _, read, apart, .refl⟩
          · exact absurd back (short middle pre differs)
    intro k path
    rcases cut k k path with without | ⟨front, middle, read, apart, back⟩
    · exact acyclic k without
    · exact short middle read apart (back.trans front)

namespace Program

variable {program : Program} {old new k src : NodeKey}

theorem mem_dependencies_redirect {user : NodeKey} :
    src ∈ (program.redirect user old new).dependencies k ↔ ∃ pre ∈ program.dependencies k,
        (if k = user then redirected old new pre else pre) = src := by
  simp only [mem_dependencies, (rewires_redirect program user old new).perm.mem_iff, List.mem_map]
  constructor
  · rintro ⟨_, ⟨edge, mem, rfl⟩, rfl, rfl⟩
    refine ⟨edge.source, ⟨edge, mem, rfl, ?_⟩, ?_⟩
    · split <;> rfl
    · by_cases fromOld : edge.source = old <;> by_cases toUser : edge.target = user <;>
        simp [redirected, fromOld, toUser]
  · rintro ⟨_, ⟨edge, mem, rfl, rfl⟩, rfl⟩
    refine ⟨_, ⟨edge, mem, rfl⟩, ?_, ?_⟩
    · by_cases fromOld : edge.source = old <;> by_cases toUser : edge.target = user <;>
        simp [redirected, fromOld, toUser]
    · split <;> rfl

theorem mem_dependencies_redirectAll {users : List NodeKey} :
    src ∈ (program.redirectAll users old new).dependencies k ↔
      ∃ pre ∈ program.dependencies k,
        (if k ∈ users then redirected old new pre else pre) = src := by
  induction users generalizing program with
  | nil => simp [redirectAll]
  | cons user rest ih =>
    rw [redirectAll, List.foldl_cons, ← redirectAll, ih]
    simp only [mem_dependencies_redirect, exists_exists_and_eq_and]
    refine exists_congr fun pre => and_congr_right fun _ => ?_
    by_cases here : k = user <;> by_cases later : k ∈ rest <;>
      simp [here, later, redirected_redirected]

theorem mem_dependencies_redirectReaders :
    src ∈ (program.redirectAll ((program.users old).filter (· != new)) old new).dependencies k ↔
      src ∈ program.dependencies k ∧ (src ≠ old ∨ k = new) ∨
        src = new ∧ old ∈ program.dependencies k ∧ k ≠ new := by
  simp only [mem_dependencies_redirectAll, List.mem_filter, mem_users_iff, bne_iff_ne]
  by_cases isNew : k = new
  · simp [isNew]
  · by_cases hr : old ∈ program.dependencies k
    · simp only [isNew, hr, redirected, ne_eq, not_false_eq_true, and_true, if_true, or_false]
      constructor
      · rintro ⟨pre, mem, rfl⟩
        split
        · exact .inr rfl
        · next o => exact .inl ⟨mem, o⟩
      · rintro (⟨mem, o⟩ | rfl)
        · exact ⟨src, mem, if_neg o⟩
        · exact ⟨old, hr, if_pos rfl⟩
    · have others : ∀ pre ∈ program.dependencies k, pre ≠ old := fun pre mem e =>
        hr (e ▸ mem)
      simpa [isNew, hr] using others src

/-- **Making the readers of a node read another one leaves no cycle exactly when no path of two or more
edges leads from the one to the other.** -/
theorem redirected_readers_acyclic_iff (acyclic : Acyclic program.dependencies)
    (oldLive : program.contains old) (newLive : program.contains new) :
    ∃ edited, Edit.redirectReaders old new program = .ok () edited ∧
      (Acyclic edited.dependencies ↔ ¬ program.HasLongWay old new) := by
  obtain ⟨_, _, result, -, rfl⟩ := (ends_redirectReaders old new).exists_ok fun _ _ given =>
    given.2.2 ⟨oldLive, newLive⟩
  exact ⟨_, result, acyclic.redirect_iff fun _ _ => mem_dependencies_redirectReaders⟩

open Rewiring

theorem acyclic_orderedReadings : Acyclic orderedReadings.dependencies := by
  have complete : orderedReadings.HasCompleteOrder := by decide
  exact complete.toHasValidOrder.acyclic

/-- The spare node is read by nobody and reads nothing, so that it can take over all readers. -/
theorem redirected_readers_acyclic_iff_orderedReadings :
    Acyclic orderedReadings.dependencies ∧ ¬ orderedReadings.HasLongWay 0 3 ∧
      ∃ edited, Edit.redirectReaders 0 3 orderedReadings = .ok () edited ∧
        Acyclic edited.dependencies := by
  have direct : ¬ orderedReadings.HasLongWay 0 3 := by
    rintro ⟨middle, -, path⟩
    obtain ⟨before, -, reads⟩ := Relation.TransGen.tail'_iff.mp path
    replace reads : before ∈ orderedReadings.dependencies 3 := reads
    rw [show orderedReadings.dependencies 3 = [] by decide] at reads
    cases reads
  obtain ⟨edited, result, still⟩ := redirected_readers_acyclic_iff acyclic_orderedReadings
    (by decide : orderedReadings.contains 0) (by decide : orderedReadings.contains 3)
  exact ⟨acyclic_orderedReadings, direct, edited, result, still.mpr direct⟩

/-- The reader also reads the node in the middle. When the latter is made to read the reader in the place
of the source, the two read each other. -/
theorem redirected_readers_cyclic :
    orderedReadings.Consistent ∧ Acyclic orderedReadings.dependencies ∧
      orderedReadings.contains 0 ∧ orderedReadings.contains 2 ∧
      ∃ edited, Edit.redirectReaders 0 2 orderedReadings = .ok () edited ∧
        ¬ Acyclic edited.dependencies := by
  refine ⟨consistent_orderedReadings, acyclic_orderedReadings, by decide, by decide, _, rfl, ?_⟩
  intro acyclic
  refine acyclic 2 (.head (b := 1) ?_ (.single ?_))
  · show 2 ∈ Program.dependencies _ 1
    decide
  · show 1 ∈ Program.dependencies _ 2
    decide

end Program

end LayerGraph
