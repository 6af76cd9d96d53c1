import LayerGraph.Proofs.Pass.Setup
import LayerGraph.Proofs.Program.Placement

/-!
# Room for windows

Deciding about output sizes leaves the program as it is. Making room for a window merges a border
into a node or inserts a reorder, so that a sound program is rewritten (`Build.ensures_prepareWindows`).
-/

namespace LayerGraph

open Option

namespace Program

variable {p q : Program} {k i : NodeKey}

theorem onlyOverflows_asksForOtherSize (hv : p.contains k) :
    (p.asksForOtherSize k).OnlyOverflows := by
  obtain ⟨n, hk⟩ := contains_iff.mp hv
  rw [asksForOtherSize, nodeAt_of_node? hk]
  refine .bind nofun fun n => ?_
  split
  · exact .bind (Window.onlyOverflows_outputSize _ _) fun _ => .pure _
  · exact .pure _

theorem onlyOverflows_anyAsksForOtherSize {ks : List NodeKey} (hv : ∀ k ∈ ks, p.contains k) :
    (p.anyAsksForOtherSize ks).OnlyOverflows := by
  induction ks with
  | nil => exact .pure _
  | cons k rest ih =>
    refine .bind (onlyOverflows_asksForOtherSize (hv k List.mem_cons_self)) fun asks => ?_
    split
    · exact .pure _
    · exact ih fun o mem => hv o (List.mem_cons_of_mem _ mem)

variable {inserted prev : NodeKey} {prim : Primitive} {n : Node}

theorem Inserts.contains (ins : Inserts p q inserted prev prim) (hv : p.contains k) : q.contains k
    := by
  obtain ⟨n, hk⟩ := contains_iff.mp hv
  have e := ins.others k (ins.different hv)
  rw [hk, map_some] at e
  obtain ⟨after, foundAfter, -⟩ := map_eq_some_iff.mp e
  exact contains_of_node? foundAfter

theorem Inserts.contains_inserted (ins : Inserts p q inserted prev prim) : q.contains inserted := by
  obtain ⟨n, hk, -⟩ := map_eq_some_iff.mp ins.node
  exact contains_of_node? hk

/-- **A new node is inserted and takes the marks of what it reads,** unless its id is taken. -/
theorem Sound.insertPrimitive (hs : p.Sound) {moveUsers : Bool} {r : NodeKey} {pos : Nat} {src : Node}
    (hr : (p.dependencies r)[pos]? = some prev) (foundPrev : p.node? prev = some src) (noInput :
    moveUsers → prim.tag ≠ .inputLayout) : Ensures (Edit.insertPrimitive prim r pos ⟨true, moveUsers⟩) p
    (fun inserted q => q.Sound ∧ InsertsAt p q inserted prev prim r pos moveUsers ∧ TakesMarks p q
    inserted prim src) (fun fault => p.hasId prim.id ∧ fault = .refused (.duplicateId prim.id)) := by
  have wf := hs.consistent
  have registered := wf.ensure prim
  refine (ends_insertPrimitive registered.reads_live r pos ⟨true, moveUsers⟩).mono ?_ ?_
  · rintro _ q ⟨fr, rfl, puts⟩
    obtain ⟨e, ins⟩ := puts.insertsAt wf fr
    cases hr.symm.trans ins.readAt
    exact ⟨⟨puts.consistent registered, puts.hasCompleteOrder wf fr hs.complete⟩,
      ins, puts.takesMarks wf fr hr foundPrev noInput⟩
  · rintro fault _ ⟨-, cause⟩
    split at cause
    · next taken => exact ⟨taken, cause⟩
    · next unused =>
      -- There is a place for a new node, so that its insertion is not refused.
      have fr : p.keyOf? prim.id = none := by
        simpa [hasId] using unused
      have readerLive := (wf.reads_live r prev (List.mem_of_getElem? hr)).2
      refine absurd ⟨prev, (contains_ensure wf fr).mpr (.inl rfl),
        (contains_ensure wf fr).mpr (.inr readerLive), ?_, fun _ => ?_⟩ cause.2
      · rw [dependencies_ensure, hr]
      · rw [dependencies_ensure, wf.dependencies_of_dead (not_contains_ensure_key wf fr)]

/-- The reorder that is put between a node and a network input or a constant buffer that it reads. -/
def windowReorder (source node : Node) (padding : Padding) : Primitive :=
  .paddedReorder source.id node.id ((source.layout.map (·.format)).getD .bfyx) padding

theorem firstInputLayout?_eq {src : Node} (hr : p.dependency? k 0 = some i)
    (foundSrc : p.node? i = some src) : p.firstInputLayout? k = src.layout := by
  rw [firstInputLayout?, hr, bind_some, foundSrc, bind_some]

/-- What giving a border to what a node reads can do, when it has a known layout. A network input or a
constant buffer keeps the border that it has, and a reorder with the border is put in front of the
reader. -/
inductive Widens (program : Program) (key : NodeKey) (node : Node) (input : NodeKey)
    (layout : Layout) (padding : Padding) : Program → Prop
  | merged {source : Node} (found : program.node? input = some source)
      (known : source.layout = some layout)
      (tag : ¬ (source.tag = .inputLayout ∨ source.tag = .data)) :
      Widens program key node input layout padding (program.modifyNode input (·.mergePadding padding))
  | inserted {source : Node} {middle : Program} {inserted : NodeKey}
      (found : program.node? input = some source) (known : source.layout = some layout)
      (tag : source.tag = .inputLayout ∨ source.tag = .data) (sound : middle.Sound)
      (inserts : InsertsAt program middle inserted input (windowReorder source node padding) key 0 false)
      (takes : TakesMarks program middle inserted (windowReorder source node padding) source) :
      Widens program key node input layout padding (middle.modifyNode inserted
        (·.withLayout (some ⟨layout.format, layout.shape, padding⟩)))

/-- The id of the reorder in front of a node is taken. -/
def WindowTaken (program : Program) (node : Node) (input : NodeKey) (padding : Padding)
    (fault : Fault) : Prop :=
  ∃ source, program.node? input = some source ∧ (source.tag = .inputLayout ∨ source.tag = .data) ∧
    program.hasId (windowReorder source node padding).id ∧
    fault = .refused (.duplicateId (windowReorder source node padding).id)

section Widen

variable {lay : Layout} {pad : Padding}

/-- The layout of a reorder in front of a node is that of what it reads, with a border. -/
theorem InsertsAt.inferLayout_windowReorder {src : Node} {r : NodeKey} {slot : Nat} {moved : Bool}
    (ins : InsertsAt p q inserted i (windowReorder src n pad) r slot moved)
    (takes : TakesMarks p q inserted (windowReorder src n pad) src)
    (foundSrc : p.node? i = some src) (kn : src.layout = some lay) :
    q.inferLayout inserted ((Node.ofPrimitive (windowReorder src n pad)).markedLike src) =
      .ok (some ⟨lay.format, lay.shape, pad⟩) := by
  have sources : q.dependencyNodes inserted = [src] := by
    rw [dependencyNodes, ins.reads, List.filterMap_cons, takes.nodes,
      if_neg (ins.different (contains_of_node? foundSrc)), foundSrc]
    rfl
  rw [inferLayout, sources, List.mapM_cons, kn, windowReorder, kn]
  rfl

theorem ensures_widen (hs : p.Sound) (hk : p.node? k = some n) (hr : p.dependency? k 0 = some i)
    (kn : p.firstInputLayout? k = some lay) : Ensures (Edit.widen k i pad) p
      (fun _ next => Widens p k n i lay pad next) (WindowTaken p n i pad) := by
  obtain ⟨src, foundSrc⟩ := contains_iff.mp
    (hs.consistent.reads_live k i (List.mem_of_getElem? hr)).1
  rw [firstInputLayout?_eq hr foundSrc] at kn
  simp only [Edit.widen, ensures_bind, ensures_nodeAt foundSrc]
  split
  · next tag =>
    simp only [ensures_bind, ensures_nodeAt hk, ensures_discard]
    refine (hs.insertPrimitive hr foundSrc fun moves => absurd moves Bool.false_ne_true).mono
      ?_ fun fault taken => ⟨src, foundSrc, tag, taken⟩
    rintro inserted mid ⟨soundMiddle, ins, takes⟩
    have foundFresh := takes.nodes inserted
    rw [if_pos rfl] at foundFresh
    have inferred := ins.inferLayout_windowReorder takes foundSrc kn
    refine (ensures_refreshLayout_exact foundFresh).mono ?_ fun _ h => ?_
    · rintro _ _ ⟨out, again, rfl⟩
      cases inferred.symm.trans again
      exact .inserted foundSrc kn tag soundMiddle ins takes
    · cases inferred.symm.trans h.2
  · next tag => exact .merged foundSrc kn tag

theorem Widens.rewrites (widens : Widens p k n i lay pad q) : Rewrites p q ∧ ∀ o, p.contains o →
    q.contains o := by
  cases widens with
  | merged =>
    have ann : Annotated p (p.modifyNode i (·.mergePadding pad)) :=
      .modifyNode p i fun _ => rfl
    exact ⟨.single (.annotated ann), fun o h =>
      (ann.contains o).mpr h⟩
  | @inserted _ mid inserted _ _ _ hs ins =>
    have ann : Annotated mid (mid.modifyNode inserted
        (·.withLayout (some ⟨lay.format, lay.shape, pad⟩))) := .modifyNode mid inserted fun _ => rfl
    have steps : Rewrites p mid := .single (.inserted rfl hs ins.toInserts)
    exact ⟨steps.tail (.annotated ann), fun o h =>
      (ann.contains o).mpr (ins.contains h)⟩

end Widen

/-- What making room for the window of a node can do. -/
inductive PreparesWindow (handling : Bool) (program : Program) (key : NodeKey) (node : Node) :
    Program → Prop
  | unknown (missing : program.firstInputLayout? key = none) :
      PreparesWindow handling program key node program
  | enough {layout : Layout} {border : Option Padding}
      (known : program.firstInputLayout? key = some layout)
      (needs : node.kind.neededBorder handling layout = .ok border)
      (small : ∀ padding, border = some padding → padding.isZero) :
      PreparesWindow handling program key node program
  | widened {input : NodeKey} {layout : Layout} {padding : Padding} {edited : Program}
      (reads : program.dependency? key 0 = some input)
      (known : program.firstInputLayout? key = some layout)
      (needs : node.kind.neededBorder handling layout = .ok (some padding))
      (wide : ¬ padding.isZero) (widens : Widens program key node input layout padding edited) :
      PreparesWindow handling program key node edited

/-- Why no room can be made for the window of a node. -/
inductive FailsWindow (handling : Bool) (program : Program) (key : NodeKey) (node : Node) :
    Fault → Prop
  | overflow {layout : Layout} (known : program.firstInputLayout? key = some layout)
      (stopped : node.kind.neededBorder handling layout = .error .overflow) :
      FailsWindow handling program key node (.aborted .overflow)
  | taken {input : NodeKey} {layout : Layout} {padding : Padding} {fault : Fault}
      (reads : program.dependency? key 0 = some input)
      (known : program.firstInputLayout? key = some layout)
      (needs : node.kind.neededBorder handling layout = .ok (some padding))
      (wide : ¬ padding.isZero) (taken : WindowTaken program node input padding fault) :
      FailsWindow handling program key node fault

theorem ensures_prepareWindow_cases (handling : Bool) (hs : p.Sound) (hk : p.node? k = some n) :
    Ensures (Edit.prepareWindow handling k) p (fun _ next => PreparesWindow handling p k n next)
      (FailsWindow handling p k n) := by
  simp only [Edit.prepareWindow, ensures_bind, ensures_get]
  split
  · next i lay hr kn =>
    simp only [ensures_bind, ensures_nodeAt hk]
    refine ensures_checked (fun border needs => ?_) fun cause stopped => ?_
    · split
      · next pad =>
        split
        · next small =>
          refine .enough kn needs fun o e => ?_
          cases e
          exact small
        · next wide =>
          exact (ensures_widen hs hk hr kn).mono
            (fun _ next widens => .widened hr kn needs wide widens)
            fun _ taken => .taken hr kn needs wide taken
      · refine .enough kn needs fun _ e => ?_
        cases e
    · cases n.kind.onlyOverflows_neededBorder handling lay cause stopped
      exact .overflow kn stopped
  · next missing =>
    refine .unknown ?_
    cases hr : p.dependency? k 0 with
    | none => rw [firstInputLayout?, hr, bind_none, bind_none]
    | some i =>
      cases kn : p.firstInputLayout? k with
      | none => rfl
      | some lay => exact absurd kn (missing i lay hr)

theorem ensures_prepareWindow (handling : Bool) (hs : p.Sound) (hv : p.contains k) :
    Ensures (Edit.prepareWindow handling k) p (fun _ next => Rewrites p next ∧
      ∀ o, p.contains o → next.contains o) Fault.SparesProgram := by
  obtain ⟨n, hk⟩ := contains_iff.mp hv
  refine (ensures_prepareWindow_cases handling hs hk).mono ?_ ?_
  · intro _ next prep
    cases prep with
    | unknown => exact ⟨.refl, fun _ h => h⟩
    | enough => exact ⟨.refl, fun _ h => h⟩
    | widened _ _ _ _ widens => exact widens.rewrites
  · intro _ fails
    cases fails with
    | overflow => exact False.elim
    | taken _ _ _ _ taken =>
      obtain ⟨_, -, -, -, rfl⟩ := taken
      exact False.elim

end Program

namespace Build

open Program

variable {s : Session}

theorem ensures_decideOutputSizes (hs : s.program.Sound) : Ensures decideOutputSizes s
      (fun _ next => next.program = s.program ∧ s.Continues next) s.surroundings.Excuses := by
  simp only [decideOutputSizes, ensures_bind, ensures_program]
  split
  · exact ⟨rfl, rfl, rfl⟩
  · rw [ensures_bind]
    refine ensures_checked (fun handling _ => ⟨rfl, rfl, rfl⟩) fun cause stopped => ?_
    rw [onlyOverflows_anyAsksForOtherSize hs.consistent.order_live cause stopped]
    exact False.elim

theorem ensures_prepareWindows (hs : s.program.Sound) :
    Ensures prepareWindows s (fun _ next => s.Advances next) s.surroundings.Excuses := by
  simp only [prepareWindows, ensures_bind, ensures_get]
  refine ensures_edit_advances (ensures_forM_rewrites (fun k st kept hv => ?_) hs
    hs.complete.nodup hs.consistent.order_live)
  refine (ensures_prepareWindow _ kept hv).weaken ?_
  rintro _ next ⟨steps, stays⟩
  exact ⟨steps, fun o _ => stays o⟩

/-- Making room for windows keeps what making room for one of them keeps. -/
theorem ensures_prepareWindows_keeps (holds : Program → Prop) {failed : Fault → Prop}
    (hs : s.program.Sound) (start : holds s.program)
    (round : ∀ handling st k, Sound st → st.contains k → holds st →
      Ensures (Edit.prepareWindow handling k) st (fun _ next => holds next) failed) :
    Ensures prepareWindows s (fun _ next => holds next.program) failed := by
  simp only [prepareWindows, ensures_bind, ensures_get, ensures_edit]
  refine ensures_forM_sound (fun _ st => holds st) (fun k rest st kept hv pre => ?_) hs
    hs.complete.nodup hs.consistent.order_live start
  refine ((round _ st k kept hv pre).and (ensures_prepareWindow _ kept hv)).weaken ?_
  rintro _ next ⟨h, steps, stays⟩
  exact ⟨⟨steps, fun o _ => stays o⟩, h⟩

end Build

end LayerGraph
