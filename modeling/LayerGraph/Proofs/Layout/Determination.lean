import LayerGraph.Proofs.Layout.Inference

/-!
# Layouts are determined by what is read

When the layouts of a program are brought up to date in a complete order, the result does not depend on
the order, nor on the layouts that were cached before. It is the only assignment in which the layout of
every node follows from the layouts of what it reads (`Program.HasLayouts`). Where the computation is
cut short by an overflow, there is no such assignment, so that it is cut short in every complete order.
-/

namespace LayerGraph.Program

open Edit

variable {p q : Program} {k : NodeKey} {n : Node} {lays : NodeKey → Option Layout}

/-- A change that leaves the node as it is leaves the program as it is. -/
theorem modifyNode_eq_self {change : Node → Node} (hk : p.node? k = some n) (same : change n = n) :
    p.modifyNode k change = p := by
  have cells : p.store.cells.modify k (Option.map change) = p.store.cells := by
    refine List.ext_getElem? fun index => ?_
    rw [List.getElem?_modify]
    split
    · next here =>
      subst here
      rw [NodeStore.get?_eq_some.mp hk, Option.map_eq_map, Option.map_some, Option.map_some, same]
    · exact Option.map_id'
  simp only [modifyNode, NodeStore.modify, cells]

/-- Layouts that are up to date are left as they are. -/
theorem ensures_refreshLayouts_idle (hc : p.HasCompleteOrder) (has : p.HasLayouts p.layoutOf) :
    Ensures refreshLayouts p (fun _ q => q = p) fun _ => False := by
  simp only [refreshLayouts, ensures_bind, ensures_get]
  refine ensures_forM_mem (· = p) (fun k mem st e => ?_) rfl
  subst e
  obtain ⟨n, hk⟩ := contains_iff.mp ((hc.complete k).mp mem)
  have hv : ∀ dep ∈ st.dependencies k, st.contains dep := fun dep hr =>
    (hc.complete dep).mp ((hc.before k dep hr).subset List.mem_cons_self)
  obtain ⟨output, gives, e⟩ := has k n hk
  have inferred := (inferLayout_eq_ok hv).mpr ⟨output, gives, rfl⟩
  rw [layoutOf, hk, Option.bind_some] at e
  rw [ensures_discard]
  refine (ensures_refreshLayout_exact hk).mono ?_ ?_
  · rintro _ _ ⟨layout, again, rfl⟩
    cases inferred.symm.trans again
    have padded : (n.withLayout (output.map (·.withPadding n.padding))).layout = n.layout := by
      rw [e, Node.withLayout, Option.map_map]
      rfl
    exact modifyNode_eq_self hk (congrArg (fun layout => { n with layout }) padded)
  · rintro fault ⟨-, stopped⟩
    cases inferred.symm.trans stopped

/-- Programs whose nodes read the same and differ in their cached layouts only. -/
structure SameButLayouts (program other : Program) : Prop where
  edges : other.edges = program.edges
  nodes : ∀ key, (other.node? key).map Node.unlaid = (program.node? key).map Node.unlaid

namespace SameButLayouts

theorem symm (same : SameButLayouts p q) : SameButLayouts q p :=
  ⟨same.edges.symm, fun key => (same.nodes key).symm⟩

theorem hasLayouts (same : SameButLayouts p q) (has : p.HasLayouts lays) : q.HasLayouts lays :=
  fun k => (has k).of_unlaid (by simp only [dependencies, incoming, same.edges]) (same.nodes k)

end SameButLayouts

/-- **Layouts do not depend on the order in which they are found out,** nor on the layouts that were
cached before. They are the only ones that follow from each other, and finding them out again changes
nothing. When they cannot be found out in one complete order, for an overflow, they cannot in any. -/
theorem layouts_independent_of_order (one two : Program) (same : SameButLayouts one two)
    (first : one.HasCompleteOrder) (second : two.HasCompleteOrder) :
    (∃ after last, refreshLayouts one = .ok () after ∧ refreshLayouts two = .ok () last ∧
      (∀ key, one.contains key → last.layoutOf key = after.layoutOf key) ∧
      Alters Node.unlaid one after ∧ one.HasLayouts after.layoutOf ∧
      (∀ layouts, one.HasLayouts layouts → ∀ key, one.contains key →
        layouts key = after.layoutOf key) ∧
      refreshLayouts after = .ok () after) ∨
    ∃ after last, refreshLayouts one = .error (.aborted .overflow) after ∧
      refreshLayouts two = .error (.aborted .overflow) last ∧
      ∀ layouts, ¬ one.HasLayouts layouts := by
  have endsFirst := ensures_refreshLayouts_exact first
  have endsSecond := ensures_refreshLayouts_exact second
  cases runFirst : refreshLayouts one with
  | error fault after =>
    obtain ⟨rfl, never⟩ := endsFirst.of_error runFirst
    cases runSecond : refreshLayouts two with
    | error fault last =>
      obtain ⟨rfl, -⟩ := endsSecond.of_error runSecond
      exact .inr ⟨after, last, rfl, rfl, never⟩
    | ok _ last => exact absurd (same.symm.hasLayouts (endsSecond.of_ok runSecond).2) (never _)
  | ok _ after =>
    obtain ⟨alters, has⟩ := endsFirst.of_ok runFirst
    cases runSecond : refreshLayouts two with
    | error fault last => exact absurd (same.hasLayouts has) ((endsSecond.of_error runSecond).2 _)
    | ok _ last =>
      obtain ⟨altersLast, hasLast⟩ := endsSecond.of_ok runSecond
      have unique : ∀ layouts, one.HasLayouts layouts → ∀ key, one.contains key →
          layouts key = after.layoutOf key := fun layouts follows key live =>
        HasLayoutAt.unique first.isTopological (fun key => (first.complete key).mp)
          (fun key _ => has key) (fun key _ => follows key) key ((first.complete key).mpr live)
      have settled : after.HasLayouts after.layoutOf := fun key =>
        (has key).of_unlaid (alters.dependencies key) (alters.same key)
      obtain ⟨_, again, rerun, e⟩ :=
        (ensures_refreshLayouts_idle (first.altered alters) settled).exists_ok
      exact .inl ⟨after, last, rfl, rfl, unique _ (same.symm.hasLayouts hasLast), alters, has, unique,
        e ▸ rerun⟩

/-- An input with two readers, and a node that joins them. -/
def joinedReaders : Program where
  id := 0
  store := { cells := [
    some (.ofPrimitive { id := "in", kind := .inputLayout ⟨.byxf, ⟨1, 2, 4, 4⟩, {}⟩ }),
    some (.ofPrimitive { id := "part", kind := .crop 1 none }),
    some (.ofPrimitive { id := "rest", kind := .softmax, outputPadding := { lower := ⟨1, 1⟩ } }),
    some (.ofPrimitive { id := "join", kind := .concatenation })] }
  edges := [⟨0, 1, 0⟩, ⟨0, 2, 0⟩, ⟨1, 3, 0⟩, ⟨2, 3, 1⟩]
  names := [("in", 0), ("part", 1), ("rest", 2), ("join", 3)]
  order := ⟨[0, 1, 2, 3]⟩
  inputs := [0]

/-- The readers have changed places, and a layout is cached that is not up to date. -/
def swappedReaders : Program :=
  Program.modifyNode { joinedReaders with order := ⟨[0, 2, 1, 3]⟩ } 3
    (·.withLayout (some { shape := ⟨9, 9, 9, 9⟩ }))

theorem layouts_independent_of_order_swappedReaders :
    SameButLayouts joinedReaders swappedReaders ∧ joinedReaders.HasCompleteOrder ∧
      swappedReaders.HasCompleteOrder ∧
      ∃ after last, refreshLayouts joinedReaders = .ok () after ∧
        refreshLayouts swappedReaders = .ok () last ∧
        last.layoutOf 3 = after.layoutOf 3 ∧ refreshLayouts after = .ok () after := by
  have alters : Alters Node.unlaid { joinedReaders with order := ⟨[0, 2, 1, 3]⟩ } swappedReaders :=
    .modifyNode _ 3 fun _ => rfl
  have same : SameButLayouts joinedReaders swappedReaders := ⟨rfl, alters.same⟩
  have first : joinedReaders.HasCompleteOrder := by decide
  have second : swappedReaders.HasCompleteOrder := by decide
  refine ⟨same, first, second, ?_⟩
  rcases layouts_independent_of_order _ _ same first second with
    ⟨after, last, runFirst, runSecond, equal, -, -, -, rerun⟩ | ⟨after, last, stopped, -⟩
  · exact ⟨after, last, runFirst, runSecond, equal 3 (by decide), rerun⟩
  · have runs : ∃ done, refreshLayouts joinedReaders = .ok () done := ⟨_, rfl⟩
    obtain ⟨done, ran⟩ := runs
    cases ran.symm.trans stopped

end LayerGraph.Program
