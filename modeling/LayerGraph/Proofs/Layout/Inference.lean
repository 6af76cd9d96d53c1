import LayerGraph.Proofs.Pass.Setup
import Mathlib.Data.List.Forall2

/-!
# Layouts follow from what is read

The format and the shape of the output of a layer follow from those of what it reads; its border does
not matter for either (`Kind.Gives`). A layout is unknown when the layout of something that is read is
unknown.

What matters of a program for layouts is its `Layering`: kind, border and cached layout of each node,
and what it reads. A layering is solved when every cached layout follows from the cached layouts of
what is read. When the layouts of a sound program are brought up to date, its layering is solved
afterwards (`Program.ensures_refreshLayouts_solved`).
-/

namespace LayerGraph

open List Option Node

/-- The layout without its border. -/
def Layout.bare (layout : Layout) : Layout := layout.withPadding {}

namespace Kind

/-- The layout of the output, without a border, given the layouts of the inputs. -/
def outputLayout (kind : Kind) (inputs : List Layout) : Checked (Option Layout) := do
  let shape ← kind.outputShape (inputs.map (·.shape))
  return shape.map fun shape => { format := kind.outputFormat (inputs.map (·.format)), shape }

/-- What is known of the output of a kind, given what is known of its inputs. -/
inductive Gives (kind : Kind) (inputs : List (Option Layout)) : Option Layout → Prop
  | unknown (missing : none ∈ inputs) : Gives kind inputs none
  | known {layouts : List Layout} {output : Option Layout} (all : inputs = layouts.map some)
      (result : kind.outputLayout layouts = .ok output) : Gives kind inputs output

variable {kind : Kind} {inputs : List (Option Layout)} {output o : Option Layout}

/-- When all inputs are known, so is what there is to know of the output. -/
theorem gives_map_some {lays : List Layout} :
    kind.Gives (lays.map some) output ↔ kind.outputLayout lays = .ok output := by
  refine ⟨fun gives => ?_, .known rfl⟩
  generalize all : lays.map some = inputs at gives
  cases gives with
  | unknown missing => simp [← all] at missing
  | known again res => rwa [map_injective_iff.mpr (fun _ _ => some.inj) (all.trans again)]

theorem Gives.unique (a : kind.Gives inputs output) (b : kind.Gives inputs o) : output = o := by
  cases a with
  | unknown missing =>
    cases b with
    | unknown => rfl
    | known all => simp [all] at missing
  | known all res =>
    rw [all, gives_map_some, res] at b
    exact Except.ok.inj b

/-- The layout of the output is there when its shape is. -/
theorem outputLayout_eq_ok {lays : List Layout} : kind.outputLayout lays = .ok output ↔
    ∃ shape, kind.outputShape (lays.map (·.shape)) = .ok shape ∧ output = shape.map fun shape =>
      { format := kind.outputFormat (lays.map (·.format)), shape } := by
  constructor
  · intro res
    rw [outputLayout] at res
    cases shape : kind.outputShape (lays.map (·.shape)) with
    | error cause =>
      rw [shape] at res
      cases res
    | ok known =>
      rw [shape] at res
      cases res
      exact ⟨known, rfl, rfl⟩
  · rintro ⟨shape, res, rfl⟩
    rw [outputLayout, res]
    rfl

/-- What is given has no border. -/
theorem Gives.bare (gives : kind.Gives inputs output) : output.map Layout.bare = output := by
  cases gives with
  | unknown => rfl
  | known _ res =>
    obtain ⟨shape, -, rfl⟩ := outputLayout_eq_ok.mp res
    rw [Option.map_map]
    rfl

/-- A kind that passes the layout of its input on gives this layout, if it is known. -/
theorem Gives.eq_input {i : Option Layout} (gives : kind.Gives [i] output)
    (passes : ∀ layout, i = some layout → kind.outputLayout [layout] = .ok (some layout.bare)) :
    output = i.map Layout.bare := by
  cases i with
  | none => exact gives.unique (.unknown mem_cons_self)
  | some layout =>
    have all : [some layout] = [layout].map some := rfl
    exact gives.unique (.known all (passes layout rfl))

/-- A network input has the declared layout, if its layout is known. -/
theorem Gives.declared {layout : Layout} (gives : kind.Gives inputs (some layout))
    (tag : kind.tag = .inputLayout) : ∃ hd, kind = .inputLayout hd ∧ hd.bare = layout := by
  cases kind with
  | inputLayout hd =>
    cases gives with
    | known _ res => exact ⟨hd, rfl, Option.some.inj (Except.ok.inj res)⟩
  | _ => cases tag

/-- Borders of inputs do not matter. -/
theorem outputLayout_bare (kind : Kind) (lays : List Layout) :
    kind.outputLayout (lays.map Layout.bare) = kind.outputLayout lays := by
  simp only [outputLayout, List.map_map]
  rfl

theorem Gives.bared (gives : kind.Gives inputs output) :
    kind.Gives (inputs.map (Option.map Layout.bare)) output := by
  cases gives with
  | unknown missing => exact .unknown (List.mem_map.mpr ⟨none, missing, rfl⟩)
  | @known lays _ all res =>
    rw [← kind.outputLayout_bare] at res
    exact .known (by rw [all, List.map_map, List.map_map]; rfl) res

/-- The format of the output is fixed, or is the format of the first input. -/
theorem outputFormat_cases (kind : Kind) : (∃ fmt, ∀ formats, kind.outputFormat formats = fmt) ∨
      ∀ formats : List Format, kind.outputFormat formats = formats.head?.getD .bfyx := by
  cases kind with
  | inputLayout layout => exact .inl ⟨layout.format, fun _ => rfl⟩
  | data layout => exact .inl ⟨layout.format, fun _ => rfl⟩
  | reorder fmt => exact .inl ⟨fmt, fun _ => rfl⟩
  | _ => exact .inr fun _ => rfl

end Kind

/-! ## Layerings -/

/-- What matters of a node for layouts. -/
structure Layer where
  kind : Kind
  padding : Padding
  layout : Option Layout

/-- What a layer is apart from its cached layout. -/
def Layer.frame (layer : Layer) : Kind × Padding := (layer.kind, layer.padding)

/-- A layer that is not a constant buffer without a cached layout. -/
def Layer.Filled (layer : Layer) : Prop := layer.kind.tag = .data → layer.layout ≠ none

/-- A node without its cached layout. -/
def Node.unlaid (node : Node) : Node := { node with layout := none }

/-- A node as a layer. -/
def Node.layer (node : Node) : Layer := ⟨node.kind, node.padding, node.layout⟩

/-- What matters of a program for layouts. -/
@[ext] structure Layering where
  layer? : NodeKey → Option Layer
  reads : NodeKey → List NodeKey

/-- The layout that is cached for a node, without its border. -/
def Layering.known (layering : Layering) (key : NodeKey) : Option Layout :=
  ((layering.layer? key).bind (·.layout)).map Layout.bare

/-- The cached layout of a node follows from those of what it reads. -/
def Layering.SolvedAt (layering : Layering) (key : NodeKey) : Prop :=
  ∀ layer, layering.layer? key = some layer →
    layer.kind.Gives ((layering.reads key).map layering.known) (layering.known key)

namespace Program

variable {p q : Program} {k o : NodeKey} {n : Node}

/-- What matters of a program for layouts. -/
def layering (program : Program) : Layering :=
  ⟨fun key => (program.node? key).map layer, program.dependencies⟩

theorem layer?_of_node? (hk : p.node? k = some n) : p.layering.layer? k = some n.layer := by
  simp only [layering, hk, map_some]

theorem layer?_eq_some {layer : Layer} : p.layering.layer? k = some layer ↔
    ∃ n, p.node? k = some n ∧ n.layer = layer :=
  map_eq_some_iff

theorem known_of_node? (hk : p.node? k = some n) :
    p.layering.known k = n.layout.map Layout.bare := by
  rw [Layering.known, layer?_of_node? hk]
  rfl

theorem Alters.layering (alters : Alters layer p q) : q.layering = p.layering :=
  Layering.ext (funext alters.same) (funext alters.dependencies)

/-- Marks do not matter for layouts. -/
theorem layering_of_marked (hm : Marked p q) : q.layering = p.layering :=
  (hm.weaken layer fun _ => rfl).layering

theorem layering_setOutput (p : Program) (k : NodeKey) (output : Bool) :
    (p.setOutput k output).layering = p.layering := by
  refine Layering.ext (funext fun o => ?_) (funext fun o => p.dependencies_setOutput k o output)
  simp only [Program.layering, node?_setOutput]
  split
  · rw [Option.map_map]
    rfl
  · rfl

/-! ## Bringing layouts up to date -/

/-- The layout that is cached for a node. -/
def layoutOf (program : Program) (key : NodeKey) : Option Layout := (program.node? key).bind (·.layout)

theorem known_eq (p : Program) (k : NodeKey) :
    p.layering.known k = (p.layoutOf k).map Layout.bare := by
  rw [Layering.known, layering, layoutOf, Option.bind_map]
  rfl

/-- The layout of a node follows from those of what it reads, and has the border of the node. -/
def HasLayoutAt (program : Program) (layouts : NodeKey → Option Layout) (key : NodeKey) : Prop :=
  ∀ node, program.node? key = some node → ∃ output,
    node.kind.Gives ((program.dependencies key).map layouts) output ∧
      layouts key = output.map (·.withPadding node.padding)

/-- The cached layouts of live nodes are all known, or one of them is not. -/
theorem mapM_layout (p : Program) {ks : List NodeKey} (hv : ∀ k ∈ ks, p.contains k) :
    match (ks.filterMap p.node?).mapM (·.layout) with
    | none => none ∈ ks.map p.layoutOf
    | some lays => ks.map p.layoutOf = lays.map some := by
  induction ks with
  | nil => rfl
  | cons k rest ih =>
    obtain ⟨n, hk⟩ := contains_iff.mp (hv k mem_cons_self)
    have later := ih fun o mem => hv o (mem_cons_of_mem _ mem)
    have here : p.layoutOf k = n.layout := by rw [layoutOf, hk, bind_some]
    rw [filterMap_cons_some hk, mapM_cons, map_cons, here]
    cases layout : n.layout with
    | none => exact mem_cons_self
    | some layout =>
      cases lays : (rest.filterMap p.node?).mapM (·.layout) with
      | none =>
        rw [lays] at later
        exact mem_cons_of_mem _ later
      | some lays =>
        rw [lays] at later
        simp only [later]
        rfl

variable {layout : Option Layout}

/-- A layout is inferred when it follows from the cached layouts of what is read. -/
theorem inferLayout_eq_ok (hv : ∀ dep ∈ p.dependencies k, p.contains dep) :
    p.inferLayout k n = .ok layout ↔ ∃ output,
      n.kind.Gives ((p.dependencies k).map p.layoutOf) output ∧
        layout = output.map (·.withPadding n.padding) := by
  have cached := p.mapM_layout hv
  rw [inferLayout, dependencyNodes]
  cases all : ((p.dependencies k).filterMap p.node?).mapM (·.layout) with
  | none =>
    rw [all] at cached
    constructor
    · rintro ⟨⟩
      exact ⟨none, .unknown cached, rfl⟩
    · rintro ⟨output, gives, rfl⟩
      rw [gives.unique (.unknown cached)]
      rfl
  | some lays =>
    rw [all] at cached
    simp only [cached, Kind.gives_map_some, Kind.outputLayout]
    cases n.kind.outputShape (lays.map (·.shape)) with
    | error cause =>
      refine iff_of_false (fun stopped => ?_) ?_
      · cases stopped
      · rintro ⟨output, stopped, -⟩
        cases stopped
    | ok shape =>
      constructor
      · rintro ⟨⟩
        refine ⟨_, rfl, ?_⟩
        rw [Option.map_map]
        rfl
      · rintro ⟨output, ⟨⟩, rfl⟩
        rw [Option.map_map]
        rfl

/-- What follows from cached layouts follows without the borders. -/
theorem gives_known {output : Option Layout}
    (gives : n.kind.Gives ((p.dependencies k).map p.layoutOf) output) (pad : Padding) :
    n.kind.Gives ((p.dependencies k).map p.layering.known)
      ((output.map (·.withPadding pad)).map Layout.bare) := by
  have known : p.layering.known = Option.map Layout.bare ∘ p.layoutOf := funext p.known_eq
  have bare : (output.map (·.withPadding pad)).map Layout.bare = output := by
    rw [Option.map_map]
    exact gives.bare
  rw [bare, known, ← List.map_map]
  exact gives.bared

theorem layer?_withLayout (p : Program) (k o : NodeKey) (layout : Option Layout) :
    (p.modifyNode k (·.withLayout layout)).layering.layer? o =
      if o = k then (p.layering.layer? o).map fun layer =>
        { layer with layout := layout.map (·.withPadding layer.padding) }
      else p.layering.layer? o := by
  simp only [layering, node?_modifyNode]
  split
  · rw [Option.map_map, Option.map_map]
    rfl
  · rfl

theorem layoutOf_withLayout (hk : p.node? k = some n) (layout : Option Layout) (o : NodeKey) :
    (p.modifyNode k (·.withLayout layout)).layoutOf o =
      if o = k then layout.map (·.withPadding n.padding) else p.layoutOf o := by
  rw [layoutOf, node?_modifyNode]
  split
  · next e =>
    rw [e, hk]
    rfl
  · rfl

namespace HasLayoutAt

variable {lays others : NodeKey → Option Layout}

theorem congr (has : p.HasLayoutAt lays k) (reads : ∀ dep ∈ p.dependencies k, others dep = lays dep)
    (own : others k = lays k) : p.HasLayoutAt others k := by
  intro n hk
  obtain ⟨output, gives, e⟩ := has n hk
  exact ⟨output, by rwa [map_congr_left reads], own.trans e⟩

/-- Along a topological order there is only one layout for each node. -/
theorem unique {ks : List NodeKey} (topological : IsTopological p.dependencies ks)
    (hv : ∀ k ∈ ks, p.contains k) (one : ∀ k ∈ ks, p.HasLayoutAt lays k)
    (two : ∀ k ∈ ks, p.HasLayoutAt others k) : ∀ k ∈ ks, others k = lays k := by
  refine topological.induction fun k mem earlier => ?_
  obtain ⟨n, hk⟩ := contains_iff.mp (hv k mem)
  obtain ⟨output, gives, e⟩ := one k mem n hk
  obtain ⟨other, givesOther, otherEq⟩ := two k mem n hk
  rw [map_congr_left earlier] at givesOther
  rw [otherEq, e, givesOther.unique gives]

/-- A layout that is brought up to date follows from those of what is read. -/
theorem of_inferLayout (hv : ∀ dep ∈ p.dependencies k, p.contains dep) (hk : p.node? k = some n)
    (apart : k ∉ p.dependencies k) (inferred : p.inferLayout k n = .ok layout) :
    p.HasLayoutAt (p.modifyNode k (·.withLayout layout)).layoutOf k := by
  intro again found
  cases hk.symm.trans found
  have same : ∀ dep ∈ p.dependencies k,
      (p.modifyNode k (·.withLayout layout)).layoutOf dep = p.layoutOf dep := fun dep mem => by
    rw [layoutOf_withLayout hk, if_neg (ne_of_mem_of_not_mem mem apart)]
  obtain ⟨output, gives, rfl⟩ := (inferLayout_eq_ok hv).mp inferred
  refine ⟨output, by rwa [map_congr_left same], ?_⟩
  rw [layoutOf_withLayout hk, if_pos rfl, Option.map_map]
  rfl

/-- Cached layouts do not matter for what follows from what. -/
theorem of_unlaid (has : p.HasLayoutAt lays k) (deps : q.dependencies k = p.dependencies k)
    (same : (q.node? k).map unlaid = (p.node? k).map unlaid) : q.HasLayoutAt lays k := by
  intro n hk
  rw [hk, map_some] at same
  obtain ⟨orig, found, e⟩ := map_eq_some_iff.mp same.symm
  have kind : orig.unlaid.kind = n.unlaid.kind := congrArg kind e
  have padding : orig.unlaid.padding = n.unlaid.padding := congrArg padding e
  show ∃ output, n.unlaid.kind.Gives _ output ∧ lays k = output.map (·.withPadding n.unlaid.padding)
  rw [deps, ← kind, ← padding]
  exact has orig found

end HasLayoutAt

/-- Every layout follows from those of what is read. -/
def HasLayouts (program : Program) (layouts : NodeKey → Option Layout) : Prop :=
  ∀ key, program.HasLayoutAt layouts key

/-- **Layouts that are brought up to date in a complete order follow from each other.** Where a word
overflows, there are no layouts that do. -/
theorem ensures_refreshLayouts_exact (hc : p.HasCompleteOrder) : Ensures Edit.refreshLayouts p
    (fun _ q => Alters unlaid p q ∧ p.HasLayouts q.layoutOf)
    fun fault => fault.IsOverflow ∧ ∀ lays, ¬ p.HasLayouts lays := by
  simp only [Edit.refreshLayouts, ensures_bind, ensures_get]
  refine (ensures_forM (fun rest st => Alters unlaid p st ∧ ∃ done, p.order.toList = done ++ rest ∧
    IsTopological p.dependencies done ∧ ∀ k ∈ done, p.HasLayoutAt st.layoutOf k) ?_
    ⟨.refl p, [], rfl, .nil _, by simp⟩).weaken ?_
  · rintro k rest st ⟨pre, done, split, topological, has⟩
    have whole : IsTopological p.dependencies (done ++ k :: rest) := split ▸ hc.isTopological
    have fresh : k ∉ done := fun mem =>
      (nodup_append.mp whole.nodup).2.2 k mem k mem_cons_self rfl
    have read : ∀ dep ∈ p.dependencies k, dep ∈ done := fun dep => whole.dependency_mem_of_append
    have live : ∀ o ∈ done ++ k :: rest, p.contains o := fun o mem =>
      (hc.complete o).mp (split ▸ mem)
    have deps := pre.dependencies k
    have reads : ∀ dep ∈ st.dependencies k, st.contains dep := fun dep mem =>
      (pre.contains dep).mpr (live dep (mem_append_left _ (read dep (deps ▸ mem))))
    obtain ⟨n, hk⟩ := contains_iff.mp ((pre.contains k).mpr (live k (by simp)))
    rw [ensures_discard]
    refine (ensures_refreshLayout_exact hk).mono ?_ ?_
    · rintro _ _ ⟨layout, inferred, rfl⟩
      have other : ∀ o ∈ done, (st.modifyNode k (·.withLayout layout)).layoutOf o = st.layoutOf o := by
        intro o mem
        rw [layoutOf_withLayout hk, if_neg (ne_of_mem_of_not_mem mem fresh)]
      refine ⟨pre.trans (.modifyNode st k fun _ => rfl), done ++ [k], by simp [split],
        topological.snoc fresh read, fun o mem => ?_⟩
      rcases mem_append.mp mem with mem | mem
      · exact (has o mem).congr (fun dep hr => other dep ((topological.before o mem dep hr).subset
          mem_cons_self)) (other o mem)
      · cases mem_singleton.mp mem
        have here := HasLayoutAt.of_inferLayout reads hk (fun hr => fresh (read k (deps ▸ hr))) inferred
        exact here.of_unlaid deps.symm (pre.same k).symm
    · rintro fault ⟨overflow, stopped⟩
      refine ⟨overflow, fun lays all => ?_⟩
      -- Any layouts are the cached ones where these have been dealt with, so that there is an answer.
      have equal := HasLayoutAt.unique topological (fun o mem => live o (mem_append_left _ mem)) has
        fun o _ => all o
      obtain ⟨output, gives, -⟩ := (all k).of_unlaid deps (pre.same k) n hk
      rw [map_congr_left fun dep mem => equal dep (read dep (deps ▸ mem))] at gives
      have inferred := (inferLayout_eq_ok reads).mpr ⟨output, gives, rfl⟩
      cases stopped.symm.trans inferred
  · rintro _ q ⟨alters, done, split, -, has⟩
    refine ⟨alters, fun k n hk => ?_⟩
    have hl := (hc.complete k).mpr (contains_of_node? hk)
    rw [split, append_nil] at hl
    exact has k hl n hk

theorem ensures_refreshLayouts_solved (hs : p.Sound) :
    Ensures Edit.refreshLayouts p (fun _ q => Annotated p q ∧
      (∀ k, (q.layering.layer? k).map Layer.frame =
        (p.layering.layer? k).map Layer.frame) ∧ ∀ k, q.layering.SolvedAt k)
      Fault.SparesProgram := by
  refine (ensures_refreshLayouts_exact hs.complete).mono ?_ fun _ h =>
    Fault.not_blamesProgram_of_overflow h.1
  rintro _ q ⟨alters, has⟩
  refine ⟨alters.weaken core fun _ => rfl, fun k => ?_, fun k layer hk => ?_⟩
  · rw [layering, layering, Option.map_map, Option.map_map]
    exact (alters.weaken (Layer.frame ∘ layer) fun _ => rfl).same k
  · obtain ⟨n, hn, rfl⟩ := layer?_eq_some.mp hk
    obtain ⟨output, gives, e⟩ := (has k).of_unlaid (alters.dependencies k) (alters.same k) n hn
    have known := gives_known gives n.padding
    rwa [← e, ← known_eq] at known

end Program

end LayerGraph
