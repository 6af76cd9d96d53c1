import LayerGraph.Proofs.Network.Conflicts
import LayerGraph.Proofs.Network.Folding
import LayerGraph.Proofs.Network.Formats

/-!
# Builds that end alike

Two builds of programs with the same network are compared step by step. Their steps end alike when
both finish and what they leave behind is related, or when both fail (`Alike`). One of them may fail
alone only because a word overflows: whether some window asks for another size is found out one window
after the other, and the first one that does ends the search, so an overflow behind it is not noticed.

A step that makes the same of a network ends alike (`Build.alike_of_yields`). What the backend answers
must not depend on anything but ids (`Backend.SeesOnlyIds`).
-/

namespace LayerGraph

open List Option

section Alike

variable {σ α β γ δ : Type} {a : EStateM Fault σ α} {b : EStateM Fault σ β} {st o : σ}
  {related wanted : α → σ → β → σ → Prop}

/-- Two steps finish with related outcomes, or both fail; one alone fails only with an overflow. -/
def Alike (first : EStateM Fault σ α) (state : σ) (second : EStateM Fault σ β) (other : σ)
    (related : α → σ → β → σ → Prop) : Prop :=
  match first state, second other with
  | .ok value next, .ok another last => related value next another last
  | .ok _ _, .error fault _ => fault = .aborted .overflow
  | .error fault _, .ok _ _ => fault = .aborted .overflow
  | .error _ _, .error _ _ => True

theorem Alike.mono (alike : Alike a st b o related)
    (weaker : ∀ v next m last, related v next m last →
      wanted v next m last) : Alike a st b o wanted := by
  revert alike
  rw [Alike, Alike]
  cases a st with
  | ok v next =>
    cases b o with
    | ok m last => exact weaker v next m last
    | error fault last => exact id
  | error fault next =>
    cases b o with
    | ok m last => exact id
    | error fault last => exact id

/-- What each step ensures on its own can be added. -/
theorem Alike.and {done : α → σ → Prop} {doneToo : β → σ → Prop} {failed failedToo : Fault → Prop}
    (alike : Alike a st b o related) (one : Ensures a st done failed)
    (two : Ensures b o doneToo failedToo) : Alike a st b o fun v next m last =>
      related v next m last ∧ done v next ∧ doneToo m last := by
  revert alike one two
  rw [Alike, Alike, Ensures, Ensures]
  cases a st with
  | ok v next =>
    cases b o with
    | ok m last => exact fun alike one two => ⟨alike, one, two⟩
    | error fault last => exact fun alike _ _ => alike
  | error fault next =>
    cases b o with
    | ok m last => exact fun alike _ _ => alike
    | error fault last => exact fun alike _ _ => alike

/-- Steps end alike when neither can finish while the other one fails. -/
theorem alike_of_ensures {done : α → σ → Prop} {doneToo : β → σ → Prop} {failed failedToo : Prop}
    (one : Ensures a st done fun _ => failed) (two : Ensures b o doneToo fun _ => failedToo)
    (neither : ∀ v next, done v next → ¬ failedToo)
    (neitherToo : ∀ m last, doneToo m last → ¬ failed)
    (both : ∀ v next m last, done v next → doneToo m last →
      related v next m last) : Alike a st b o related := by
  revert one two
  rw [Alike, Ensures, Ensures]
  cases a st with
  | ok v next =>
    cases b o with
    | ok m last => exact both v next m last
    | error fault last => exact fun one two => absurd two (neither v next one)
  | error fault next =>
    cases b o with
    | ok m last => exact fun one two => absurd one (neitherToo m last two)
    | error fault last => exact fun _ _ => trivial

theorem alike_pure {v : α} {m : β} (h : related v st m o) :
    Alike (pure v) st (pure m) o related := h

/-- Steps that end alike, followed by steps that end alike from what is related, end alike. -/
theorem alike_bind {mid : γ → σ → δ → σ → Prop} {pre : EStateM Fault σ γ}
    {beforeToo : EStateM Fault σ δ} {after : γ → EStateM Fault σ α} {afterToo : δ → EStateM Fault σ β}
    (alike : Alike pre st beforeToo o mid) (later : ∀ v next m last, mid v next m last →
      Alike (after v) next (afterToo m) last related) :
    Alike (pre >>= after) st (beforeToo >>= afterToo) o related := by
  revert alike
  simp only [Alike, bind, EStateM.bind] at later ⊢
  cases pre st with
  | ok v next =>
    cases beforeToo o with
    | ok m last => exact later v next m last
    | error fault last =>
      dsimp only
      cases after v next with
      | ok _ _ => exact id
      | error _ _ => exact fun _ => trivial
  | error fault next =>
    cases beforeToo o with
    | ok m last =>
      dsimp only
      cases afterToo m last with
      | ok _ _ => exact id
      | error _ _ => exact fun _ => trivial
    | error fault last => exact id

theorem alike_checked {res : Checked α} {resultToo : Checked β} (overflow : res.OnlyOverflows)
    (overflowToo : resultToo.OnlyOverflows) (both : ∀ v m, res = .ok v → resultToo = .ok m →
      related v st m o) : Alike res.lift st resultToo.lift o related := by
  cases res with
  | ok v =>
    cases resultToo with
    | ok m => exact both v m rfl rfl
    | error cause => exact congrArg Fault.aborted (overflowToo cause rfl)
  | error cause =>
    cases resultToo with
    | ok m => exact congrArg Fault.aborted (overflow cause rfl)
    | error m => trivial

theorem alike_error {res : Except Error α} {resultToo : Except Error β}
    (e : (∃ v, res = .ok v) ↔ ∃ m, resultToo = .ok m) :
    Alike (Error.lift res) st (Error.lift resultToo) o fun v next m last =>
      (res = .ok v ∧ next = st) ∧ resultToo = .ok m ∧ last = o := by
  cases res with
  | ok v =>
    obtain ⟨m, rfl⟩ := e.mp ⟨v, rfl⟩
    exact ⟨⟨rfl, rfl⟩, rfl, rfl⟩
  | error error =>
    cases resultToo with
    | ok m =>
      obtain ⟨v, isOk⟩ := e.mpr ⟨m, rfl⟩
      cases isOk
    | error error => trivial

variable {ι : Type}

/-- Rounds that end alike from related states make loops that do. -/
theorem alike_forM {step stepToo : ι → EStateM Fault σ PUnit} {related : σ → σ → Prop} {xs : List ι}
    (round : ∀ x ∈ xs, ∀ st o, related st o → Alike (step x) st (stepToo x) o fun _ next _ last =>
    related next last) (start : related st o) : Alike (xs.forM step) st (xs.forM stepToo) o fun _ next _
    last => related next last := by
  induction xs generalizing st o with
  | nil => exact start
  | cons x rest ih =>
    rw [List.forM, List.forM]
    apply alike_bind (round x mem_cons_self st o start)
    intro _ next _ last h
    exact ih (fun o mem => round o (mem_cons_of_mem x mem)) h

/-- A loop in two parts ends alike when each part does. -/
theorem alike_forM_append {step stepToo : ι → EStateM Fault σ PUnit} {mid : σ → σ → Prop} {related :
    PUnit → σ → PUnit → σ → Prop} {front back : List ι} (alike : Alike (front.forM step) st (front.forM
    stepToo) o fun _ next _ last => mid next last) (later : ∀ next last, mid next last → Alike
    (back.forM step) next (back.forM stepToo) last related) : Alike ((front ++ back).forM step) st
    ((front ++ back).forM stepToo) o related := by
  have cut : ∀ step : ι → EStateM Fault σ PUnit, (front ++ back).forM step = front.forM step >>= fun _ =>
      back.forM step := fun step => forM_append
  rw [cut, cut]
  exact alike_bind alike fun _ next _ last h => later next last h

theorem alike_modify {change changeToo : σ → σ} {related : PUnit → σ → PUnit → σ → Prop}
    (h : related ⟨⟩ (change st) ⟨⟩ (changeToo o)) :
    Alike (modify change) st (modify changeToo) o related := h

end Alike

/-- The answers of a backend depend on nothing but the ids of nodes. -/
structure Backend.SeesOnlyIds (backend : Backend) : Prop where
  compile : ∀ calls callsToo (program other : Program) (key keyToo : NodeKey),
    (∀ id, other.hasId id = program.hasId id) → other.idOf keyToo = program.idOf key →
    backend.answer callsToo (.compile other keyToo) = backend.answer calls (.compile program key)
  fold : ∀ calls callsToo (program other : Program), (∀ id, other.hasId id = program.hasId id) →
    backend.answer callsToo (.fold other) = backend.answer calls (.fold program)

/-- Whatever has been accepted before, the backend accepts a node. -/
def Backend.Accepts (backend : Backend) (program : Program) (key : NodeKey) : Prop :=
  ∀ calls, backend.answer calls (.compile program key) = .ok ()

/-- The programs of two sessions have the same network, and explicit output sizes are honoured in both
or in neither. -/
structure Session.Matches (session other : Session) : Prop where
  network : other.program.network = session.program.network
  handling : other.outputSizeHandling = session.outputSizeHandling

/-- Two sessions in the same surroundings match. The backend sees only ids, and no listings are
written. -/
structure Session.Twins (session other : Session) : Prop extends Session.Matches session other where
  surroundings : other.surroundings = session.surroundings
  sees : session.surroundings.backend.SeesOnlyIds
  options : other.program.options = session.program.options
  silent : session.program.options.dumpDirectory = none

/-- Twins that have been set up. -/
structure Session.SoundTwins (session other : Session) : Prop extends Session.Twins session other where
  sound : session.program.Sound
  soundToo : other.program.Sound

theorem Session.SoundTwins.advance {s o next last : Session} (tw : s.SoundTwins o) (adv :
    s.Advances next) (advancesToo : o.Advances last) (e : next.Matches last) : next.SoundTwins last where
  toMatches := e
  surroundings := by
    rw [adv.surroundings, advancesToo.surroundings, tw.surroundings]
  sees := adv.surroundings ▸ tw.sees
  options := by
    rw [adv.rewrites.options, advancesToo.rewrites.options, tw.options]
  silent := by rw [adv.rewrites.options, tw.silent]
  sound := adv.rewrites.sound tw.sound
  soundToo := advancesToo.rewrites.sound tw.soundToo

namespace Program

variable {p q : Program}

/-! ## Output sizes -/

/-- Whether a node asks for an output size other than the natural one, given what it reads first. -/
def sizeAsked (node : Node) (source : Option Node) : Checked Bool :=
  match node.kind.window?, source.bind (·.layout) with
  | some (window, some asked), some layout => do
    let natural ← window.outputSize layout.shape.spatial
    return natural != asked
  | _, _ => return false

variable {k place : NodeKey} {n : Node} {ks : List NodeKey} {asks : Bool}

theorem asksForOtherSize_eq (hk : p.node? k = some n) : p.asksForOtherSize k = sizeAsked n
    ((p.dependency? k 0).bind p.node?) := by
  rw [asksForOtherSize, nodeAt_of_node? hk]
  rfl

/-- Nodes with the same id have the same cell. -/
theorem cellAt_of_network {m : Node} (wf : p.Consistent) (consistentToo : q.Consistent) (e : q.network =
    p.network) (hk : p.node? k = some n) (foundToo : q.node? place = some m) (sameId : m.id = n.id) :
    q.cellAt place m = p.cellAt k n := by
  have hc := consistentToo.cell?_of_node? foundToo
  rw [e, sameId, wf.cell?_of_node? hk] at hc
  exact (some.inj hc).symm

/-- What a node asks for can be told from the network. -/
theorem asksForOtherSize_congr (wf : p.Consistent) (o : q.Consistent) (e : q.network = p.network) (hv :
    p.contains k) (liveToo : q.contains place) (sameId : q.idOf place = p.idOf k) : q.asksForOtherSize
    place = p.asksForOtherSize k := by
  obtain ⟨n, hk⟩ := contains_iff.mp hv
  obtain ⟨m, foundToo⟩ := contains_iff.mp liveToo
  rw [idOf_of_node? hk, idOf_of_node? foundToo] at sameId
  have cells := cellAt_of_network wf o e hk foundToo sameId
  have sources := o.first_cellAt place m
  rw [e, cells, wf.first_cellAt] at sources
  have blind : ∀ (p : Program) (n : Node) (src : Option Node),
      sizeAsked (p.shown n) (src.map p.shown) = sizeAsked n src := by
    intro p n src
    cases src with
    | none => rfl
    | some src => rfl
  rw [asksForOtherSize_eq hk, asksForOtherSize_eq foundToo, ← blind q m, ← sources, ← blind p n]
  exact congrArg (fun c : Cell => sizeAsked c.toNode _) cells

theorem cases_of_anyAsksForOtherSize (res : p.anyAsksForOtherSize ks = .ok asks) : if asks then ∃ k ∈
    ks, p.asksForOtherSize k = .ok true else ∀ k ∈ ks, p.asksForOtherSize k = .ok false := by
  induction ks with
  | nil =>
    cases res
    exact fun _ mem => absurd mem not_mem_nil
  | cons k rest ih =>
    rw [anyAsksForOtherSize, bind_eq_ok] at res
    obtain ⟨a, asked, later⟩ := res
    cases a with
    | true =>
      cases later
      exact ⟨k, mem_cons_self, asked⟩
    | false =>
      have hk := ih later
      cases asks with
      | true =>
        obtain ⟨o, mem, askedOther⟩ := hk
        exact ⟨o, mem_cons_of_mem k mem, askedOther⟩
      | false =>
        intro o mem
        rcases mem_cons.mp mem with rfl | inRest
        · exact asked
        · exact hk o inRest

/-- When both searches come to an end, they find the same. -/
theorem Sound.anyAsks_congr (hs : p.Sound) (o : q.Sound) (e : q.network = p.network) {asksToo : Bool}
    (res : p.anyAsksForOtherSize p.order.toList = .ok asks) (resultToo : q.anyAsksForOtherSize
    q.order.toList = .ok asksToo) (hk : asks = true) : asksToo = true := by
  have one := cases_of_anyAsksForOtherSize res
  have two := cases_of_anyAsksForOtherSize resultToo
  rw [hk, if_pos rfl] at one
  obtain ⟨k, mem, asked⟩ := one
  have hv := hs.consistent.order_live k mem
  have hl : p.idOf k ∈ q.ids := by
    rw [o.mem_ids, e, ← hs.mem_ids]
    exact List.mem_map_of_mem mem
  obtain ⟨place, memberToo, sameId⟩ := List.mem_map.mp hl
  cases asksToo with
  | true => rfl
  | false =>
    have quiet := two place memberToo
    rw [asksForOtherSize_congr hs.consistent o.consistent e hv
      (o.consistent.order_live place memberToo) sameId, asked] at quiet
    cases quiet

/-! ## Ids of nodes and inputs -/

theorem Consistent.count_map_idOf (wf : p.Consistent) (there : p.contains k) (hv : ∀ o ∈ ks,
    p.contains o) : (ks.map p.idOf).count (p.idOf k) = ks.count k := by
  induction ks with
  | nil => rfl
  | cons a rest ih =>
    have e : p.idOf a = p.idOf k ↔ a = k := wf.idOf_inj (hv a mem_cons_self) there
    rw [map_cons, count_cons, count_cons, ih fun o mem => hv o (mem_cons_of_mem a mem)]
    simp only [beq_iff_eq, e]

/-- How often an id is listed among the inputs can be told from the network. -/
theorem Consistent.count_input_ids (wf : p.Consistent) (id : String) :
    (p.inputs.map p.idOf).count id = ((p.network.cell? id).map Cell.listed).getD 0 := by
  cases hc : p.network.cell? id with
  | none =>
    apply count_eq_zero_of_not_mem
    intro hl
    obtain ⟨k, mem, rfl⟩ := List.mem_map.mp hl
    obtain ⟨n, hk⟩ := contains_iff.mp (wf.inputs_live k mem)
    rw [idOf_of_node? hk, wf.cell?_of_node? hk] at hc
    cases hc
  | some c =>
    obtain ⟨k, n, hk, named, rfl⟩ := wf.exists_node_of_cell? hc
    rw [← named, ← idOf_of_node? hk, wf.count_map_idOf (contains_of_node? hk) wf.inputs_live]
    rfl

theorem perm_input_ids (wf : p.Consistent) (o : q.Consistent) (e : q.network = p.network) :
    (p.inputs.map p.idOf).Perm (q.inputs.map q.idOf) := by
  rw [perm_iff_count]
  intro id
  rw [wf.count_input_ids, o.count_input_ids, e]

theorem hasId_congr (wf : p.Consistent) (o : q.Consistent)
    (e : q.network = p.network) (id : String) : q.hasId id = p.hasId id := by
  rw [Bool.eq_iff_iff, o.hasId_iff_has, wf.hasId_iff_has, e]

end Program

namespace Build

open Program

variable {s o : Session}

theorem alike_program {α β : Type} {after : Program → Build α} {afterToo : Program → Build β}
    {related : α → Session → β → Session → Prop} :
    Alike (program >>= after) s (program >>= afterToo) o related ↔
      Alike (after s.program) s (afterToo o.program) o related := Iff.rfl

/-- A step ends alike from two sessions and leaves related ones behind. -/
abbrev EndsAlike (step : Build Unit) (session other : Session)
    (related : Session → Session → Prop) : Prop :=
  Alike step session step other fun _ next _ last => related next last

/-- Steps that make the same of a network end alike. -/
theorem alike_of_yields {step stepToo : Build Unit} {res resultToo : Option Network}
    (handling : o.outputSizeHandling = s.outputSizeHandling)
    (one : Yields step s res) (two : Yields stepToo o resultToo) (e : res = resultToo) :
    Alike step s stepToo o fun _ next _ last => next.Matches last := by
  subst e
  apply alike_of_ensures one two
  · intro _ next h failed
    rw [h.1] at failed
    cases failed
  · intro _ last h failed
    rw [h.1] at failed
    cases failed
  · intro _ next _ last h givenToo
    exact ⟨some.inj (givenToo.1.symm.trans h.1), by rw [givenToo.2, handling, h.2]⟩

section Bodies

variable (tw : s.SoundTwins o)
include tw

theorem run_derive_eq (rule : Rule) : Network.run (Network.derive rule) s.program.ids s.program.network =
    Network.run (Network.derive rule) o.program.ids o.program.network :=
  tw.sound.run_derive_eq tw.soundToo tw.network rule

theorem alike_markNodes : EndsAlike markNodes s o Session.Matches :=
  alike_of_yields tw.handling (yields_markNodes tw.sound) (yields_markNodes tw.soundToo)
    (run_derive_eq tw _)

theorem alike_trim : EndsAlike trim s o Session.Matches := by
  obtain ⟨ids, nd, mem, yields⟩ := yields_trim tw.sound
  obtain ⟨others, nodupToo, memToo, yieldsToo⟩ := yields_trim tw.soundToo
  have perm : ids.Perm others := (perm_ext_iff_of_nodup nd nodupToo).mpr fun id => by
    rw [mem, memToo, tw.network]
  apply alike_of_yields tw.handling yields yieldsToo
  rw [Network.run_remove_eq perm, tw.network]

theorem alike_fuseActivations : EndsAlike fuseActivations s o Session.Matches :=
  alike_of_yields tw.handling (yields_fuseActivations tw.sound)
    (yields_fuseActivations tw.soundToo)
    (tw.sound.run_shorten_eq tw.soundToo tw.network Network.stable_fusedActivation)

theorem alike_dropReorders : EndsAlike dropReorders s o Session.Matches :=
  alike_of_yields tw.handling (yields_dropReorders tw.sound) (yields_dropReorders tw.soundToo)
    (tw.sound.run_shorten_eq tw.soundToo tw.network Network.stable_redundantReorder)

theorem alike_prepareWindows : EndsAlike prepareWindows s o Session.Matches := by
  apply alike_of_yields tw.handling (yields_prepareWindows tw.sound)
    (yields_prepareWindows tw.soundToo)
  rw [Network.run_makeRoom_eq tw.sound.consistent.closed (fun id => tw.sound.mem_ids.mp)
    (tw.sound.perm_ids tw.soundToo tw.network), tw.network, tw.handling]

theorem alike_shareBuffers : EndsAlike shareBuffers s o Session.Matches :=
  alike_of_yields tw.handling (yields_shareBuffers tw.sound)
    (yields_shareBuffers tw.soundToo) (run_derive_eq tw _)

theorem alike_refreshLayouts : EndsAlike (edit Edit.refreshLayouts) s o Session.Matches :=
  alike_of_yields tw.handling (yields_refreshLayouts tw.sound)
    (yields_refreshLayouts tw.soundToo) (run_derive_eq tw _)

theorem alike_expose : Alike (edit (s.program.order.toList.forM Edit.expose)) s (edit
    (o.program.order.toList.forM Edit.expose)) o fun _ next _ last => next.Matches last :=
  alike_of_yields tw.handling (yields_expose tw.sound) (yields_expose tw.soundToo)
    (run_derive_eq tw _)

theorem alike_orderBreadthFirst : EndsAlike (modifyProgram (·.orderBreadthFirst)) s o Session.Matches :=
  alike_modify ⟨tw.network, tw.handling⟩

/-- Conflicts are noted alike, when they are shown. -/
theorem alike_computeConflicts : EndsAlike computeConflicts s o Session.Matches := by
  have computes : ∀ {s : Session}, s.program.Sound → Ensures computeConflicts s (fun _ next =>
        (if s.program.options.memoryStrategy = .outOfOrderAware
          then s.program.network.Notes next.program.network
          else next.program.network = s.program.network) ∧
        next.outputSizeHandling = s.outputSizeHandling) fun _ => False := by
    intro s hs
    rw [computeConflicts, ensures_bind, ensures_program, ensures_edit]
    exact hs.computeConflicts.weaken fun _ _ hc => ⟨hc, rfl⟩
  apply alike_of_ensures (computes tw.sound) (computes tw.soundToo) (fun _ _ _ => id)
    (fun _ _ _ => id)
  intro _ next _ last hc computedToo
  obtain ⟨notes, handling⟩ := hc
  obtain ⟨notesToo, handlingToo⟩ := computedToo
  rw [tw.options, tw.network] at notesToo
  refine ⟨?_, by rw [handlingToo, tw.handling, handling]⟩
  split at notes
  · next aware =>
    rw [if_pos aware] at notesToo
    exact notesToo.unique notes
  · next unaware =>
    rw [if_neg unaware] at notesToo
    rw [notesToo, notes]

/-- Steps that advance both sessions and end alike leave twins behind. -/
theorem alike_advance {step stepToo : Build Unit} {failed failedToo : Fault → Prop} (alike : Alike step s
    stepToo o fun _ next _ last => next.Matches last) (one : Ensures step s (fun _ next => s.Advances
    next) failed) (two : Ensures stepToo o (fun _ last => o.Advances last) failedToo) : Alike step s
    stepToo o fun _ next _ last => next.SoundTwins last :=
  (alike.and one two).mono fun _ _ _ _ h => tw.advance h.2.1 h.2.2 h.1

/-- The layouts are brought up to date alike, and in a debug build the same nodes become outputs. -/
theorem alike_cleanUp : EndsAlike cleanUp s o Session.Matches := by
  rw [EndsAlike, cleanUp]
  apply alike_bind (alike_advance tw (alike_refreshLayouts tw)
    (ensures_edit_refreshLayouts tw.sound) (ensures_edit_refreshLayouts tw.soundToo))
  intro _ next _ last refreshed
  rw [alike_program, refreshed.options]
  split
  · exact alike_expose refreshed
  · exact alike_pure refreshed.toMatches

/-- Both searches for windows that ask for another size find the same, if they come to an end. -/
theorem alike_decideOutputSizes : EndsAlike decideOutputSizes s o Session.Matches := by
  rw [EndsAlike, decideOutputSizes, alike_program, tw.options]
  cases s.program.options.outputSizeHandling with
  | some forced => exact alike_modify ⟨tw.network, rfl⟩
  | none =>
    have hk : Alike (s.program.anyAsksForOtherSize s.program.order.toList).lift
        s (o.program.anyAsksForOtherSize o.program.order.toList).lift o
        fun asks next asksToo last => asksToo = asks ∧ next = s ∧ last = o := by
      apply alike_checked (onlyOverflows_anyAsksForOtherSize tw.sound.consistent.order_live)
        (onlyOverflows_anyAsksForOtherSize tw.soundToo.consistent.order_live)
      intro asks asksToo res resultToo
      have there := tw.sound.anyAsks_congr tw.soundToo tw.network res resultToo
      have back := tw.soundToo.anyAsks_congr tw.sound tw.network.symm resultToo res
      exact ⟨Bool.eq_iff_iff.mpr ⟨back, there⟩, rfl, rfl⟩
    apply alike_bind hk
    rintro handling next m last ⟨rfl, rfl, rfl⟩
    exact alike_modify ⟨tw.network, rfl⟩

end Bodies

/-! ## Lowering -/

/-- A call ends as the backend answers. -/
theorem ensures_call_answered (req : BackendCall) : Ensures (call req) s
      (fun _ next => s.surroundings.backend.answer s.trace.calls req = .ok () ∧
        next = { s with
          trace := { s.trace with calls := s.trace.calls ++ [req] } })
      (fun fault => s.surroundings.backend.answer s.trace.calls req = .error fault) := by
  simp only [call, ensures_bind, ensures_get]
  split
  · next accepted => exact ⟨accepted, rfl⟩
  · next fault refused => exact refused

/-- Nodes are handed over when the backend accepts all of them, and only then. -/
theorem ensures_compileNodes_iff (sees : s.surroundings.backend.SeesOnlyIds) (ks : List NodeKey) :
    Ensures (ks.forM compileNode) s (fun _ next => next.program = s.program ∧
        next.outputSizeHandling = s.outputSizeHandling ∧
        ∀ k ∈ ks, s.surroundings.backend.Accepts s.program k)
      (fun _ => ∃ k ∈ ks, ¬ s.surroundings.backend.Accepts s.program k) := by
  induction ks generalizing s with
  | nil => exact ⟨rfl, rfl, fun _ mem => absurd mem not_mem_nil⟩
  | cons k rest ih =>
    rw [List.forM, ensures_bind]
    simp only [compileNode, ensures_bind, ensures_program]
    refine (ensures_call_answered _).mono ?_ ?_
    · rintro _ next ⟨accepted, rfl⟩
      have accepts : s.surroundings.backend.Accepts s.program k := fun calls => by
        rw [sees.compile s.trace.calls calls _ _ k k (fun _ => rfl) rfl, accepted]
      refine (@ih { s with trace := { s.trace with
        calls := s.trace.calls ++ [.compile s.program k] } } sees).mono ?_ ?_
      · intro _ last later
        exact ⟨later.1, later.2.1, forall_mem_cons.mpr ⟨accepts, later.2.2⟩⟩
      · rintro _ ⟨o, mem, refused⟩
        exact ⟨o, mem_cons_of_mem k mem, refused⟩
    · intro fault refused
      refine ⟨k, mem_cons_self, fun accepts => ?_⟩
      rw [accepts] at refused
      cases refused

theorem alike_compile (tw : s.SoundTwins o) {ks keysToo : List NodeKey}
    (sameIds : ∀ id, id ∈ keysToo.map o.program.idOf ↔ id ∈ ks.map s.program.idOf) :
    Alike (ks.forM compileNode) s (keysToo.forM compileNode) o
      fun _ next _ last => next.Matches last := by
  have sees := tw.sees
  have seesToo := sees
  rw [← tw.surroundings] at seesToo
  have accepts : ∀ {k place : NodeKey}, o.program.idOf place = s.program.idOf k →
      (o.surroundings.backend.Accepts o.program place ↔ s.surroundings.backend.Accepts s.program k) := by
    intro k place e
    rw [tw.surroundings]
    have hasIds := hasId_congr tw.sound.consistent tw.soundToo.consistent tw.network
    constructor
    · intro h calls
      rw [← sees.compile calls calls _ _ k place hasIds e, h]
    · intro h calls
      rw [sees.compile calls calls _ _ k place hasIds e, h]
  apply alike_of_ensures (ensures_compileNodes_iff sees ks) (ensures_compileNodes_iff seesToo keysToo)
  · rintro _ next done ⟨place, mem, refused⟩
    obtain ⟨k, hl, e⟩ := List.mem_map.mp ((sameIds _).mp (List.mem_map_of_mem mem))
    exact refused ((accepts e.symm).mpr (done.2.2 k hl))
  · rintro _ last done ⟨k, mem, refused⟩
    obtain ⟨place, hl, e⟩ := List.mem_map.mp ((sameIds _).mpr (List.mem_map_of_mem mem))
    exact refused ((accepts e).mp (done.2.2 place hl))
  · intro _ next _ last done doneToo
    exact ⟨by rw [done.1, doneToo.1, tw.network], by rw [doneToo.2.1, tw.handling, done.2.1]⟩

/-- Bringing the layouts up to date leaves the ids as they are. -/
theorem ensures_edit_refreshLayouts_ids (hs : s.program.Sound) :
    Ensures (edit Edit.refreshLayouts) s
      (fun _ next => s.Advances next ∧ next.program.idOf = s.program.idOf)
      s.surroundings.Excuses := by
  apply (ensures_edit_refreshLayouts hs).and
  rw [ensures_edit]
  exact (ensures_refreshLayouts hs.consistent).mono fun _ _ ann => idOf_of_alters ann.label

/-- Inputs get their reorders as in the network. -/
theorem ensures_edit_reorderEach (hs : s.program.Sound) :
    Ensures (edit (Edit.reorderEach s.program.inputs)) s (fun ins next => s.Advances next ∧
        Grows s.program next.program ins ∧ (∀ new ∈ ins, ∃ i ∈ s.program.inputs, ∃ fmt,
          next.program.idOf new = reorderId (s.program.idOf i) fmt) ∧
        Network.run Network.reorderInput (s.program.inputs.map s.program.idOf)
          s.program.network = some next.program.network ∧
        next.outputSizeHandling = s.outputSizeHandling) (fun _ => Network.run Network.reorderInput
        (s.program.inputs.map s.program.idOf) s.program.network = none) := by
  have adv := ensures_edit_advances (ensures_reorderEach hs hs.consistent.inputs_live)
  rw [ensures_edit] at adv ⊢
  exact ((hs.reorderEach hs.consistent.inputs_live).and adv).weaken
    fun _ _ h => ⟨h.2, h.1.2.1, h.1.2.2.1, h.1.2.2.2, rfl⟩

/-- Inputs get the same reorders, and the backend is handed the same ones. -/
theorem alike_reorderInputs (tw : s.SoundTwins o) :
    EndsAlike reorderInputs s o Session.Matches := by
  have sameRun : Network.run Network.reorderInput (o.program.inputs.map o.program.idOf) o.program.network
      = Network.run Network.reorderInput (s.program.inputs.map s.program.idOf) s.program.network := by
    rw [tw.network]
    refine (Network.run_reorderInput_eq tw.sound.consistent.closed ?_ (perm_input_ids
      tw.sound.consistent tw.soundToo.consistent tw.network)).symm
    intro id hl
    obtain ⟨k, mem, rfl⟩ := List.mem_map.mp hl
    exact tw.sound.consistent.has_iff_contains.mpr ⟨k, tw.sound.consistent.inputs_live k mem, rfl⟩
  rw [EndsAlike, reorderInputs, alike_program]
  refine alike_bind (alike_of_ensures (ensures_edit_reorderEach tw.sound)
    (ensures_edit_reorderEach tw.soundToo) ?_ ?_ fun ins next insertedToo last h givenToo =>
      And.intro h givenToo) ?_
  · intro _ next h failed
    rw [sameRun, h.2.2.2.1] at failed
    cases failed
  · intro _ last h failed
    rw [← sameRun, h.2.2.2.1] at failed
    cases failed
  intro ins next insertedToo last h
  obtain ⟨⟨adv, grows, -, made, handling⟩, advancesToo, growsToo, -, madeToo, handlingToo⟩ := h
  have matched : next.Matches last := by
    rw [sameRun, made] at madeToo
    exact ⟨(some.inj madeToo).symm, by rw [handlingToo, tw.handling, handling]⟩
  have grown := tw.advance adv advancesToo matched
  have sameIds : ∀ id, id ∈ insertedToo.map last.program.idOf ↔ id ∈ ins.map next.program.idOf := by
    intro id
    rw [grows.mem_ids tw.sound.consistent grown.sound.consistent, growsToo.mem_ids
      tw.soundToo.consistent grown.soundToo.consistent, grown.network, tw.network]
  have sameEmpty : insertedToo.isEmpty = ins.isEmpty := by
    rw [Bool.eq_iff_iff, List.isEmpty_iff, List.isEmpty_iff, ← map_eq_nil_iff,
      eq_nil_iff_forall_not_mem, ← map_eq_nil_iff, eq_nil_iff_forall_not_mem]
    exact forall_congr' fun id => not_congr (sameIds id)
  rw [sameEmpty]
  cases ins.isEmpty with
  | true => exact alike_pure matched
  | false =>
    apply alike_bind ((alike_refreshLayouts grown).and (ensures_edit_refreshLayouts_ids grown.sound)
      (ensures_edit_refreshLayouts_ids grown.soundToo))
    rintro _ refreshed _ refreshedToo ⟨e, ⟨further, ids⟩, furtherToo, idsToo⟩
    apply alike_compile (grown.advance further furtherToo e)
    rw [ids, idsToo]
    exact sameIds

theorem alike_compileNodes (tw : s.SoundTwins o) : EndsAlike compileNodes s o Session.Matches := by
  rw [EndsAlike, compileNodes, alike_program]
  apply alike_compile tw
  intro id
  show id ∈ o.program.ids ↔ id ∈ s.program.ids
  rw [tw.soundToo.mem_ids, tw.sound.mem_ids, tw.network]

/-- **Every pass but the first one and the folding of constants ends alike on twins.** -/
theorem alike_body (tw : s.SoundTwins o) (folding : Build Unit) {pass : Pass}
    (notFirst : pass ≠ .setUp) (notFolding : pass ≠ .foldConstants) :
    EndsAlike (pass.body folding) s o Session.SoundTwins := by
  apply alike_advance tw _ (ensures_body tw.sound folding notFirst notFolding)
    (ensures_body tw.soundToo folding notFirst notFolding)
  cases pass with
  | setUp => exact absurd rfl notFirst
  | markNodes => exact alike_markNodes tw
  | trim => exact alike_trim tw
  | orderBreadthFirst => exact alike_orderBreadthFirst tw
  | decideOutputSizes => exact alike_decideOutputSizes tw
  | fuseActivations => exact alike_fuseActivations tw
  | prepareWindows => exact alike_prepareWindows tw
  | dropReorders => exact alike_dropReorders tw
  | foldConstants => exact absurd rfl notFolding
  | shareBuffers => exact alike_shareBuffers tw
  | compileNodes => exact alike_compileNodes tw
  | reorderInputs => exact alike_reorderInputs tw
  | computeConflicts => exact alike_computeConflicts tw
  | cleanUp => exact alike_cleanUp tw

end Build

end LayerGraph
