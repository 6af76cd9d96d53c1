import LayerGraph.Proofs.Build.Session
import LayerGraph.Proofs.Network.Basic

/-!
# Loops over networks

A pass goes through the nodes of a program one after the other. On the network it takes a step for each
id of a list, and fails when one of the steps does (`Network.run`). The list comes from the processing
order, so two programs with the same network may go through it in different orders.

Both orders put what is read before its readers. When two steps for ids of which neither depends on the
other can be exchanged, one list can therefore be turned into the other without a change of the result
(`Network.run_eq_of_perm`): the first id of one list is moved to the front of the other, past ids that
do not have to come before it.
-/

namespace LayerGraph

open List Option Network

namespace Network

variable {step : String → Network → Option Network} {net : Network} {id : String}
  {ids others : List String} {α : Type}

/-- Takes a step for each id of a list, one after the other. -/
def run (step : String → Network → Option Network) (ids : List String) (net : Network) :
    Option Network :=
  ids.foldlM (fun net id => step id net) net

theorem run_cons (step : String → Network → Option Network) (id : String) (rest : List String)
    (net : Network) : run step (id :: rest) net = (step id net).bind (run step rest) := rfl

/-- What every step keeps, a run keeps. -/
theorem run_keeps {kept : Network → Prop}
    (keeps : ∀ id net next, kept net → step id net = some next → kept next) (start : kept net)
    {last : Network} (res : run step ids net = some last) : kept last := by
  induction ids generalizing net with
  | nil =>
    cases res
    exact start
  | cons id rest ih =>
    rw [run_cons, bind_eq_some_iff] at res
    obtain ⟨next, a, later⟩ := res
    exact ih (keeps id net next start a) later

section Exchange

variable {kept : Network → Prop} {pre : String → String → Prop}
  (keeps : ∀ id net next, kept net → step id net = some next → kept next)
include keeps

/-- A step that can be exchanged with each of those before it can be taken first. -/
theorem run_bubble {front back : List String} (exchanges : ∀ net, kept net → ∀ o ∈ front,
      (step o net).bind (step id) = (step id net).bind (step o))
    (start : kept net) : run step (front ++ id :: back) net = run step (id :: (front ++ back)) net := by
  induction front generalizing net with
  | nil => rfl
  | cons o rest ih =>
    have later : ∀ next, step o net = some next → run step (rest ++ id :: back) next = run step (id ::
        (rest ++ back)) next := fun next stepped => ih (fun net h m mem =>
        exchanges net h m (mem_cons_of_mem o mem))
        (keeps o net next start stepped)
    calc run step (o :: rest ++ id :: back) net
        = (step o net).bind (run step (rest ++ id :: back)) := rfl
      _ = (step o net).bind (run step (id :: (rest ++ back))) := Option.bind_congr later
      _ = ((step o net).bind (step id)).bind (run step (rest ++ back)) := by
          rw [bind_assoc]
          rfl
      _ = ((step id net).bind (step o)).bind (run step (rest ++ back)) := by
          rw [exchanges net start o mem_cons_self]
      _ = run step (id :: (o :: rest ++ back)) net := by
          rw [bind_assoc]
          rfl

/-- **Runs over the same ids end alike,** when both lists respect what has to come before what, and
the steps for all other ids can be exchanged. -/
theorem run_eq_of_perm (exchanges : ∀ net, kept net → ∀ a ∈ ids, ∀ b ∈ ids, a ≠ b →
      ¬ pre a b → ¬ pre b a → (step a net).bind (step b) = (step b net).bind (step a))
    (perm : ids.Perm others) (respects : ids.Pairwise fun earlier later => ¬ pre later earlier)
    (respectsToo : others.Pairwise fun earlier later => ¬ pre later earlier)
    (start : kept net) : run step ids net = run step others net := by
  induction ids generalizing others net with
  | nil => rw [perm.nil_eq]
  | cons id rest ih =>
    obtain ⟨front, back, rfl⟩ := append_of_mem (perm.subset mem_cons_self)
    have permRest : rest.Perm (front ++ back) := (perm.trans perm_middle).cons_inv
    obtain ⟨behind, respectsRest⟩ := pairwise_cons.mp respects
    have ahead : ∀ o ∈ front, ¬ pre id o := fun o mem =>
      (pairwise_append.mp respectsToo).2.2 o mem id mem_cons_self
    have inRest : ∀ o ∈ front, o ∈ rest := fun o mem =>
      permRest.symm.subset (mem_append_left back mem)
    have moves : run step (front ++ id :: back) net = run step (id :: (front ++ back)) net := by
      apply run_bubble keeps _ start
      intro net h o mem
      by_cases e : o = id
      · rw [e]
      · exact exchanges net h o (mem_cons_of_mem id (inRest o mem)) id
          mem_cons_self e (behind o (inRest o mem)) (ahead o mem)
    have respectsOthers : (front ++ back).Pairwise fun earlier later => ¬ pre later earlier :=
      respectsToo.sublist ((Sublist.refl front).append (sublist_cons_self id back))
    rw [moves, run_cons, run_cons]
    refine Option.bind_congr fun next stepped =>
      ih ?_ permRest respectsRest respectsOthers (keeps id net next start stepped)
    intro net h a inFirst b inSecond
    exact exchanges net h a (mem_cons_of_mem id inFirst) b (mem_cons_of_mem id inSecond)

/-- When all steps can be exchanged, nothing has to come before anything. -/
theorem run_eq_of_exchanges (exchanges : ∀ net, kept net → ∀ a ∈ ids, ∀ b ∈ ids, a ≠ b →
      (step a net).bind (step b) = (step b net).bind (step a))
    (perm : ids.Perm others) (start : kept net) : run step ids net = run step others net := by
  have free : ∀ names : List String, names.Pairwise fun _ _ => ¬ False := fun names =>
    pairwise_of_forall fun _ _ => not_false
  exact run_eq_of_perm keeps (fun net h a inFirst b inSecond ne _ _ =>
      exchanges net h a inFirst b inSecond ne)
    perm (free ids) (free others) start

end Exchange

/-- Steps that first ask what is to be done and then do it can be exchanged, when neither changes what
the other one asks for and what they do can be exchanged. -/
theorem exchange_of_requests {req : String → Network → Option α}
    {apply : String → α → Network → Option Network} {a b : String}
    (stable : ∀ asked next, req a net = some asked → apply a asked net = some next →
      req b next = req b net) (stableToo : ∀ asked next, req b net = some asked →
      apply b asked net = some next → req a next = req a net)
    (commute : ∀ asked askedToo, req a net = some asked → req b net = some askedToo →
      (apply a asked net).bind (apply b askedToo) = (apply b askedToo net).bind (apply a asked)) :
    ((req a net).bind fun asked => apply a asked net).bind
        (fun next => (req b next).bind fun asked => apply b asked next) =
      ((req b net).bind fun asked => apply b asked net).bind
        fun next => (req a next).bind fun asked => apply a asked next := by
  have after : ∀ one m asked, req one net = some asked →
      (∀ next, apply one asked net = some next → req m next = req m net) →
      (apply one asked net).bind (fun next => (req m next).bind fun asked =>
        apply m asked next) =
      (req m net).bind fun askedToo => (apply one asked net).bind (apply m askedToo) := by
    intro one m asked _ e
    cases applied : apply one asked net with
    | none =>
      cases req m net <;> rfl
    | some next => rw [bind_some, e next applied]; rfl
  cases one : req a net with
  | none =>
    rw [bind_none, bind_none]
    cases m : req b net with
    | none => rfl
    | some askedToo =>
      rw [bind_some, after b a askedToo m (fun next applied =>
        stableToo askedToo next m applied), one, bind_none]
  | some asked =>
    rw [bind_some, after a b asked one (fun next applied =>
      stable asked next one applied)]
    cases m : req b net with
    | none => rfl
    | some askedToo =>
      rw [bind_some, bind_some, after b a askedToo m (fun next applied => stableToo askedToo next m
        applied), one, bind_some, commute asked askedToo one m]

end Network

namespace Program

variable {p q : Program} {k : NodeKey} {n : Node}

/-! ## The ids in processing order -/

/-- The ids of the nodes in the processing order. -/
def ids (program : Program) : List String := program.order.toList.map program.idOf

section

variable (wf : p.Consistent)

include wf

variable {src : String}

theorem Consistent.reads_iff (hk : p.node? k = some n) : p.network.Reads n.id src ↔ ∃ dep ∈
    p.dependencies k, p.idOf dep = src := by
  rw [Network.Reads, wf.exists_cell_iff hk]
  exact List.mem_map

/-- The nodes that read a node. -/
theorem Consistent.reads_id_iff (hk : p.node? k = some n) {r : String} :
    p.network.Reads r n.id ↔ ∃ user, k ∈ p.dependencies user ∧ p.idOf user = r := by
  constructor
  · intro hr
    have h := hr
    obtain ⟨c, hc, -⟩ := h
    obtain ⟨user, st, foundUser, rfl, -⟩ := wf.exists_node_of_cell? hc
    obtain ⟨dep, mem, e⟩ := (wf.reads_iff foundUser).mp hr
    have isKey := wf.key_eq_of_idOf hk (wf.reads_live user dep mem).1 e
    exact ⟨user, isKey ▸ mem, idOf_of_node? foundUser⟩
  · rintro ⟨user, mem, rfl⟩
    obtain ⟨st, foundUser⟩ := contains_iff.mp (wf.reads_live user k mem).2
    rw [idOf_of_node? foundUser, wf.reads_iff foundUser]
    exact ⟨k, mem, idOf_of_node? hk⟩

/-- What a node reads in the network it reads. -/
theorem Consistent.exists_dependency (hv : p.contains k) (hr : p.network.Reads (p.idOf k) src) : ∃
    dep ∈ p.dependencies k, p.contains dep ∧ p.idOf dep = src := by
  obtain ⟨n, hk⟩ := contains_iff.mp hv
  rw [idOf_of_node? hk, wf.reads_iff hk] at hr
  obtain ⟨dep, mem, e⟩ := hr
  exact ⟨dep, mem, (wf.reads_live k dep mem).1, e⟩

theorem Consistent.reads_of_dependency {dep : NodeKey} (mem : dep ∈ p.dependencies k) :
    p.network.Reads (p.idOf k) (p.idOf dep) := by
  obtain ⟨n, hk⟩ := contains_iff.mp (wf.reads_live k dep mem).2
  rw [idOf_of_node? hk, wf.reads_iff hk]
  exact ⟨dep, mem, rfl⟩

/-- What a node depends on has a key. -/
theorem Consistent.exists_feeds (hv : p.contains k) (path : Relation.TransGen p.network.Reads (p.idOf
    k) src) : ∃ dep, p.contains dep ∧ p.idOf dep = src ∧ Relation.TransGen (Feeds p.dependencies) dep k
    := by
  induction path with
  | single hr =>
    obtain ⟨dep, mem, alive, e⟩ := wf.exists_dependency hv hr
    exact ⟨dep, alive, e, .single mem⟩
  | tail _ hr ih =>
    obtain ⟨mid, middleLive, rfl, path⟩ := ih
    obtain ⟨dep, mem, alive, e⟩ := wf.exists_dependency middleLive hr
    exact ⟨dep, alive, e, .head mem path⟩

end

namespace Sound

variable (hs : p.Sound)
include hs

theorem nodup_ids : p.ids.Nodup :=
  hs.consistent.nodup_map_idOf hs.consistent.order_nodup hs.consistent.order_live

theorem mem_ids {id : String} : id ∈ p.ids ↔ p.network.has id := by
  refine hs.consistent.mem_map_idOf _ hs.consistent.order_live (fun _ there => there) ?_
  intro k n hk
  exact ⟨fun _ => ⟨_, hs.consistent.cell?_of_node? hk⟩, fun _ => hs.complete.mem_of_node? hk⟩

/-- No id is listed before one that it depends on. -/
theorem pairwise_ids : p.ids.Pairwise fun earlier later =>
    ¬ Relation.TransGen p.network.Reads earlier later := by
  rw [ids, pairwise_map, pairwise_iff_forall_sublist]
  intro earlier later pair path
  have mem : ∀ k ∈ [earlier, later], p.contains k := fun k hl =>
    (hs.complete.complete k).mp (pair.subset hl)
  obtain ⟨dep, hv, e, feeds⟩ := hs.consistent.exists_feeds (mem earlier (by simp)) path
  rw [hs.consistent.idOf_inj hv (mem later (by simp))] at e
  subst e
  exact not_pair_sublist_of_swap hs.complete.nodup pair
    (pair_sublist_of_transGen hs.complete.nodup hs.complete.before feeds)

theorem perm_ids (o : q.Sound) (e : q.network = p.network) : p.ids.Perm q.ids :=
  (perm_ext_iff_of_nodup hs.nodup_ids o.nodup_ids).mpr fun id => by
    rw [hs.mem_ids, o.mem_ids, e]

/-- **Programs with the same network end a run alike,** when the steps for ids of which neither
depends on the other can be exchanged. -/
theorem run_eq (o : q.Sound) (e : q.network = p.network)
    {step : String → Network → Option Network} {kept : Network → Prop}
    (keeps : ∀ id net next, kept net → step id net = some next → kept next)
    (exchanges : ∀ net, kept net → ∀ a b, a ≠ b → ¬ Relation.TransGen p.network.Reads a b →
      ¬ Relation.TransGen p.network.Reads b a →
      (step a net).bind (step b) = (step b net).bind (step a)) (start : kept p.network) :
    run step p.ids p.network = run step q.ids q.network := by
  rw [e]
  have respectsToo := o.pairwise_ids
  rw [e] at respectsToo
  exact run_eq_of_perm keeps (fun net h a _ b _ ne free freeToo =>
      exchanges net h a b ne freeToo free)
    (hs.perm_ids o e) hs.pairwise_ids respectsToo start

end Sound

/-! ## Loops -/

/-- All nodes but one are still there, under the same ids. -/
def StaysBut (program : Program) (key : NodeKey) (next : Program) : Prop :=
  ∀ other, other ≠ key → program.contains other →
    next.contains other ∧ next.idOf other = program.idOf other

theorem staysBut_refl (p : Program) (k : NodeKey) : p.StaysBut k p :=
  fun _ _ hv => ⟨hv, rfl⟩

theorem stays_of_node? {next : Node} (hk : p.node? k = some n) (after : q.node? k = some next) (e :
    next.id = n.id) : q.contains k ∧ q.idOf k = p.idOf k :=
  ⟨contains_of_node? after, by rw [idOf_of_node? after, idOf_of_node? hk, e]⟩

theorem staysBut_of_ids (e : ∀ o, o ≠ k → (q.node? o).map Node.id = (p.node? o).map Node.id) :
    p.StaysBut k q := by
  intro o ne hv
  obtain ⟨n, hk⟩ := contains_iff.mp hv
  have after := e o ne
  rw [hk, map_some] at after
  obtain ⟨next, foundNext, sameId⟩ := map_eq_some_iff.mp after
  exact stays_of_node? hk foundNext sameId

theorem staysBut_modifyBlind (p : Program) (k : NodeKey) {change : Node → Node}
    (blind : Node.Blind change) (o : NodeKey) (hv : p.contains o) :
    (p.modifyNode k change).contains o ∧ (p.modifyNode k change).idOf o = p.idOf o := by
  obtain ⟨n, hk⟩ := contains_iff.mp hv
  have after := node?_modifyNode p k o change
  rw [hk] at after
  split at after
  · exact stays_of_node? hk after (blind.id n)
  · exact stays_of_node? hk after rfl

/-- **A loop over nodes is a run over their ids,** when each round is a step and no other node is
removed or renamed. -/
theorem ensures_forM_run {round : NodeKey → Edit PUnit}
    {step : String → Network → Option Network} (kept : List NodeKey → Program → Prop)
    (steps : ∀ k rest n st, kept (k :: rest) st → st.node? k = some n →
      Ensures (round k) st (fun _ next => (kept rest next ∧ st.StaysBut k next) ∧
        step n.id st.network = some next.network) fun _ => step n.id st.network = none)
    {ks : List NodeKey} (nd : ks.Nodup) (hv : ∀ k ∈ ks, p.contains k) (start : kept ks p) :
    Ensures (ks.forM round) p (fun _ next => kept [] next ∧
        run step (ks.map p.idOf) p.network = some next.network)
      fun _ => run step (ks.map p.idOf) p.network = none := by
  induction ks generalizing p with
  | nil => exact ⟨start, rfl⟩
  | cons k rest ih =>
    obtain ⟨ha, nodupRest⟩ := nodup_cons.mp nd
    obtain ⟨n, hk⟩ := contains_iff.mp (hv k mem_cons_self)
    rw [List.forM, ensures_bind, map_cons, run_cons, idOf_of_node? hk]
    refine (steps k rest n p start hk).mono ?_ ?_
    · rintro _ next ⟨⟨keptNext, stays⟩, stepped⟩
      have staysRest : ∀ o ∈ rest,
          next.contains o ∧ next.idOf o = p.idOf o := fun o mem =>
        stays o (fun e => ha (e ▸ mem)) (hv o (mem_cons_of_mem k mem))
      have sameIds : rest.map next.idOf = rest.map p.idOf :=
        map_congr_left fun o mem => (staysRest o mem).2
      have later := ih nodupRest (fun o mem => (staysRest o mem).1) keptNext
      rw [sameIds] at later
      rwa [stepped, bind_some]
    · intro _ failed
      rw [failed, bind_none]

/-- A loop of changes that cannot fail. -/
theorem forM_modify (change : Program → NodeKey → Program) (ks : List NodeKey) (p : Program) :
    (ks.forM fun k => modify (change · k) : Edit PUnit) p = .ok ⟨⟩ (ks.foldl change p) := by
  induction ks generalizing p with
  | nil => rfl
  | cons k rest ih => exact ih (change p k)

end Program

namespace Build

/-- What a pass makes of the network of a session; there is none when the pass fails. -/
def Yields (step : Build Unit) (session : Session) (result : Option Network) : Prop :=
  Ensures step session (fun _ next => result = some next.program.network ∧
    next.outputSizeHandling = session.outputSizeHandling) fun _ => result = none

variable {s : Session}

theorem yields_edit {change : Edit Unit} {res : Option Network} (changes : Ensures change s.program (fun
    _ next => res = some next.network) fun _ => res = none) : Yields (edit change) s res := by
  rw [Yields, ensures_edit]
  exact changes.weaken fun _ next made => ⟨made, rfl⟩

/-- A loop over the nodes of a sound program is a run. -/
theorem yields_forM {round : NodeKey → Edit PUnit} {step : String → Network → Option Network} (hs :
    s.program.Sound) (keeps : ∀ {st k}, Program.Sound st → st.contains k → Ensures (round k) st (fun _
    next => next.Sound)) (steps : ∀ {st k n}, Program.Sound st → st.node? k = some n →
    Ensures (round k) st (fun _ next => st.StaysBut k next ∧ step n.id st.network = some next.network)
    fun _ => step n.id st.network = none) : Yields (edit (s.program.order.toList.forM round)) s
    (Network.run step s.program.ids s.program.network) := by
  apply yields_edit
  apply (Program.ensures_forM_run (fun _ => Program.Sound) _ hs.consistent.order_nodup
    hs.consistent.order_live hs).weaken fun _ next h => h.2
  intro k _ n st h hk
  exact ((steps h hk).and (keeps h (Program.contains_of_node? hk))).weaken
    fun _ next both => ⟨⟨both.2, both.1.1⟩, both.1.2⟩

end Build

end LayerGraph
