import LayerGraph.Proofs.Network.Confluence
import LayerGraph.Proofs.Pass.Formats

/-!
# Removals in networks

Nodes are removed for three reasons. No output depends on them (`Network.Dead`); nobody reads them any
more (`Network.prune`); or their readers can read what they read, since a reorder changes nothing
(`Network.dropReorder`) or an activation is fused into the layer before it (`Network.fuse`).

Which of two such nodes goes first does not matter, unless one of them depends on the other. A bypassed
node is not read by the other one, nor does it read it, so neither sees the other one go.
-/

namespace LayerGraph

open List Cell

namespace Network

variable {net next initial : Network} {id a b i src r : String}
  {change : Node → Node}

/-! ## Striking nodes -/

theorem strike_comm (net : Network) (a b : String) :
    (net.strike a).strike b = (net.strike b).strike a := by
  apply Network.ext
  · funext id
    simp only [strike, cell?_drop, cell?_put, cell?_rewire]
    by_cases isFirst : id = a <;> by_cases isSecond : id = b
    · simp [isFirst]
    · simp [isFirst]
    · simp [isSecond]
    · simp only [isFirst, isSecond, if_false, Option.map_map]
      congr 1
      funext c
      simp only [Function.comp_apply, withReads, List.filter_filter, Bool.and_comm]
  · funext id
    simp only [strike, dropped_drop, dropped_put, dropped_rewire]
    omega

theorem reads_strike : (net.strike id).Reads r src ↔ net.Reads r src ∧ r ≠ id ∧ src ≠ id := by
  simp only [Reads, strike, cell?_drop, cell?_put, cell?_rewire]
  by_cases isId : r = id
  · simp [isId]
  · simp only [isId, if_false, ne_eq, not_false_eq_true, true_and, Option.map_eq_some_iff]
    constructor
    · rintro ⟨c, ⟨old, hk, rfl⟩, mem⟩
      obtain ⟨inOld, away⟩ := mem_filter.mp mem
      exact ⟨⟨old, hk, inOld⟩, by simpa using away⟩
    · rintro ⟨⟨old, hk, inOld⟩, away⟩
      exact ⟨_, ⟨old, hk, rfl⟩, mem_filter.mpr ⟨inOld, by simpa using away⟩⟩

theorem cell?_strike_of_ne (ne : a ≠ id) : (net.strike id).cell? a =
    (net.cell? a).map (·.withReads (·.filter (· != id))) := by
  simp only [strike, cell?_drop, cell?_put, cell?_rewire, ne, if_false]

/-- An output depends on a node. -/
def Needed (net : Network) (id : String) : Prop :=
  ∃ output cell, net.cell? output = some cell ∧ cell.isOutput = true ∧
    Relation.ReflTransGen net.Reads output id

/-- No output depends on a node, and it is no network input. -/
def Dead (net : Network) (id : String) : Prop :=
  ¬ net.Needed id ∧ ∃ cell, net.cell? id = some cell ∧ cell.tag ≠ .inputLayout

/-- Removes a node, as a step. -/
def remove (id : String) (net : Network) : Option Network := some (net.strike id)

/-- Removing the same nodes in any order ends alike. -/
theorem run_remove_eq {ids others : List String} (perm : ids.Perm others) (net : Network) :
    run remove ids net = run remove others net :=
  run_eq_of_exchanges (fun _ _ _ (_ : True) _ => trivial)
    (fun net _ a _ b _ _ => congrArg some (net.strike_comm a b)) perm trivial

/-! ## Nodes that nobody reads -/

/-- A node that can be removed because it is not read. -/
def Prunable (net : Network) (id : String) : Prop :=
  (∃ cell, net.cell? id = some cell ∧ cell.isOutput = false) ∧ ∀ reader, ¬ net.Reads reader id

open scoped Classical in
/-- Removes a node if nobody reads it. -/
noncomputable def prune (id : String) (net : Network) : Option Network :=
  some (if net.Prunable id then net.strike id else net)

/-- Whether a node can be removed does not depend on a node that does not read it. -/
theorem prunable_strike (ne : a ≠ b) (unread : ¬ net.Reads a b) :
    (net.strike a).Prunable b ↔ net.Prunable b := by
  rw [Prunable, Prunable, cell?_strike_of_ne (Ne.symm ne)]
  have marks : (∃ c, (net.cell? b).map (·.withReads (·.filter (· != a))) = some c ∧ c.isOutput = false) ↔
        ∃ c, net.cell? b = some c ∧ c.isOutput = false := by
    simp only [Option.map_eq_some_iff]
    constructor
    · rintro ⟨-, ⟨c, hk, rfl⟩, unmarked⟩
      exact ⟨c, hk, unmarked⟩
    · rintro ⟨c, hk, unmarked⟩
      exact ⟨_, ⟨c, hk, rfl⟩, unmarked⟩
  rw [marks]
  refine and_congr_right fun _ => forall_congr' fun r => not_congr ?_
  rw [reads_strike]
  constructor
  · exact fun h => h.1
  · intro hr
    exact ⟨hr, fun isFirst => unread (isFirst ▸ hr), Ne.symm ne⟩

theorem prune_comm (ne : a ≠ b) (unread : ¬ net.Reads a b) (unreadToo : ¬ net.Reads b a) :
    (prune a net).bind (prune b) = (prune b net).bind (prune a) := by
  have apart := prunable_strike ne unread
  have apartToo := prunable_strike (Ne.symm ne) unreadToo
  simp only [prune, Option.bind_some]
  by_cases one : net.Prunable a <;> by_cases m : net.Prunable b
  · simp only [one, m, apart, apartToo, if_true, net.strike_comm a b]
  · simp only [one, m, apart, if_true, if_false]
  · simp only [one, m, apartToo, if_true, if_false]
  · simp only [one, m, if_false]

theorem reads_of_prune (pruned : prune id net = some next) (hr : next.Reads r src) :
    net.Reads r src := by
  rw [← Option.some.inj pruned] at hr
  split at hr
  · exact (reads_strike.mp hr).1
  · exact hr

/-! ## Bypassed nodes -/

theorem withReads_rerouted {c : Cell} {old : String} (unread : old ∉ c.reads) (new : String) :
    c.withReads (·.map (rerouted old new)) = c := by
  have e : c.reads.map (rerouted old new) = c.reads :=
    Program.map_eq_self fun id mem => if_neg fun isOld : id = old => unread (isOld ▸ mem)
  rw [withReads, e]

/-- Bypasses a node, and changes the node that is read in its place. -/
def shortcut (net : Network) (id input : String) (change : Node → Node) : Network :=
  (net.bypass id input).put input (((net.bypass id input).cell? input).map (·.withNode change))

theorem cell?_bypass (net : Network) (id i o : String) : (net.bypass id i).cell? o =
      if o = id then none
      else (net.cell? o).map (·.withReads (·.map (rerouted id i))) := rfl

/-- A node that is changed when it is the one that is read in the place of a bypassed one. -/
def touched (input : String) (change : Node → Node) (id : String) (node : Node) : Node :=
  if id = input then change node else node

theorem cell?_shortcut (net : Network) (id i o : String) (change : Node → Node) :
    (net.shortcut id i change).cell? o =
      if o = id then none
      else (net.cell? o).map fun c =>
        (c.withNode (touched i change o)).withReads (·.map (rerouted id i)) := by
  rw [shortcut, cell?_put]
  by_cases isInput : o = i
  · subst isInput
    simp only [if_true, cell?_bypass]
    split
    · rfl
    · rw [Option.map_map]
      congr 1
      funext c
      simp only [Function.comp_apply, withNode, withReads, touched, if_true]
  · simp only [isInput, if_false, cell?_bypass]
    congr 2
    funext c
    simp only [withNode, touched, isInput, if_false]

theorem shortcut_unchanged (net : Network) (id i : String) :
    net.shortcut id i (fun n => n) = net.bypass id i := by
  apply Network.ext
  · funext o
    rw [cell?_shortcut, cell?_bypass]
    congr 2
    funext c
    simp only [withNode, touched, ite_self]
  · rfl

/-- Shortcuts around two nodes that do not read each other can be taken in any order. -/
theorem shortcut_comm {m : String} {changeToo : Node → Node}
    (ne : a ≠ b) (apart : i ≠ b) (apartToo : m ≠ a)
    (commute : i = m → ∀ n, change (changeToo n) = changeToo (change n)) :
    (net.shortcut a i change).shortcut b m changeToo =
      (net.shortcut b m changeToo).shortcut a i change := by
  have reroutes : ∀ c : Cell, (c.reads.map (rerouted a i)).map (rerouted b m) =
      (c.reads.map (rerouted b m)).map (rerouted a i) := by
    intro c
    rw [List.map_map, List.map_map]
    exact map_congr_left fun id _ => rerouted_comm ne apart apartToo id
  apply Network.ext
  · funext id
    simp only [cell?_shortcut]
    by_cases isFirst : id = a
    · simp [isFirst]
    · by_cases isSecond : id = b
      · simp [isSecond]
      · simp only [isFirst, isSecond, if_false, Option.map_map]
        congr 1
        funext c
        have nodes : touched m changeToo id (touched i change id c.toNode) =
            touched i change id (touched m changeToo id c.toNode) := by
          simp only [touched]
          split
          · next isAnother =>
            split
            · next isInput => rw [commute (isInput.symm.trans isAnother)]
            · rfl
          · rfl
        simp only [Function.comp_apply, withReads, withNode, nodes, reroutes c]
  · funext id
    simp only [shortcut, bypass, dropped_put, dropped_drop, dropped_rewire]
    omega

theorem reads_shortcut : (net.shortcut id i change).Reads r src ↔
    r ≠ id ∧ ∃ mid, net.Reads r mid ∧ rerouted id i mid = src := by
  simp only [Reads, cell?_shortcut]
  by_cases isId : r = id
  · simp [isId]
  · simp only [isId, if_false, Option.map_eq_some_iff, ne_eq, not_false_eq_true, true_and]
    constructor
    · rintro ⟨-, ⟨c, hk, rfl⟩, mem⟩
      obtain ⟨mid, inCell, e⟩ := List.mem_map.mp mem
      exact ⟨mid, ⟨c, hk, inCell⟩, e⟩
    · rintro ⟨mid, ⟨c, hk, inCell⟩, e⟩
      exact ⟨_, ⟨c, hk, rfl⟩, List.mem_map.mpr ⟨mid, inCell, e⟩⟩

/-- Whoever reads something depended on it to begin with. -/
def Within (initial net : Network) : Prop :=
  ∀ reader source, net.Reads reader source → Relation.TransGen initial.Reads reader source

theorem within_refl (net : Network) : Within net net := fun _ _ hr => .single hr

theorem Within.shortcut (within : Within initial net)
    (hr : net.Reads id i) : Within initial (net.shortcut id i change) := by
  intro r src h
  obtain ⟨-, mid, direct, e⟩ := reads_shortcut.mp h
  rw [rerouted] at e
  split at e
  · next isId =>
    rw [← e]
    exact (within r mid direct).trans (isId ▸ within id i hr)
  · rw [← e]
    exact within r mid direct

/-- When a node that reads one other is bypassed, and how the other one is changed. -/
abbrev Shortening : Type := Network → String → Cell → String → Option (Node → Node)

/-- The bypass that a rule asks for, if it asks for one. -/
def Shortening.request (rule : Shortening) (net : Network) (id : String) (cell : Cell) :
    Option (String × (Node → Node)) :=
  match cell.reads with
  | [i] => (rule net id cell i).map (i, ·)
  | _ => none

/-- The network after a bypass, if there is one. -/
def follow (net : Network) (id : String) : Option (String × (Node → Node)) → Network
  | some (i, change) => net.shortcut id i change
  | none => net

/-- Bypasses a node if a rule asks for it. -/
def shorten (rule : Shortening) (id : String) (net : Network) : Option Network :=
  (net.cell? id).map fun cell => net.follow id (rule.request net id cell)

/-- What a bypass is asked for at one node does not depend on whether another one is bypassed, unless
they read each other. -/
structure Shortening.Stable (rule : Shortening) : Prop where
  same : ∀ {net : Network} {first second input another : String} {cell : Cell} {change : Node → Node}
    (other : Cell), first ≠ second → input ≠ second → another ≠ first → net.cell? first = some cell →
    cell.reads = [input] → net.cell? second = some other → other.reads = [another] → rule net second
    other another = some change → rule (net.shortcut second another change) first cell input = rule net
    first cell input
  commute : ∀ {net : Network} {first second input : String} {cell other : Cell} {change changeToo : Node
    → Node}, first ≠ second → net.cell? first = some cell → cell.reads = [input] → net.cell? second =
    some other → other.reads = [input] → rule net first cell input = some change → rule net second other
    input = some changeToo → ∀ node, change (changeToo node) = changeToo (change node)

theorem reads_of_single {c : Cell} (hk : net.cell? id = some c) (hr : c.reads = [i]) : net.Reads id i :=
  ⟨c, hk, hr ▸ mem_singleton_self i⟩

theorem request_eq_some {rule : Shortening} {c : Cell} : rule.request net id c = some (i, change) ↔
      c.reads = [i] ∧ rule net id c i = some change := by
  rw [Shortening.request]
  constructor
  · intro asked
    split at asked
    · next only hr =>
      obtain ⟨made, asks, e⟩ := Option.map_eq_some_iff.mp asked
      obtain ⟨rfl, rfl⟩ := Prod.mk.inj e
      exact ⟨hr, asks⟩
    · cases asked
  · intro h
    rw [h.1]
    exact Option.map_eq_some_iff.mpr ⟨change, h.2, rfl⟩

/-- What a rule asks for at an id. -/
def Shortening.asked (rule : Shortening) (id : String) (net : Network) :
    Option (Option (String × (Node → Node))) :=
  (net.cell? id).map (rule.request net id)

theorem shorten_eq_asked (rule : Shortening) (id : String) : shorten rule id = fun net =>
    (rule.asked id net).bind fun req => some (net.follow id req) := by
  funext net
  rw [shorten, Shortening.asked, Option.bind_map]
  exact Option.map_eq_bind

section Shorten

variable {rule : Shortening} (stable : rule.Stable) (ne : a ≠ b)
  (unread : ¬ net.Reads a b) (unreadToo : ¬ net.Reads b a)
  {req requestToo : Option (String × (Node → Node))}
include stable ne unread unreadToo

/-- A node does not see whether another one is bypassed. -/
theorem asked_follow (askedToo : rule.asked b net = some req) :
    rule.asked a (net.follow b req) = rule.asked a net := by
  obtain ⟨o, foundToo, rfl⟩ := Option.map_eq_some_iff.mp askedToo
  match asked : rule.request net b o with
  | none => rfl
  | some (m, change) =>
    obtain ⟨hr, asks⟩ := request_eq_some.mp asked
    have apart : m ≠ a := fun e => unreadToo (e ▸ reads_of_single foundToo hr)
    rw [Shortening.asked, Shortening.asked, follow, cell?_shortcut, if_neg ne, Option.map_map]
    refine Option.map_congr fun c hk => ?_
    have ha : b ∉ c.reads := fun mem => unread ⟨c, hk, mem⟩
    have untouched : c.withNode (touched m change a) = c := by
      simp only [withNode, touched, Ne.symm apart, if_false]
    rw [Function.comp_apply, untouched, withReads_rerouted ha, Shortening.request,
      Shortening.request]
    split
    · next i readsInput =>
      have away : i ≠ b := fun e => unread (e ▸ reads_of_single hk readsInput)
      rw [stable.same o ne away apart hk readsInput foundToo hr asks]
    · rfl

theorem follow_comm (asked : rule.asked a net = some req)
    (askedToo : rule.asked b net = some requestToo) : (net.follow a req).follow b requestToo =
      (net.follow b requestToo).follow a req := by
  obtain ⟨c, hk, rfl⟩ := Option.map_eq_some_iff.mp asked
  obtain ⟨o, foundToo, rfl⟩ := Option.map_eq_some_iff.mp askedToo
  match asked : rule.request net a c, askedToo : rule.request net b o with
  | none, _ => rfl
  | some _, none => rfl
  | some (i, change), some (m, changeToo) =>
    obtain ⟨hr, asks⟩ := request_eq_some.mp asked
    obtain ⟨readsToo, asksToo⟩ := request_eq_some.mp askedToo
    have apart : m ≠ a := fun e => unreadToo (e ▸ reads_of_single foundToo readsToo)
    have away : i ≠ b := fun e => unread (e ▸ reads_of_single hk hr)
    refine shortcut_comm ne away apart fun e => ?_
    subst e
    exact stable.commute ne hk hr foundToo readsToo asks asksToo

/-- Bypasses of nodes that do not read each other can be exchanged. -/
theorem shorten_comm : (shorten rule a net).bind (shorten rule b) =
    (shorten rule b net).bind (shorten rule a) := by
  rw [shorten_eq_asked rule a, shorten_eq_asked rule b]
  apply exchange_of_requests
  · intro req next asked made
    rw [← Option.some.inj made, asked_follow stable ne.symm unreadToo unread asked]
  · intro req next asked made
    rw [← Option.some.inj made, asked_follow stable ne unread unreadToo asked]
  · exact fun _ _ asked askedToo =>
      congrArg some (follow_comm stable ne unread unreadToo asked askedToo)

end Shorten

theorem within_shorten {rule : Shortening} (within : Within initial net)
    (shortened : shorten rule id net = some next) : Within initial next := by
  obtain ⟨c, hk, rfl⟩ := Option.map_eq_some_iff.mp shortened
  match asked : rule.request net id c with
  | none => exact within
  | some (i, change) => exact within.shortcut (reads_of_single hk (request_eq_some.mp asked).1)

/-! ## Reorders -/

/-- Whether a node is a reorder that changes nothing about what it reads. -/
def changesNothing (node : Node) (source : Option Node) : Bool :=
  match node.kind with
  | .reorder format =>
    !node.isOutput && node.padding.isZero &&
      source.any fun source => source.layout.any (·.format == format)
  | _ => false

/-- A reorder that changes nothing is bypassed. -/
def redundantReorder : Shortening := fun net _ cell input =>
  if changesNothing cell.toNode ((net.cell? input).map toNode) then some fun node => node
  else none

theorem redundantReorder_unchanged {c : Cell}
    (asked : redundantReorder net id c i = some change) : change = fun n => n := by
  rw [redundantReorder] at asked
  split at asked
  · exact (Option.some.inj asked).symm
  · cases asked

theorem stable_redundantReorder : Shortening.Stable redundantReorder where
  same := by
    intro net a b i m c change o ne away apart hk hr foundToo readsToo asks
    obtain rfl := redundantReorder_unchanged asks
    simp only [redundantReorder, shortcut_unchanged, cell?_bypass, away, if_false, Option.map_map]
    rfl
  commute := by
    intro net a b i c o change changeToo ne hk hr foundToo readsToo asks asksToo n
    rw [redundantReorder_unchanged asks, redundantReorder_unchanged asksToo]

/-! ## Activations -/

/-- A node can be fused into what it reads. -/
structure FusesInto (net : Network) (id : String) (cell : Cell) (input : String) : Prop where
  unmarked : cell.isOutput = false
  target : ∃ target, net.cell? input = some target ∧ target.tag.takesActivation = true ∧
    target.fused = none ∧ target.isOutput = false
  only : ∀ reader, net.Reads reader input → reader = id

/-- The function of an activation. -/
def activation? : Kind → Option Activation
  | .activation function => some function
  | _ => none

open scoped Classical in
/-- An activation is fused into what it reads, if that is possible. -/
noncomputable def fusedActivation : Shortening := fun net id cell input =>
  if net.FusesInto id cell input then
    (activation? cell.kind).map fun function target => { target with fused := some function }
  else none

theorem fusesInto_of_fusedActivation {c : Cell}
    (asked : fusedActivation net id c i = some change) : net.FusesInto id c i := by
  rw [fusedActivation] at asked
  split at asked
  · next fuses => exact fuses
  · cases asked

/-- Whether a node can be fused does not depend on another one that is fused into something else. -/
theorem fusesInto_shortcut {m : String} {c o : Cell}
    (away : i ≠ b) (foundToo : net.cell? b = some o) (readsToo : o.reads = [m]) (nd : i ≠ m) :
    (net.shortcut b m change).FusesInto a c i ↔ net.FusesInto a c i := by
  have hc : (net.shortcut b m change).cell? i =
      (net.cell? i).map (·.withReads (·.map (rerouted b m))) := by
    rw [cell?_shortcut, if_neg away]
    congr 1
    funext tgt
    simp only [withNode, touched, nd, if_false]
  have readers : ∀ r, (net.shortcut b m change).Reads r i ↔ net.Reads r i := by
    intro r
    rw [reads_shortcut]
    constructor
    · rintro ⟨-, mid, hr, e⟩
      rw [rerouted] at e
      split at e
      · exact absurd e.symm nd
      · exact e ▸ hr
    · intro hr
      refine ⟨fun isSecond => ?_, i, hr, if_neg away⟩
      obtain ⟨c, hk, mem⟩ := hr
      rw [isSecond, foundToo] at hk
      rw [← Option.some.inj hk, readsToo] at mem
      exact nd (mem_singleton.mp mem)
  constructor
  · intro h
    obtain ⟨tgt, foundTarget, takes, free, unmarked⟩ := h.target
    rw [hc] at foundTarget
    obtain ⟨old, foundOld, rfl⟩ := Option.map_eq_some_iff.mp foundTarget
    exact ⟨h.unmarked, ⟨old, foundOld, takes, free, unmarked⟩, fun r hr =>
      h.only r ((readers r).mpr hr)⟩
  · intro h
    obtain ⟨tgt, foundTarget, takes, free, unmarked⟩ := h.target
    refine ⟨h.unmarked, ⟨tgt.withReads (·.map (rerouted b m)), ?_, takes, free,
      unmarked⟩, fun r hr => h.only r ((readers r).mp hr)⟩
    rw [hc, foundTarget, Option.map_some]

theorem stable_fusedActivation : Shortening.Stable fusedActivation where
  same := by
    intro net a b i m c change o ne away apart hk hr foundToo readsToo asks
    have nd : i ≠ m := by
      rintro rfl
      exact ne ((fusesInto_of_fusedActivation asks).only a (reads_of_single hk hr))
    have fuses := @fusesInto_shortcut net a b i change m c o away foundToo readsToo nd
    simp only [fusedActivation]
    by_cases fused : net.FusesInto a c i
    · rw [if_pos fused, if_pos (fuses.mpr fused)]
    · rw [if_neg fused, if_neg fun h => fused (fuses.mp h)]
  commute := by
    intro net a b i c o change changeToo ne hk hr foundToo readsToo asks asksToo
    exact absurd ((fusesInto_of_fusedActivation asksToo).only a (reads_of_single hk hr)) ne

end Network

namespace Program

variable {p q : Program} {k i : NodeKey} {n : Node} {failed : Fault → Prop}

/-! ## Bypasses of nodes of a program -/

/-- **Bypassing nodes ends alike in programs with the same network.** -/
theorem Sound.run_shorten_eq (hs : p.Sound) (o : q.Sound)
    (e : q.network = p.network) {rule : Network.Shortening} (stable : rule.Stable) :
    Network.run (Network.shorten rule) p.ids p.network =
      Network.run (Network.shorten rule) q.ids q.network := by
  have keeps : ∀ id net next, Network.Within p.network net →
      Network.shorten rule id net = some next → Network.Within p.network next :=
    fun id net next within shortened => Network.within_shorten within shortened
  apply hs.run_eq o e keeps _ (Network.within_refl p.network)
  intro net within a b ne free freeToo
  exact Network.shorten_comm stable ne (fun hr => free (within a b hr))
    fun hr => freeToo (within b a hr)

theorem Consistent.shorten_eq (wf : p.Consistent)
    (hk : p.node? k = some n) (rule : Network.Shortening) :
    Network.shorten rule n.id p.network = some (p.network.follow n.id
      (rule.request p.network n.id (p.cellAt k n))) := by
  rw [Network.shorten, wf.cell?_of_node? hk, Option.map_some]

/-- A node that does not read exactly one other is not bypassed. -/
theorem request_of_not_single (rule : Network.Shortening) (net : Network)
    (several : ∀ i, p.dependencies k ≠ [i]) : rule.request net n.id (p.cellAt k n) = none := by
  have hr : ∀ i, (p.cellAt k n).reads ≠ [i] := by
    intro i e
    obtain ⟨dep, only, -⟩ := map_eq_singleton_iff.mp e
    exact several dep only
  rw [Network.Shortening.request]
  split
  · next i e => exact absurd e (hr i)
  · rfl

theorem request_of_single (rule : Network.Shortening) (net : Network)
    (hr : p.dependencies k = [i]) : rule.request net n.id (p.cellAt k n) =
      (rule net n.id (p.cellAt k n) (p.idOf i)).map (p.idOf i, ·) := by
  have only : (p.cellAt k n).reads = [p.idOf i] := by
    rw [cellAt, hr]
    rfl
  rw [Network.Shortening.request, only]

/-- What a node reads can be looked up in the network. -/
theorem Consistent.cell?_idOf (wf : p.Consistent) (hv : p.contains i) :
    p.network.cell? (p.idOf i) = p.face? i := by
  obtain ⟨src, hk⟩ := contains_iff.mp hv
  rw [idOf_of_node? hk, wf.cell?_of_node? hk, face?_of_node? hk]

/-- **A node is bypassed as in the network.** -/
theorem Sound.network_bypass? (hs : p.Sound) (hk : p.node? k = some n) (hr : p.dependencies k = [i])
    (res : p.bypass? k = some q) : i ≠ k ∧ (∀ o, o ≠ k → q.node? o = p.node? o) ∧
      q.network = p.network.bypass n.id (p.idOf i) := by
  have wf := hs.consistent
  have ne : i ≠ k := fun e => hs.complete.not_self k (by simp [hr, e])
  obtain ⟨same, only, foundSame, readsSame, -, rfl⟩ := bypass?_eq_some.mp res
  cases hk.symm.trans foundSame
  cases hr.symm.trans readsSame
  exact ⟨ne, fun o away => by rw [node?_bypass wf hr hk, if_neg away], network_bypass wf hk hr ne⟩

theorem unmarked_of_isRedundantReorder (p : Program)
    (redundant : p.isRedundantReorder k n) : n.isOutput = false := by
  rw [isRedundantReorder] at redundant
  split at redundant
  · rw [Bool.and_eq_true, Bool.and_eq_true] at redundant
    simpa using redundant.1.1
  · cases redundant

theorem redundantReorder_eq (wf : p.Consistent) (hr : p.dependencies k = [i]) :
    Network.redundantReorder p.network n.id (p.cellAt k n) (p.idOf i) =
      if p.isRedundantReorder k n then some fun n => n else none := by
  have hv := (wf.reads_live k i (by simp [hr])).1
  obtain ⟨src, foundSrc⟩ := contains_iff.mp hv
  have e : Network.changesNothing (p.cellAt k n).toNode
      ((p.network.cell? (p.idOf i)).map toNode) = p.isRedundantReorder k n := by
    rw [wf.cell?_idOf hv, face?_of_node? foundSrc, isRedundantReorder, dependency?, hr,
      getElem?_cons_zero, Option.bind_some, foundSrc]
    rfl
  rw [Network.redundantReorder, e]

/-- **A redundant reorder is dropped as in the network.** -/
theorem ensures_dropReorder_shorten (hs : p.Sound) (hk : p.node? k = some n) :
    Ensures (Edit.dropReorder k) p (fun _ next => p.StaysBut k next ∧
        Network.shorten Network.redundantReorder n.id p.network = some next.network) failed := by
  rw [hs.consistent.shorten_eq hk]
  refine (ensures_dropReorder_cases hk).weaken ?_
  rintro _ next (⟨rfl, refused⟩ | ⟨redundant, res⟩)
  · refine ⟨staysBut_refl next k, ?_⟩
    by_cases single : ∃ i, next.dependencies k = [i]
    · obtain ⟨i, hr⟩ := single
      rw [request_of_single _ _ hr, redundantReorder_eq hs.consistent hr, if_neg]
      · rfl
      intro redundant
      have unmarked := next.unmarked_of_isRedundantReorder redundant
      cases (refused redundant).symm.trans (bypass?_eq_some.mpr ⟨n, i, hk, hr, unmarked, rfl⟩)
    · rw [request_of_not_single _ _ fun i hr => single ⟨i, hr⟩]
      rfl
  · obtain ⟨-, i, -, hr, -⟩ := bypass?_eq_some.mp res
    obtain ⟨-, nodes, network⟩ := hs.network_bypass? hk hr res
    rw [request_of_single _ _ hr, redundantReorder_eq hs.consistent hr, if_pos redundant, network,
      Option.map_some, Network.follow, Network.shortcut_unchanged]
    exact ⟨staysBut_of_ids fun o away => by rw [nodes o away], rfl⟩

/-- An activation can be fused into what it reads as in the network. -/
theorem fusesInto_iff (wf : p.Consistent) (hk : p.node? k = some n) (hr : p.dependencies k = [i]) :
    p.network.FusesInto n.id (p.cellAt k n) (p.idOf i) ↔ p.fusionTarget? k n = some i := by
  have mem : i ∈ p.dependencies k := by simp [hr]
  have hv := (wf.reads_live k i mem).1
  obtain ⟨src, foundSrc⟩ := contains_iff.mp hv
  have readers : (∀ r, p.network.Reads r src.id → r = n.id) ↔ p.users i = [k] := by
    rw [users_eq_singleton mem]
    constructor
    · intro only user readsToo
      exact wf.key_eq_of_idOf hk (wf.reads_live user i readsToo).2
        (only _ ((wf.reads_id_iff foundSrc).mpr ⟨user, readsToo, rfl⟩))
    · intro only r readsToo
      obtain ⟨user, isUser, rfl⟩ := (wf.reads_id_iff foundSrc).mp readsToo
      rw [only user isUser, idOf_of_node? hk]
  have hc := wf.cell?_of_node? foundSrc
  rw [fusionTarget?_eq_some, ← readers, idOf_of_node? foundSrc]
  constructor
  · intro h
    obtain ⟨c, foundCell, takes, free, unmarked⟩ := h.target
    rw [← Option.some.inj (hc.symm.trans foundCell)] at takes free unmarked
    exact ⟨hr, h.unmarked, h.only, src, foundSrc, takes, free, unmarked⟩
  · rintro ⟨-, unmarked, only, same, foundSame, takes, free, kept⟩
    cases foundSrc.symm.trans foundSame
    exact ⟨unmarked, ⟨_, hc, takes, free, kept⟩, only⟩

theorem blind_withFused (fn : Activation) :
    Node.Blind fun tgt => { tgt with fused := some fn } where
  id _ := rfl
  conflicts _ _ := rfl

/-- What a network asks for at an activation is what the program asks for. -/
theorem request_fusedActivation (wf : p.Consistent) (hk : p.node? k = some n) :
    Network.fusedActivation.request p.network n.id (p.cellAt k n) =
      (p.fusionTarget? k n).bind fun i =>
        (Network.activation? n.kind).map fun fn =>
          (p.idOf i, fun tgt => { tgt with fused := some fn }) := by
  by_cases single : ∃ i, p.dependencies k = [i]
  · obtain ⟨i, hr⟩ := single
    have fuses := fusesInto_iff wf hk hr
    rw [request_of_single _ _ hr]
    simp only [Network.fusedActivation]
    cases tgt : p.fusionTarget? k n with
    | none =>
      rw [if_neg fun h => Option.some_ne_none i ((fuses.mp h).symm.trans tgt)]
      rfl
    | some o =>
      obtain rfl : o = i := by
        have readsOther := (fusionTarget?_eq_some.mp tgt).1
        rw [hr] at readsOther
        exact (singleton_inj.mp readsOther).symm
      rw [if_pos (fuses.mpr tgt), Option.map_map, Option.bind_some]
      rfl
  · have several : ∀ i, p.dependencies k ≠ [i] := fun i hr =>
      single ⟨i, hr⟩
    rw [request_of_not_single _ _ several]
    cases tgt : p.fusionTarget? k n with
    | none => rfl
    | some i => exact absurd (fusionTarget?_eq_some.mp tgt).1 (several i)

/-- **An activation is fused as in the network.** -/
theorem ensures_fuse_shorten (hs : p.Sound) (hk : p.node? k = some n) :
    Ensures (Edit.fuse k) p (fun _ next => p.StaysBut k next ∧
        Network.shorten Network.fusedActivation n.id p.network = some next.network) failed := by
  have wf := hs.consistent
  rw [wf.shorten_eq hk, request_fusedActivation wf hk]
  refine (ensures_fuse_cases hk).weaken ?_
  rintro _ _ (⟨rfl, idle⟩ | ⟨fn, i, q, kind, tgt, res, rfl⟩)
  · refine ⟨staysBut_refl _ k, ?_⟩
    unfold Network.activation?
    split
    · next fn kind => rw [idle fn kind, Option.bind_none, Network.follow]
    · simp only [Option.map_none, Option.bind_fun_none, Network.follow]
  · obtain ⟨hr, -, -, src, foundSrc, -⟩ := fusionTarget?_eq_some.mp tgt
    obtain ⟨ne, nodes, network⟩ := hs.network_bypass? hk hr res
    have after := (wf.bypass? res).1
    have stays : q.node? i = some src := by rw [nodes i ne, foundSrc]
    refine ⟨fun o away alive => ?_, ?_⟩
    · obtain ⟨contained, sameId⟩ := staysBut_of_ids (fun o away => by rw [nodes o away]) o away alive
      have kept := staysBut_modifyBlind q i (blind_withFused fn) o contained
      exact ⟨kept.1, kept.2.trans sameId⟩
    rw [network_modifyNode (blind_withFused fn) after stays fun _ => rfl, kind, tgt]
    simp only [Network.activation?, Option.bind_some, Option.map_some, Network.follow,
      Network.shortcut]
    rw [← network, idOf_of_node? foundSrc, after.cell?_of_node? stays]
    rfl

end Program

namespace Build

open Program

variable {s : Session}

theorem yields_dropReorders (hs : s.program.Sound) : Yields dropReorders s
    (Network.run (Network.shorten Network.redundantReorder) s.program.ids s.program.network) :=
  yields_forM hs (fun h hv => (ensures_dropReorder h hv).weaken
    fun _ _ rewrites => rewrites.1.sound h) ensures_dropReorder_shorten

theorem yields_fuseActivations (hs : s.program.Sound) : Yields fuseActivations s
    (Network.run (Network.shorten Network.fusedActivation) s.program.ids s.program.network) :=
  yields_forM hs (fun h hv => (ensures_fuse h hv).weaken
    fun _ _ rewrites => rewrites.1.sound h) ensures_fuse_shorten

end Build

/-! ## Nodes of a program that nobody reads -/

namespace Program

variable {p q : Program} {k : NodeKey} {n : Node}

theorem Consistent.prunable_iff (wf : p.Consistent) (hk : p.node? k = some n) :
    p.network.Prunable n.id ↔ n.isOutput = false ∧ p.users k = [] := by
  have unread : (∀ r, ¬ p.network.Reads r n.id) ↔ p.users k = [] := by
    rw [eq_nil_iff_forall_not_mem]
    constructor
    · intro free user mem
      exact free (p.idOf user) ((wf.reads_id_iff hk).mpr ⟨user, mem_users_iff.mp mem, rfl⟩)
    · intro free r hr
      obtain ⟨user, mem, -⟩ := (wf.reads_id_iff hk).mp hr
      exact free user (mem_users_iff.mpr mem)
  rw [Network.Prunable, unread, wf.exists_cell_iff hk]
  rfl

/-- **A node that nobody reads is removed as in the network.** -/
theorem ensures_prune (wf : p.Consistent) (hk : p.node? k = some n) {failed : Fault → Prop} :
    Ensures (Edit.prune k) p (fun _ next => next.Consistent ∧ p.StaysBut k next ∧
      (∀ o m, next.node? o = some m → p.node? o = some m) ∧
      Network.prune n.id p.network = some next.network) failed := by
  rw [Edit.prune]
  apply ensures_attempt
  · intro q res
    have after := (wf.prune? res).1
    obtain ⟨e, foundSame, unmarked, unread, rfl⟩ := prune?_eq_some.mp res
    cases hk.symm.trans foundSame
    refine ⟨after, staysBut_of_ids fun o ne => ?_, fun o m h => ?_, ?_⟩
    · rw [node?_detachAndErase wf.slots hk, if_neg ne]
    · rw [node?_detachAndErase wf.slots hk] at h
      split at h
      · cases h
      · exact h
    · rw [Network.prune, if_pos ((wf.prunable_iff hk).mpr ⟨unmarked, unread⟩),
        network_detachAndErase wf hk]
  · intro refused
    refine ⟨wf, staysBut_refl p k, fun _ _ h => h, ?_⟩
    rw [Network.prune, if_neg]
    intro prunable
    obtain ⟨unmarked, unread⟩ := (wf.prunable_iff hk).mp prunable
    exact Option.some_ne_none _ ((prune?_eq_some.mpr ⟨n, hk, unmarked, unread, rfl⟩).symm.trans refused)

/-! ## Trimming -/

/-- Removing nodes strikes them. -/
theorem Consistent.network_removeAll (wf : p.Consistent) {ks : List NodeKey}
    (nd : ks.Nodup) (hv : ∀ k ∈ ks, p.contains k) :
    Network.run Network.remove (ks.map p.idOf) p.network = some (p.removeAll ks).network := by
  let remove (p : Program) (k : NodeKey) : Program := if p.contains k then p.detachAndErase k else p
  have round : ∀ k n st, Program.Consistent st → st.node? k = some n → Ensures (modify (remove · k)) st
      (fun _ next => (next.Consistent ∧ st.StaysBut k next) ∧ Network.remove n.id st.network = some
      next.network) fun _ => Network.remove n.id st.network = none := by
    intro k n st h hk
    have removed : remove st k = st.detachAndErase k := if_pos (contains_of_node? hk)
    rw [ensures_modify, removed]
    refine ⟨⟨h.detachAndErase hk, staysBut_of_ids fun o ne => ?_⟩,
      congrArg some (network_detachAndErase h hk).symm⟩
    rw [node?_detachAndErase h.slots hk, if_neg ne]
  have loop := ensures_forM_run (fun _ => Consistent) (fun k _ => round k) nd hv wf
  exact (loop.of_ok (forM_modify remove ks p)).2

/-- What an output depends on is needed in the network. -/
theorem Consistent.needed_iff (wf : p.Consistent) (hk : p.node? k = some n) :
    p.network.Needed n.id ↔ p.ServesOutput k := by
  constructor
  · rintro ⟨output, c, hc, hm, path⟩
    obtain ⟨start, st, foundStart, rfl, rfl⟩ := wf.exists_node_of_cell? hc
    refine ⟨start, (wf.mem_outputs start).mpr ⟨st, foundStart, hm⟩, ?_⟩
    rw [← idOf_of_node? foundStart, Relation.reflTransGen_iff_eq_or_transGen] at path
    obtain e | path := path
    · obtain rfl := wf.key_eq_of_idOf hk (contains_of_node? foundStart) e.symm
      exact .refl
    · obtain ⟨tgt, hv, e, feeds⟩ := wf.exists_feeds (contains_of_node? foundStart) path
      obtain rfl := wf.key_eq_of_idOf hk hv e
      exact Relation.TransGen.to_reflTransGen (Relation.transGen_swap.mpr feeds)
  · rintro ⟨start, hl, path⟩
    obtain ⟨st, foundStart, hm⟩ := (wf.mem_outputs start).mp hl
    refine ⟨st.id, _, wf.cell?_of_node? foundStart, hm, ?_⟩
    rw [← idOf_of_node? foundStart, ← idOf_of_node? hk]
    exact path.lift p.idOf fun k dep mem =>
      wf.reads_of_dependency mem

/-- **The dead nodes of a program are those of its network.** -/
theorem Sound.dead_ids (hs : p.Sound) : ∃ dead, p.deadKeys = .ok dead ∧
    dead.Nodup ∧ (∀ k ∈ dead, p.contains k) ∧ (dead.map p.idOf).Nodup ∧
    ∀ id, id ∈ dead.map p.idOf ↔ p.network.Dead id := by
  obtain ⟨dead, res, inOrder, members⟩ := hs.deadKeys
  have hv : ∀ k ∈ dead, p.contains k := by
    intro k mem
    obtain ⟨-, n, hk, -⟩ := (members k).mp mem
    exact contains_of_node? hk
  have nd : dead.Nodup := inOrder ▸ hs.complete.nodup.filter _
  refine ⟨dead, res, nd, hv, hs.consistent.nodup_map_idOf nd hv, fun id => ?_⟩
  refine hs.consistent.mem_map_idOf p.network.Dead hv ?_ fun k n hk => ?_
  · rintro id ⟨-, c, hc, -⟩
    exact ⟨c, hc⟩
  · rw [members, Network.Dead, hs.consistent.needed_iff hk, hs.consistent.exists_cell_iff hk, hk]
    simp only [Option.some.injEq, exists_eq_left']
    rfl

end Program

namespace Build

theorem yields_trim {s : Session} (hs : s.program.Sound) : ∃ ids : List String,
    ids.Nodup ∧ (∀ id, id ∈ ids ↔ s.program.network.Dead id) ∧
      Yields trim s (Network.run Network.remove ids s.program.network) := by
  obtain ⟨dead, res, nd, hv, nodupIds, members⟩ := hs.dead_ids
  refine ⟨_, nodupIds, members, ?_⟩
  simp only [Yields, trim, ensures_bind, ensures_program, res, Checked.lift, ensures_pure,
    ensures_modifyProgram]
  exact ⟨hs.consistent.network_removeAll nd hv, trivial⟩

end Build

end LayerGraph
