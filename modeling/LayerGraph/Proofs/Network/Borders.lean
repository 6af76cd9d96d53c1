import LayerGraph.Proofs.Network.Insertion

/-!
# Borders in networks

What a window asks for can be told from its node and from what the node reads first (`Room.asked`):
nothing, a wider border of what is read, or a reorder with the border in front of the node. Neither
depends on borders that are there already, nor on what is put in front of other nodes. Borders are
merged as least upper bounds, in any order. So room can be made for windows in any order
(`Network.run_makeRoom_eq`).
-/

namespace LayerGraph

open List Option Node

/-! ## What windows ask for -/

/-- A node without borders and notes about conflicts. -/
def Node.borderless (node : Node) : Node :=
  { node with padding := {}, layout := node.layout.map Layout.bare, conflicts := [] }

/-- The id of the reorder that gives a border to what a node reads. -/
def paddedId (source reader : String) : String := s!"{source}_padding_reorder_{reader}"

/-- The reorder that gives a border to what a node reads, as it is inserted. -/
def paddedCell (source : Node) (reader : String) (layout : Layout) (padding : Padding) : Cell :=
  (insertedCell (.paddedReorder source.id reader layout.format padding) source).withNode
    (·.withLayout (some layout))

/-- How room is made for a window. -/
inductive Room where
  | idle
  /-- What is read gets a wider border. -/
  | merged (input : String) (padding : Padding)
  /-- A reorder with a border is put in front of the reader. -/
  | inserted (fresh : Cell)

namespace Room

/-- How a border is given to what a node reads. -/
def ofBorder (source : Node) (reader : String) (layout : Layout) (padding : Padding) : Room :=
  if padding.isZero then idle
  else if source.tag = .inputLayout ∨ source.tag = .data then
    inserted (paddedCell source reader layout padding)
  else merged source.id padding

/-- What a node asks for, given what it reads first. There is no answer when the border cannot be
computed. -/
def asked (handling : Bool) (reader : Node) (source : Option Node) : Option Room :=
  match source.bind fun source => source.layout.map (source, ·) with
  | none => some idle
  | some (source, lay) => (reader.kind.neededBorder handling lay).toOption.map fun border =>
    border.elim idle (ofBorder source reader.id lay)

end Room

namespace Network

variable {net next : Network} {id a b : String} {handling : Bool} {room m : Room}
  {rewiring : String → List String → List String} {change : Node → Node}

/-- What the window of a node asks for. -/
def room? (handling : Bool) (id : String) (net : Network) : Option Room :=
  (net.cell? id).bind fun cell => Room.asked handling cell.toNode
    ((cell.reads.head?.bind net.cell?).map fun source => source.toNode.borderless)

/-- Changes the node of an id, if there is one. -/
def modify (net : Network) (id : String) (change : Node → Node) : Network :=
  net.put id ((net.cell? id).map (·.withNode change))

/-- Makes room, unless the id of a reorder is taken. -/
def give (reader : String) : Room → Network → Option Network
  | .idle, net => some net
  | .merged i pad, net => some (net.modify i (·.mergePadding pad))
  | .inserted fr, net =>
    net.tryInsert fr fun id reads => if id = reader then reads.set 0 fr.id else reads

/-- The id of the reorder that a node asks for is taken. -/
def Obstructed (handling : Bool) (net : Network) (id : String) : Prop :=
  ∃ fresh, net.room? handling id = some (.inserted fresh) ∧ net.has fresh.id

/-- Makes room for the window of a node. -/
def makeRoom (handling : Bool) (id : String) (net : Network) : Option Network :=
  (net.room? handling id).bind fun room => net.give id room

/-- Cells stand under their ids, and everything that is read is there. -/
structure Closed (net : Network) : Prop where
  named : ∀ id cell, net.cell? id = some cell → cell.id = id
  there : ∀ reader source, net.Reads reader source → net.has source

/-- A node asks for nothing, or for a border around what it reads first. -/
theorem room?_cases (closed : net.Closed) (asked : net.room? handling id = some room) :
    room = .idle ∨ ∃ c src read lay pad, net.cell? id = some c ∧
      c.reads.head? = some src ∧ net.cell? src = some read ∧ read.id = src ∧
      read.layout = some lay ∧ room = .ofBorder read.toNode.borderless id lay.bare pad := by
  obtain ⟨c, hk, made⟩ := bind_eq_some_iff.mp asked
  cases hc : c.reads.head?.bind net.cell? with
  | none =>
    rw [hc] at made
    exact .inl (some.inj made).symm
  | some read =>
    obtain ⟨src, head, foundRead⟩ := bind_eq_some_iff.mp hc
    rw [hc, map_some, Room.asked, bind_some] at made
    cases kn : read.layout with
    | none =>
      have unknown : read.toNode.borderless.layout = none := by rw [borderless, kn]; rfl
      rw [unknown] at made
      exact .inl (some.inj made).symm
    | some lay =>
      have bare : read.toNode.borderless.layout = some lay.bare := by
        rw [borderless, kn]
        rfl
      rw [bare, map_some] at made
      obtain ⟨border, computed, rfl⟩ := map_eq_some_iff.mp made
      cases border with
      | none => exact .inl rfl
      | some pad =>
        refine .inr ⟨c, src, read, lay, pad, hk, head, foundRead,
          closed.named src read foundRead, kn, ?_⟩
        rw [← closed.named id c hk]
        rfl

theorem cell?_modify (net : Network) (id o : String) (change : Node → Node) :
    (net.modify id change).cell? o =
      if o = id then (net.cell? id).map (·.withNode change) else net.cell? o := rfl

variable {c fr : Cell} {i o : String}

theorem Closed.has_first {src : String} (closed : net.Closed) (hk : net.cell? id = some c) (head :
    c.reads.head? = some src) : net.has src :=
  closed.there id src ⟨c, hk, mem_of_mem_head? head⟩

/-- What a node asks for follows from the node and what it reads first, without borders. -/
theorem room?_congr (n : net.cell? id = some c) (e : ∃ after, next.cell? id = some after ∧
    after.toNode.borderless = c.toNode.borderless ∧ after.reads = c.reads) (sources : ∀ src,
    c.reads.head? = some src → (next.cell? src).map (·.toNode.borderless) = (net.cell? src).map
    (·.toNode.borderless)) : next.room? handling id = net.room? handling id := by
  obtain ⟨after, hk, borderless, hr⟩ := e
  have sameSource : (after.reads.head?.bind next.cell?).map (·.toNode.borderless) =
      (c.reads.head?.bind net.cell?).map (·.toNode.borderless) := by
    rw [hr]
    cases head : c.reads.head? with
    | none => rfl
    | some src => exact sources src head
  have asked : ∀ src, Room.asked handling after.toNode src =
      Room.asked handling c.toNode src := fun src =>
    show Room.asked handling after.toNode.borderless src =
      Room.asked handling c.toNode.borderless src by rw [borderless]
  rw [room?, room?, n, hk, bind_some, bind_some, asked, sameSource]

theorem borderless_mergePadding (n : Node) (pad : Padding) :
    (n.mergePadding pad).borderless = n.borderless := by
  have lays : (n.mergePadding pad).layout.map Layout.bare = n.layout.map Layout.bare := by
    rw [mergePadding, withPadding, Option.map_map]
    rfl
  rw [borderless, lays]
  rfl

/-- What a node asks for does not depend on the room that is made for another one. -/
theorem room?_give (closed : net.Closed) (ne : a ≠ b) (there : net.has b)
    (h : net.give a room = some next) : next.room? handling b = net.room? handling b := by
  obtain ⟨c, hk⟩ := there
  cases room with
  | idle =>
    cases h
    rfl
  | merged i pad =>
    cases h
    have view : ∀ id, ((net.modify i (·.mergePadding pad)).cell? id).map
        (fun c => (c.toNode.borderless, c.reads)) =
          (net.cell? id).map fun c => (c.toNode.borderless, c.reads) := by
      intro id
      rw [cell?_modify]
      split
      · next isInput =>
        rw [isInput, Option.map_map]
        congr 1
        funext c
        exact Prod.ext (borderless_mergePadding c.toNode pad) rfl
      · rfl
    apply room?_congr hk
    · have after := view b
      rw [hk, map_some] at after
      obtain ⟨after, hc, e⟩ := map_eq_some_iff.mp after
      exact ⟨after, hc, congrArg Prod.fst e, congrArg Prod.snd e⟩
    · intro src _
      have after := congrArg (Option.map Prod.fst) (view src)
      rw [Option.map_map, Option.map_map] at after
      exact after
  | inserted fr =>
    obtain ⟨free, rfl⟩ := tryInsert_eq_some.mp h
    apply room?_congr hk
    · rw [cell?_insert, if_neg (ne_of_free ⟨c, hk⟩ free), hk, map_some]
      exact ⟨_, rfl, rfl, if_neg ne.symm⟩
    · intro src head
      rw [cell?_insert, if_neg (ne_of_free (closed.has_first hk head) free), Option.map_map]
      rfl

/-! ## Room in any order -/

theorem modify_comm {changeToo : Node → Node} (commute : i = o → ∀ n, change (changeToo n) = changeToo
    (change n)) : (net.modify i change).modify o changeToo = (net.modify o changeToo).modify i change :=
    by
  apply Network.ext
  · funext id
    simp only [cell?_modify]
    by_cases e : i = o
    · subst e
      simp only [if_true]
      split
      · rw [Option.map_map, Option.map_map]
        congr 1
        funext c
        show c.withNode (fun n => changeToo (change n)) = c.withNode fun n => change (changeToo n)
        rw [funext (commute rfl)]
      · rfl
    · rw [if_neg (Ne.symm e), if_neg e]
      by_cases isOther : id = o
      · rw [if_pos isOther, if_neg fun h => e (h.symm.trans isOther), if_pos isOther]
      · rw [if_neg isOther, if_neg isOther]
  · rfl

/-- A node that is there can be changed before or after a cell is added. -/
theorem tryInsert_modify (there : net.has i) : (net.modify i change).tryInsert fr rewiring =
    (net.tryInsert fr rewiring).map (·.modify i change) := by
  obtain ⟨c, hk⟩ := there
  have e : ((net.modify i change).cell? fr.id).isSome = (net.cell? fr.id).isSome := by
    rw [cell?_modify]
    split
    · next isInput => rw [isInput, isSome_map]
    · rfl
  rw [tryInsert, tryInsert, e]
  split
  · rfl
  · next free =>
    have apart : i ≠ fr.id := fun h => free (by rw [← h, hk]; rfl)
    rw [map_some]
    congr 1
    apply Network.ext
    · funext id
      simp only [cell?_insert, cell?_modify]
      by_cases isFresh : id = fr.id
      · rw [if_pos isFresh, if_neg fun h => apart (h.symm.trans isFresh), if_pos isFresh]
      · rw [if_neg isFresh, if_neg isFresh, if_neg apart]
        split
        · next isInput =>
          rw [isInput, Option.map_map, Option.map_map]
          rfl
        · rfl
    · rfl

theorem toNat_max_word (a b : UInt32) : (max a b).toNat = max a.toNat b.toNat := by
  show (if a ≤ b then b else a).toNat = _
  split
  · next smaller =>
    have ordered := UInt32.le_iff_toNat_le.mp smaller
    omega
  · next larger =>
    have ordered := mt UInt32.le_iff_toNat_le.mpr larger
    omega

theorem max_word_right_comm (a b third : UInt32) : max (max a b) third = max (max a third) b := by
  apply UInt32.toNat_inj.mp
  simp only [toNat_max_word]
  omega

theorem mergePadding_comm (n : Node) (a b : Padding) :
    (n.mergePadding a).mergePadding b = (n.mergePadding b).mergePadding a := by
  have merges : (n.padding.merge a).merge b = (n.padding.merge b).merge a := by
    simp only [Padding.merge, max_word_right_comm]
  have twice : ∀ one m : Padding, (n.mergePadding one).mergePadding m =
      n.withPadding ((n.padding.merge one).merge m) := by
    intro one m
    simp only [mergePadding, withPadding, Option.map_map]
    rfl
  rw [twice, twice, merges]

/-- What gets a wider border is there. -/
theorem has_of_merged {pad : Padding} (closed : net.Closed) (asked : net.room? handling id = some
    (.merged i pad)) : net.has i := by
  obtain idle | ⟨c, src, read, lay, border, hk, head, foundRead, named, -, made⟩ :=
    room?_cases closed asked
  · cases idle
  · rw [Room.ofBorder] at made
    split at made
    · cases made
    · split at made
      · cases made
      · cases made
        exact ⟨read, named ▸ foundRead⟩

/-- A reorder is put in front of a node that reads a network input or a constant buffer. -/
theorem exists_of_inserted (closed : net.Closed) (asked : net.room? handling id = some (.inserted fr))
    : ∃ c read lay pad, net.cell? id = some c ∧ c.reads.head? = some read.id ∧ net.cell? read.id =
    some read ∧ (read.tag = .inputLayout ∨ read.tag = .data) ∧ pad.isZero = false ∧ fr =
    paddedCell read.toNode.borderless id lay pad := by
  obtain idle | ⟨c, src, read, lay, border, hk, head, foundRead, rfl, -, made⟩ :=
    room?_cases closed asked
  · cases idle
  · rw [Room.ofBorder] at made
    split at made
    · cases made
    · next wide =>
      split at made
      · next tag =>
        cases made
        exact ⟨c, read, lay.bare, border, hk, head, foundRead, tag, Bool.eq_false_iff.mpr wide, rfl⟩
      · cases made

theorem give_comm (closed : net.Closed) (ne : a ≠ b) (there : net.has a)
    (thereToo : net.has b) (asked : net.room? handling a = some room)
    (askedToo : net.room? handling b = some m) : (net.give a room).bind (give b m) =
      (net.give b m).bind (give a room) := by
  cases room with
  | idle => exact (bind_some _ _).trans (bind_fun_some _).symm
  | merged i pad =>
    cases m with
    | idle => rfl
    | merged o border =>
      exact congrArg some (modify_comm fun _ n => mergePadding_comm n border pad)
    | inserted fr =>
      rw [give, bind_some, give, tryInsert_modify (has_of_merged closed asked)]
      exact map_eq_bind
  | inserted fr =>
    cases m with
    | idle => exact (bind_fun_some _).trans (bind_some _ _).symm
    | merged o border =>
      rw [give, give, bind_some, give, tryInsert_modify (has_of_merged closed askedToo)]
      exact map_eq_bind.symm
    | inserted freshToo =>
      apply tryInsert_comm
      · exact fun free => if_neg (ne_of_free thereToo free).symm
      · exact fun free => if_neg (ne_of_free there free).symm
      · intro _ _ id _ hr
        by_cases isFirst : id = a
        · have notSecond : id ≠ b := fun h => ne (isFirst.symm.trans h)
          simp only [if_pos isFirst, if_neg notSecond]
        · simp only [if_neg isFirst]

/-- Making room for two windows can be exchanged. -/
theorem makeRoom_comm (closed : net.Closed) (ne : a ≠ b) (there : net.has a) (thereToo : net.has b) :
    (net.makeRoom handling a).bind (makeRoom handling b) = (net.makeRoom handling b).bind (makeRoom
    handling a) :=
  exchange_of_requests (fun _ _ _ h => room?_give closed ne thereToo h) (fun _ _ _ h => room?_give closed
    ne.symm there h) fun _ _ asked askedToo => give_comm closed ne there thereToo asked askedToo

theorem has_modify (there : net.has id) : (net.modify i change).has id := by
  obtain ⟨c, hk⟩ := there
  rw [has, cell?_modify]
  split
  · next isInput => exact ⟨_, by rw [← isInput, hk, map_some]⟩
  · exact ⟨c, hk⟩

theorem has_insert (there : net.has id) : (net.insert fr rewiring).has id := by
  obtain ⟨c, hk⟩ := there
  rw [has, cell?_insert]
  split
  · exact ⟨fr, rfl⟩
  · exact ⟨_, by rw [hk, map_some]⟩

/-- Making room leaves all nodes there. -/
theorem has_give (h : net.give id room = some next) (there : net.has o) : next.has o := by
  cases room with
  | idle =>
    cases h
    exact there
  | merged i pad =>
    cases h
    exact has_modify there
  | inserted fr =>
    obtain ⟨-, rfl⟩ := tryInsert_eq_some.mp h
    exact has_insert there

theorem Closed.modify (closed : net.Closed) (ids : ∀ n, (change n).id = n.id) : (net.modify i
    change).Closed := by
  have cells : ∀ id after, (net.modify i change).cell? id = some after →
      ∃ c, net.cell? id = some c ∧ after.id = c.id ∧ after.reads = c.reads := by
    intro id after hk
    rw [cell?_modify] at hk
    split at hk
    · next isInput =>
      obtain ⟨c, hc, rfl⟩ := map_eq_some_iff.mp hk
      exact ⟨c, isInput ▸ hc, ids c.toNode, rfl⟩
    · exact ⟨after, hk, rfl, rfl⟩
  constructor
  · intro id after hk
    obtain ⟨c, hc, sameId, -⟩ := cells id after hk
    rw [sameId, closed.named id c hc]
  · rintro r src ⟨after, hk, mem⟩
    obtain ⟨c, hc, -, sameReads⟩ := cells r after hk
    exact has_modify (closed.there r src ⟨c, hc, sameReads ▸ mem⟩)

theorem Closed.insert (closed : net.Closed) (there : ∀ src ∈ fr.reads, net.has src) (rewired : ∀ id
    hr, ∀ src ∈ rewiring id hr, src = fr.id ∨ src ∈ hr) : (net.insert fr rewiring).Closed := by
  have new : (net.insert fr rewiring).has fr.id := ⟨fr, if_pos rfl⟩
  constructor
  · intro id after hk
    rw [cell?_insert] at hk
    split at hk
    · next isFresh =>
      cases hk
      exact isFresh.symm
    · obtain ⟨c, hc, rfl⟩ := map_eq_some_iff.mp hk
      exact closed.named id c hc
  · rintro r src ⟨after, hk, mem⟩
    rw [cell?_insert] at hk
    split at hk
    · cases hk
      exact has_insert (there src mem)
    · obtain ⟨c, hc, rfl⟩ := map_eq_some_iff.mp hk
      obtain rfl | old := rewired r c.reads src mem
      · exact new
      · exact has_insert (closed.there r src ⟨c, hc, old⟩)

theorem Closed.makeRoom (closed : net.Closed) (made : net.makeRoom handling id = some next) :
    next.Closed := by
  obtain ⟨room, asked, h⟩ := bind_eq_some_iff.mp made
  cases room with
  | idle =>
    cases h
    exact closed
  | merged i pad =>
    cases h
    exact closed.modify fun _ => rfl
  | inserted fr =>
    obtain ⟨-, rfl⟩ := tryInsert_eq_some.mp h
    apply closed.insert
    · obtain ⟨-, read, lay, pad, -, -, foundRead, -, -, rfl⟩ := exists_of_inserted closed asked
      intro src mem
      rw [mem_singleton.mp mem]
      exact ⟨read, foundRead⟩
    · intro id hr src mem
      split at mem
      · exact (mem_or_eq_of_mem_set mem).symm
      · exact .inr mem

/-- **Room for windows is made alike in any order.** -/
theorem run_makeRoom_eq {ids others : List String} (closed : net.Closed)
    (there : ∀ id ∈ ids, net.has id) (perm : ids.Perm others) :
    run (makeRoom handling) ids net = run (makeRoom handling) others net := by
  have keeps : ∀ id st after, Closed st ∧ (∀ id ∈ ids, st.has id) →
      makeRoom handling id st = some after → Closed after ∧ ∀ id ∈ ids, after.has id := by
    intro id st after h made
    obtain ⟨room, -, gave⟩ := bind_eq_some_iff.mp made
    exact ⟨h.1.makeRoom made, fun o mem => has_give gave (h.2 o mem)⟩
  exact run_eq_of_exchanges keeps (fun st h a inFirst b inSecond ne =>
    makeRoom_comm h.1 ne (h.2 a inFirst) (h.2 b inSecond)) perm
    ⟨closed, there⟩

end Network

/-! ## Room in programs -/

namespace Program

variable {p q : Program} {k : NodeKey} {n : Node} {handling : Bool}

theorem Consistent.closed (wf : p.Consistent) : p.network.Closed where
  named id c hk := by
    obtain ⟨k, n, -, sameId, rfl⟩ := wf.exists_node_of_cell? hk
    exact sameId
  there _ _ hr := wf.has_of_reads hr

/-- What a node reads first in the network. -/
theorem Consistent.first_cellAt (wf : p.Consistent) (k : NodeKey) (n : Node) :
    ((p.cellAt k n).reads.head?.bind p.network.cell?).map Cell.toNode =
      ((p.dependency? k 0).bind p.node?).map p.shown := by
  rw [dependency?, cellAt, head?_map, head?_eq_getElem?]
  cases a : (p.dependencies k)[0]? with
  | none => rfl
  | some i =>
    have hv := (wf.reads_live k i (mem_of_getElem? a)).1
    obtain ⟨read, foundRead⟩ := contains_iff.mp hv
    rw [map_some, bind_some, bind_some, idOf_of_node? foundRead, wf.cell?_of_node? foundRead, foundRead]
    rfl

/-- What a node asks for in the network. -/
theorem Consistent.room?_eq (wf : p.Consistent) (hk : p.node? k = some n) :
    p.network.room? handling n.id = Room.asked handling n
      (((p.dependency? k 0).bind p.node?).map borderless) := by
  have src : ((p.cellAt k n).reads.head?.bind p.network.cell?).map
      (·.toNode.borderless) = ((p.dependency? k 0).bind p.node?).map borderless :=
    calc _ = (((p.cellAt k n).reads.head?.bind p.network.cell?).map
            Cell.toNode).map borderless := (Option.map_map _ _ _).symm
      _ = _ := by
        rw [wf.first_cellAt, Option.map_map]
        rfl
  rw [Network.room?, wf.cell?_of_node? hk, bind_some, src]
  rfl

theorem blind_mergePadding (pad : Padding) : Node.Blind (·.mergePadding pad) where
  id _ := rfl
  conflicts _ _ := rfl

theorem blind_withLayout (lay : Option Layout) : Node.Blind (·.withLayout lay) where
  id _ := rfl
  conflicts _ _ := rfl

section Widen

variable {i : NodeKey} {src : Node} {lay : Layout} {pad : Padding}
  (hs : p.Sound) (hk : p.node? k = some n)
include hs hk

/-- What a node asks for in the network, when the layout of what it reads first is known. -/
theorem Sound.room?_of_known (hr : p.dependency? k 0 = some i) (foundSrc : p.node? i = some src)
    (kn : src.layout = some lay) : p.network.room? handling n.id =
      (n.kind.neededBorder handling lay).toOption.map fun border =>
        border.elim .idle (.ofBorder src.borderless n.id lay.bare) := by
  have bare : src.borderless.layout = some lay.bare := by
    rw [borderless, kn]
    rfl
  rw [hs.consistent.room?_eq hk, hr, bind_some, foundSrc, map_some, Room.asked, bind_some, bare, map_some]
  rfl

/-- A border is given to what a node reads as in the network. -/
theorem Widens.network (hr : p.dependency? k 0 = some i)
    (needs : n.kind.neededBorder handling lay = .ok (some pad)) (wide : ¬ pad.isZero)
    (widens : Widens p k n i lay pad q) :
    p.StaysBut k q ∧ p.network.makeRoom handling n.id = some q.network := by
  have wf := hs.consistent
  cases widens with
  | @merged src foundSrc kn tag =>
    have room : p.network.room? handling n.id = some (.merged src.id pad) := by
      rw [hs.room?_of_known hk hr foundSrc kn, needs]
      exact congrArg some ((if_neg wide).trans (if_neg tag))
    refine ⟨fun o _ => staysBut_modifyBlind p i (blind_mergePadding pad) o, ?_⟩
    rw [Network.makeRoom, room, bind_some, Network.give, Network.modify, wf.cell?_of_node? foundSrc,
      map_some, network_modifyNode (blind_mergePadding pad) wf foundSrc fun _ => rfl]
  | @inserted src mid inserted foundSrc kn tag soundMiddle ins takes =>
    have room : p.network.room? handling n.id =
        some (.inserted (paddedCell src.borderless n.id lay.bare pad)) := by
      rw [hs.room?_of_known hk hr foundSrc kn, needs]
      exact congrArg some ((if_neg wide).trans (if_pos tag))
    have free : p.network.cell? (paddedId src.id n.id) = none := cell?_of_unused ins.unused
    have foundNew := takes.nodes inserted
    rw [if_pos rfl] at foundNew
    have network := network_modifyNode (blind_withLayout (some ⟨lay.format, lay.shape, pad⟩))
      soundMiddle.consistent foundNew fun _ => rfl
    rw [ins.cellAt takes wf foundSrc, ins.network takes wf foundSrc soundMiddle.consistent hk,
      windowReorder, kn] at network
    refine ⟨fun o _ hv => ?_, ?_⟩
    · obtain ⟨st, ho⟩ := contains_iff.mp hv
      refine stays_of_node? ho ?_ rfl
      rw [node?_modifyNode, if_neg (ins.different hv), takes.nodes, if_neg (ins.different hv), ho]
    · rw [Network.makeRoom, room, bind_some, Network.give, Network.tryInsert_of_free free, network]
      have ids : ∀ fr : Node, (fr.withLayout
          (some ⟨lay.format, lay.shape, pad⟩)).id = fr.id := fun _ => rfl
      exact congrArg some (Network.put_insert ids _).symm

/-- **Room is made for a window as in the network.** -/
theorem Sound.makeRoom :
    Ensures (Edit.prepareWindow handling k) p (fun _ next => p.StaysBut k next ∧
        p.network.makeRoom handling n.id = some next.network)
      (fun fault => p.network.makeRoom handling n.id = none ∧
        (fault = .aborted .overflow ∨ p.network.Obstructed handling n.id)) := by
  have wf := hs.consistent
  have idle (nothing : p.network.room? handling n.id = some .idle) : p.StaysBut k p ∧ p.network.makeRoom
        handling n.id = some p.network := ⟨staysBut_refl p k, by rw [Network.makeRoom, nothing]; rfl⟩
  have asked {lay : Layout} (kn : p.firstInputLayout? k = some lay) : ∃ src : Node,
      p.network.room? handling n.id = (n.kind.neededBorder handling lay).toOption.map fun border =>
        border.elim .idle (.ofBorder src.borderless n.id lay.bare) := by
    obtain ⟨src, read, kn⟩ := bind_eq_some_iff.mp kn
    obtain ⟨i, hr, foundSrc⟩ := bind_eq_some_iff.mp read
    exact ⟨src, hs.room?_of_known hk hr foundSrc kn⟩
  refine (ensures_prepareWindow_cases handling hs hk).mono ?_ ?_
  · intro _ next prep
    cases prep with
    | unknown missing =>
      refine idle ?_
      rw [wf.room?_eq hk]
      cases read : (p.dependency? k 0).bind p.node? with
      | none => rfl
      | some src =>
        have unknown : src.layout = none := by rwa [firstInputLayout?, read, bind_some] at missing
        rw [map_some, Room.asked, bind_some, borderless, unknown]
        rfl
    | @enough lay border kn needs small =>
      obtain ⟨src, room⟩ := asked kn
      refine idle ?_
      rw [room, needs]
      cases border with
      | none => rfl
      | some pad => exact congrArg some (if_pos (small pad rfl))
    | widened hr _ needs wide widens => exact widens.network hs hk hr needs wide
  · intro fault fails
    cases fails with
    | overflow kn stopped =>
      obtain ⟨src, room⟩ := asked kn
      refine ⟨?_, .inl rfl⟩
      rw [Network.makeRoom, room, stopped]
      rfl
    | @taken i lay pad _ hr kn needs wide taken =>
      obtain ⟨src, foundSrc, tag, taken, -⟩ := taken
      have room : p.network.room? handling n.id =
          some (.inserted (paddedCell src.borderless n.id lay.bare pad)) := by
        rw [hs.room?_of_known hk hr foundSrc ((firstInputLayout?_eq hr foundSrc).symm.trans kn), needs]
        exact congrArg some ((if_neg wide).trans (if_pos tag))
      have named : p.network.has (paddedId src.id n.id) := wf.hasId_iff_has.mp taken
      refine ⟨?_, .inr ⟨_, room, named⟩⟩
      obtain ⟨c, isTaken⟩ := named
      rw [Network.makeRoom, room, bind_some]
      exact Network.tryInsert_of_taken (isSome_of_eq_some isTaken)

end Widen

end Program

namespace Build

open Program

theorem yields_prepareWindows {s : Session} (hs : s.program.Sound) :
    Yields prepareWindows s (Network.run (Network.makeRoom s.outputSizeHandling)
      s.program.ids s.program.network) := by
  rw [prepareWindows]
  apply yields_forM hs
  · intro st k h hv
    exact (ensures_prepareWindow _ h hv).mono fun _ _ rewrites => rewrites.1.sound h
  · intro st k n h hk
    exact (h.makeRoom hk).mono (fun _ _ made => made) fun _ failed => failed.1

end Build

end LayerGraph
