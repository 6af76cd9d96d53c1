import LayerGraph.Memory.Conflicts
import LayerGraph.Proofs.Program.Consistent

/-!
# What stands behind a node

The value of a node lies in a buffer: its own one, or, when the node runs in place, the buffer
behind what it reads (`Program.BackedBy`). In a program with a complete order in which nodes that
run in place read exactly one node, there is exactly one such buffer for every node
(`exists_backedBy`, `BackedBy.unique`).

The readers that the build collects for a buffer are all of them: whoever reads a node behind which
the buffer stands is found by following the nodes that run in place (`mem_bufferUsers`). So the
range of positions of a buffer covers the positions of its readers (`position_le_stop`), and goes to
the end when an output lies in the buffer (`stop_of_output`).
-/

namespace LayerGraph

open List Option

/-- What the buffers of a program depend on in a node. -/
def Node.role (node : Node) : KindTag × Bool × Bool := (node.tag, node.runsInPlace, node.isOutput)

namespace Program

variable {p : Program} {k i root reader : NodeKey}

/-- Whether a node runs in place. -/
def runsInPlace (program : Program) (key : NodeKey) : Bool :=
  (program.node? key).any (·.runsInPlace)

/-- Whether a node is a constant buffer. -/
def isConstantBuffer (program : Program) (key : NodeKey) : Bool :=
  (program.node? key).any (·.tag == .data)

/-- Whether a node has a buffer of its own. -/
def ownsBuffer (program : Program) (key : NodeKey) : Bool :=
  (program.node? key).any fun node => !(node.tag == .data || node.runsInPlace)

/-- Whether a node is marked as an output. -/
def isOutput (program : Program) (key : NodeKey) : Bool := (program.node? key).any (·.isOutput)

/-- The value of a node lies in the buffer of another one: its own, unless it runs in place. -/
inductive BackedBy (program : Program) : NodeKey → NodeKey → Prop
  | itself {key : NodeKey} (own : program.runsInPlace key = false) : BackedBy program key key
  | inPlace {key input root : NodeKey} (shares : program.runsInPlace key = true)
      (reads : program.dependencies key = [input]) (behind : BackedBy program input root) :
      BackedBy program key root

/-- Every node that runs in place reads exactly one node. -/
def InPlaceReadsOne (program : Program) : Prop :=
  ∀ key, program.runsInPlace key → ∃ input, program.dependencies key = [input]

/-- Every live node is registered. -/
def Registered (program : Program) : Prop := ∀ key, program.contains key → key ∈ program.keys

theorem aliases_true (p : Program) (k : NodeKey) :
    p.aliases true k = p.runsInPlace k := Bool.true_and _

variable {property : Node → Bool} {pos : Nat} {n : Node}

theorem exists_node_of_any (holds : (p.node? k).any property) : ∃ n, p.node? k = some n ∧ property n :=
    by
  cases hk : p.node? k with
  | none => simp [hk] at holds
  | some n => exact ⟨n, rfl, by simpa [hk] using holds⟩

theorem contains_of_any (holds : (p.node? k).any property) : p.contains k := by
  obtain ⟨n, hk, -⟩ := exists_node_of_any holds
  exact contains_of_node? hk

instance : Decidable p.Registered :=
  decidable_of_iff (∀ key < p.store.cells.length, p.contains key → key ∈ p.keys)
    ⟨fun given key live => given key (lt_of_contains live) live, fun given key _ => given key⟩

instance : Decidable p.InPlaceReadsOne :=
  decidable_of_iff (∀ key < p.store.cells.length, p.runsInPlace key → (p.dependencies key).length = 1)
      ⟨fun given key shares => length_eq_one_iff.mp (given key (lt_of_contains (contains_of_any shares))
      shares), fun given key _ shares => length_eq_one_iff.mpr (given key shares)⟩

/-! ## The buffer behind a node -/

theorem BackedBy.unique {o : NodeKey} (a : p.BackedBy k root) (b : p.BackedBy k o) : root = o := by
  induction a with
  | itself own =>
    cases b with
    | itself => rfl
    | inPlace shares => rw [own] at shares; cases shares
  | inPlace shares hr _ ih =>
    cases b with
    | itself own => rw [own] at shares; cases shares
    | inPlace _ readsAgain behind =>
      cases hr.symm.trans readsAgain
      exact ih behind

theorem BackedBy.root_own (backed : p.BackedBy k root) : p.runsInPlace root = false := by
  induction backed with
  | itself own => exact own
  | inPlace _ _ _ ih => exact ih

/-- There is a buffer behind every node. -/
theorem exists_backedBy (complete : p.HasCompleteOrder) (single : p.InPlaceReadsOne) :
    ∀ k ∈ p.order.toList, ∃ root ∈ p.order.toList, p.BackedBy k root := by
  refine complete.isTopological.induction fun k hl ih => ?_
  cases shares : p.runsInPlace k with
  | false => exact ⟨k, hl, .itself shares⟩
  | true =>
    obtain ⟨i, hr⟩ := single k shares
    obtain ⟨root, rootListed, behind⟩ := ih i (by simp [hr])
    exact ⟨root, rootListed, .inPlace shares hr behind⟩

/-- What stands behind another node comes before it. -/
theorem BackedBy.before (valid : p.HasValidOrder) (backed : p.BackedBy k root) :
    k = root ∨ [root, k].Sublist p.order.toList := by
  induction backed with
  | itself => exact .inl rfl
  | @inPlace k i root shares hr _ ih =>
    have direct := valid.before k i (by simp [hr])
    rcases ih with rfl | earlier
    · exact .inr direct
    · exact .inr (pair_sublist_trans valid.nodup earlier direct)

/-! ## The readers of a buffer -/

/-- **All readers of a buffer are found.** A node that lies in the buffer without owning it is
among the users of the buffer, and so is every reader of a node in the buffer. -/
theorem BackedBy.mem_bufferUsers (registered : p.Registered) (backed : p.BackedBy k root) :
    (k = root ∨ k ∈ p.bufferUsers true root) ∧ p.users k ⊆ p.bufferUsers true root := by
  induction backed with
  | itself => exact ⟨.inl rfl, (subset_reach _ _ _ _).1⟩
  | @inPlace k i root shares hr _ ih =>
    have hk : k ∈ p.bufferUsers true root := ih.2 (mem_users_iff.mpr (by simp [hr]))
    refine ⟨.inr hk, ?_⟩
    have next := reach_closed _ _ _ k hk (registered k (contains_of_any shares))
    rwa [aliases_true, shares, if_pos rfl] at next

/-! ## The positions at which a buffer is needed -/

theorem le_foldl_max (numbers : List Nat) (start : Nat) :
    start ≤ numbers.foldl max start ∧ ∀ num ∈ numbers, num ≤ numbers.foldl max start := by
  induction numbers generalizing start with
  | nil => simp
  | cons head tail ih =>
    obtain ⟨fromStart, fromTail⟩ := ih (max start head)
    rw [foldl_cons]
    refine ⟨(Nat.le_max_left _ _).trans fromStart, ?_⟩
    intro num mem
    rcases mem_cons.mp mem with rfl | later
    · exact (Nat.le_max_right _ _).trans fromStart
    · exact fromTail num later

/-- The range of a buffer covers the positions of its readers. -/
theorem position_le_stop {place : Nat} (hr : reader ∈ (p.bufferOf true pos root n).readers) (hk :
    p.order.position? reader = some place) : place ≤ (p.bufferOf true pos root n).stop := by
  simp only [bufferOf] at hr ⊢
  split
  · have bound := (idxOf?_eq_some_iff.mp hk).1
    exact Nat.le_of_lt bound
  · exact (le_foldl_max _ pos).2 place (mem_filterMap.mpr ⟨reader, hr, hk⟩)

theorem mem_readers (registered : p.Registered) (backed : p.BackedBy i root)
    (hr : i ∈ p.dependencies reader) (own : p.runsInPlace reader = false) (pos : Nat) (n : Node) :
    reader ∈ (p.bufferOf true pos root n).readers := by
  simp only [bufferOf, mem_filter, aliases_true, own, Bool.not_false, and_true]
  exact (backed.mem_bufferUsers registered).2 (mem_users_iff.mpr hr)

/-- A buffer in which an output lies is kept. -/
theorem isKept_of_output (registered : p.Registered) (backed : p.BackedBy k root) (hm : p.isOutput k)
    (hk : p.node? root = some n) (pos : Nat) : (p.bufferOf true pos root n).isKept := by
  simp only [bufferOf, Bool.or_eq_true, List.any_eq_true, Bool.and_eq_true, aliases_true]
  cases backed with
  | itself =>
    left
    simpa [isOutput, hk] using hm
  | inPlace shares hr behind =>
    have backed : p.BackedBy k root := .inPlace shares hr behind
    rcases (backed.mem_bufferUsers registered).1 with rfl | mem
    · left
      simpa [isOutput, hk] using hm
    · exact .inr ⟨k, mem, shares, hm⟩

/-! ## All buffers -/

/-- The buffer of the node at a place of the order, if it counts as the owner of one. -/
def ownBuffer? (program : Program) (skipInPlace : Bool) (entry : NodeKey × Nat) : Option Buffer :=
  (program.node? entry.1).bind fun node =>
    if node.tag == .data || (skipInPlace && node.runsInPlace) then none
    else some (program.bufferOf skipInPlace entry.2 entry.1 node)

/-- The buffers of live nodes are collected without a fault, whoever counts as an owner. -/
theorem buffersFrom_eq_filterMap (skipInPlace : Bool) {ks : List NodeKey}
    (hv : ∀ k ∈ ks, p.contains k) (pos : Nat) : p.buffersFrom skipInPlace pos ks =
      .ok ((ks.zipIdx pos).filterMap (p.ownBuffer? skipInPlace)) := by
  induction ks generalizing pos with
  | nil => rfl
  | cons k rest ih =>
    obtain ⟨n, hk⟩ := contains_iff.mp (hv k mem_cons_self)
    have later := ih (fun o mem => hv o (mem_cons_of_mem _ mem)) (pos + 1)
    simp only [buffersFrom, nodeAt_of_node? hk, later, bind, Except.bind,
      zipIdx_cons, filterMap_cons, ownBuffer?, hk, bind_some]
    cases n.tag == .data || (skipInPlace && n.runsInPlace) <;> rfl

/-- The buffer of the node at a place of the order, if it has one of its own. -/
def bufferAt? (program : Program) (entry : NodeKey × Nat) : Option Buffer :=
  (program.node? entry.1).bind fun node =>
    if node.tag == .data || node.runsInPlace then none
    else some (program.bufferOf true entry.2 entry.1 node)

theorem bufferAt?_of_ownsBuffer (owns : p.ownsBuffer k) (pos : Nat) : ∃ n, p.node? k = some n ∧
      p.bufferAt? (k, pos) = some (p.bufferOf true pos k n) := by
  obtain ⟨n, hk, own⟩ := exists_node_of_any owns
  refine ⟨n, hk, ?_⟩
  rw [bufferAt?, hk, bind_some, if_neg (by simpa using own)]

theorem owner_of_bufferAt? {buffer : Buffer} (hk : p.bufferAt? (k, pos) = some buffer) : buffer.owner = k
    := by
  obtain ⟨n, -, equal⟩ := bind_eq_some_iff.mp hk
  split at equal
  · cases equal
  · cases equal
    rfl

theorem ownBuffer?_true (p : Program) : p.ownBuffer? true = p.bufferAt? := by
  funext entry
  simp only [ownBuffer?, bufferAt?, Bool.true_and]

/-- Two owners have their buffers in the order in which they stand. -/
theorem pair_sublist_buffers {pre mid after : List NodeKey} {a b : NodeKey}
    (split : p.order.toList = pre ++ a :: (mid ++ b :: after)) {firstBuffer secondBuffer : Buffer}
    (ofFirst : p.bufferAt? (a, pre.length) = some firstBuffer)
    (ofSecond : p.bufferAt? (b, pre.length + 1 + mid.length) = some secondBuffer) :
    [firstBuffer, secondBuffer].Sublist (p.order.toList.zipIdx.filterMap p.bufferAt?) := by
  have places : [(a, pre.length), (b, pre.length + 1 + mid.length)].Sublist
      p.order.toList.zipIdx := by
    rw [split, zipIdx_append, zipIdx_cons, zipIdx_append, zipIdx_cons, Nat.zero_add]
    refine (nil_sublist _).append (.cons_cons _ ?_)
    exact (nil_sublist _).append (.cons_cons _ (nil_sublist _))
  have sublist := places.filterMap p.bufferAt?
  simpa only [filterMap_cons, filterMap_nil, ofFirst, ofSecond] using sublist

/-! ## What buffers depend on -/

section Roles

variable {q : Program} (alters : Alters Node.role p q)

include alters

theorem alters_role_any {property : Node → Bool} (view : KindTag × Bool × Bool → Bool)
    (hr : ∀ n, property n = view n.role) (k : NodeKey) :
    (q.node? k).any property = (p.node? k).any property := by
  have plain : ∀ hk : Option Node, hk.any property = (hk.map Node.role).any view := by
    intro hk
    cases hk with
    | none => rfl
    | some n => exact hr n
  rw [plain, alters.same, ← plain]

theorem alters_role_aliases (skipInPlace : Bool) (k : NodeKey) :
    q.aliases skipInPlace k = p.aliases skipInPlace k := by
  have shares : (q.node? k).any (·.runsInPlace) = (p.node? k).any (·.runsInPlace) :=
    alters_role_any alters (fun role => role.2.1) (fun _ => rfl) k
  rw [aliases, aliases, shares]

theorem alters_role_bufferOf (skipInPlace : Bool) (pos : Nat) (k : NodeKey)
    {n after : Node} (e : after.role = n.role) :
    q.bufferOf skipInPlace pos k after = p.bufferOf skipInPlace pos k n := by
  have users : q.users = p.users := by rw [alters.rest]; rfl
  have ks : q.keys = p.keys := by rw [alters.rest]; rfl
  have order : q.order = p.order := by rw [alters.rest]
  have mark : after.isOutput = n.isOutput := congrArg (fun role => role.2.2) e
  have marks : ∀ k, (q.node? k).any (·.isOutput) = (p.node? k).any (·.isOutput) :=
    alters_role_any alters (fun role => role.2.2) fun _ => rfl
  simp only [bufferOf, bufferUsers, alters_role_aliases alters, users, ks, order, marks, mark]
  rfl

theorem alters_role_cases (k : NodeKey) : (p.node? k = none ∧ q.node? k = none) ∨
    ∃ n after, p.node? k = some n ∧ q.node? k = some after ∧
      after.tag = n.tag ∧ after.runsInPlace = n.runsInPlace ∧
      ∀ skipInPlace pos, q.bufferOf skipInPlace pos k after = p.bufferOf skipInPlace pos k n := by
  have e := alters.same k
  cases hk : p.node? k with
  | none =>
    rw [hk, map_none, map_eq_none_iff] at e
    exact .inl ⟨rfl, e⟩
  | some n =>
    rw [hk, map_some, map_eq_some_iff] at e
    obtain ⟨after, foundAfter, sameRole⟩ := e
    exact .inr ⟨n, after, rfl, foundAfter, congrArg (fun role => role.1) sameRole,
      congrArg (fun role => role.2.1) sameRole, fun skipInPlace pos =>
        alters_role_bufferOf alters skipInPlace pos k sameRole⟩

theorem alters_role_bufferAt? : q.bufferAt? = p.bufferAt? := by
  funext entry
  rcases alters_role_cases alters entry.1 with ⟨gone, goneAfter⟩ | ⟨n, after, hk, foundAfter, tag,
    place, buffers⟩
  · simp only [bufferAt?, gone, goneAfter, bind_none]
  · simp only [bufferAt?, hk, foundAfter, bind_some, tag, place, buffers]

theorem alters_role_ancestors : q.ancestors = p.ancestors := by
  have order : q.order = p.order := by rw [alters.rest]
  have along : ∀ ks kn, q.collectAncestors kn ks = p.collectAncestors kn ks := by
    intro ks
    induction ks with
    | nil => exact fun _ => rfl
    | cons k rest ih =>
      intro kn
      rw [collectAncestors, collectAncestors, alters.dependencies]
      exact ih _
  rw [ancestors, ancestors, along, order]

end Roles

end Program

end LayerGraph
