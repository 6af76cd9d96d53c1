import LayerGraph.Program.Removal
import LayerGraph.Proofs.Program.Consistent

/-!
# Outcomes of edits

An edit ends with a value and a program, or with a fault. What it leaves behind matters even when it
fails, for the changes made until then stay. `Ends` says of a step and a state what holds of either
outcome, and the laws below take it apart along the structure of a step, so that no proof opens the
monad.

Mostly nobody looks at what a failed step leaves behind. `Ensures` asks for the fault only, and has the
same laws. A loop ensures what each of its rounds keeps (`ensures_forM`).

A fault blames the program when it follows a key that names nothing, or finds a node at a wrong
place of the order (`Fault.BlamesProgram`). All other faults are about what was asked for, and an edit
refuses it with one of them (`Fault.IsRefusal`).
-/

namespace LayerGraph

open Edit

/-- Faults that can only come from a program that is not as it should be. -/
def Fault.BlamesProgram : Fault → Prop
  | .aborted (.deadKey _) => True
  | .refused (.misplacedNode _ _) => True
  | _ => False

/-- All other faults. -/
abbrev Fault.SparesProgram (fault : Fault) : Prop := ¬ fault.BlamesProgram

/-- The fault that stands for a word that is too small. -/
abbrev Fault.IsOverflow (fault : Fault) : Prop := fault = .aborted .overflow

theorem Fault.not_blamesProgram_of_overflow {fault : Fault} (overflow : fault.IsOverflow) :
    fault.SparesProgram := by
  rw [overflow]
  exact False.elim

/-- Faults with which an edit refuses what it was asked for. -/
def Fault.IsRefusal (fault : Fault) : Prop := ¬ fault.BlamesProgram ∧ ∃ error, fault = .refused error

section Ends

variable {σ α β : Type} {st : σ} {done : β → σ → Prop} {failed : Fault → σ → Prop}

/-- What holds of the outcome of a step: `done` when there is a value, `failed` when there is a fault. -/
def Ends (step : EStateM Fault σ α) (state : σ) (done : α → σ → Prop)
    (failed : Fault → σ → Prop) : Prop :=
  match step state with
  | .ok value next => done value next
  | .error fault next => failed fault next

theorem Ends.mono {step : EStateM Fault σ α} {expected wanted : α → σ → Prop}
    {expectedFault wantedFault : Fault → σ → Prop} (ends : Ends step st expected expectedFault)
    (ofDone : ∀ v next, expected v next → wanted v next)
    (ofFailed : ∀ fault next, expectedFault fault next → wantedFault fault next) :
    Ends step st wanted wantedFault := by
  rw [Ends] at ends ⊢
  cases res : step st with
  | ok v next =>
    rw [res] at ends
    exact ofDone v next ends
  | error fault next =>
    rw [res] at ends
    exact ofFailed fault next ends

/-- What holds of the outcome of a step may mention this outcome. -/
theorem Ends.with_ok {step : EStateM Fault σ α} {expected : α → σ → Prop}
    (ends : Ends step st expected failed) :
    Ends step st (fun v next => step st = .ok v next ∧ expected v next) failed := by
  rw [Ends] at ends ⊢
  cases res : step st with
  | ok v next =>
    rw [res] at ends
    exact ⟨rfl, ends⟩
  | error fault next =>
    rw [res] at ends
    exact ends

/-- A step that cannot fail ends with a value. -/
theorem Ends.exists_ok {step : EStateM Fault σ α} {expected : α → σ → Prop}
    (ends : Ends step st expected failed) (never : ∀ fault left, ¬ failed fault left) :
    ∃ v next, step st = .ok v next ∧ expected v next := by
  rw [Ends] at ends
  cases res : step st with
  | ok v next =>
    rw [res] at ends
    exact ⟨v, next, rfl, ends⟩
  | error fault left =>
    rw [res] at ends
    exact absurd ends (never fault left)

@[simp] theorem ends_pure (v : β) :
    Ends (pure v) st done failed ↔ done v st := Iff.rfl

@[simp] theorem ends_bind (step : EStateM Fault σ α) (next : α → EStateM Fault σ β) :
    Ends (step >>= next) st done failed ↔
      Ends step st (fun v st => Ends (next v) st done failed) failed := by
  simp only [Ends, bind, EStateM.bind]
  cases step st with
  | ok v next => rfl
  | error fault next => rfl

@[simp] theorem ends_discard (step : EStateM Fault σ α) {ended : Unit → σ → Prop} :
    Ends (discard step) st ended failed ↔ Ends step st (fun _ st => ended () st) failed := by
  simp only [Ends, discard, Functor.discard, Functor.mapConst, EStateM.map, Function.comp_apply]
  cases step st with
  | ok v next => rfl
  | error fault next => rfl

@[simp] theorem ends_get {seen : σ → σ → Prop} :
    Ends get st seen failed ↔ seen st st := Iff.rfl

@[simp] theorem ends_modify (change : σ → σ) {ended : PUnit → σ → Prop} :
    Ends (modify change) st ended failed ↔ ended ⟨⟩ (change st) := Iff.rfl

variable {p : Program} {k : NodeKey} {n : Node} {left : Fault → Program → Prop}
  {done : Node → Program → Prop}

@[simp] theorem ends_refuse (error : Error) {done : α → Program → Prop} :
    Ends (refuse error) p done left ↔ left (.refused error) p := Iff.rfl

theorem ends_nodeAt (hk : p.node? k = some n) : Ends (nodeAt k) p done left ↔ done n p := by
  simp only [nodeAt, ends_bind, ends_get, Program.nodeAt_of_node? hk, Checked.lift, ends_pure]

theorem ends_nodeAt_of_dead (dead : p.node? k = none) :
    Ends (nodeAt k) p done left ↔ left (.aborted (.deadKey k)) p := by
  simp only [nodeAt, ends_bind, ends_get, Program.nodeAt, dead]
  rfl

/-- A node is asked for, and the edit is cut short when there is none. -/
theorem ends_nodeAt_or (hv : ∀ n, p.node? k = some n → done n p)
    (dead : ¬ p.contains k → left (.aborted (.deadKey k)) p) :
    Ends (nodeAt k) p done left := by
  cases hk : p.node? k with
  | some n => exact (ends_nodeAt hk).mpr (hv n hk)
  | none => exact (ends_nodeAt_of_dead hk).mpr (dead (by simp [Program.contains_iff, hk]))

theorem ends_requireLive {done : PUnit → Program → Prop} (hv : p.contains k → done ⟨⟩ p)
    (dead : ¬ p.contains k → left (.refused (.unknownKey k)) p) :
    Ends (requireLive k) p done left := by
  simp only [requireLive, ends_bind, ends_get]
  split
  · next h => exact hv h
  · next h => exact dead h

/-- Two nodes have to be live for the rest of an edit. -/
theorem ends_requireBoth {a b : NodeKey} {step : Edit α} {done : α → Program → Prop}
    (hv : p.contains a ∧ p.contains b → Ends step p done left)
    (dead : ∀ fault : Fault, fault.IsRefusal →
      ¬ (p.contains a ∧ p.contains b) → left fault p) :
    Ends (do requireLive a; requireLive b; step) p done left := by
  simp only [ends_bind]
  refine ends_requireLive (fun firstLive => ?_) fun gone =>
    dead _ ⟨not_false, _, rfl⟩ fun both => gone both.1
  exact ends_requireLive (fun secondLive => hv ⟨firstLive, secondLive⟩) fun gone =>
    dead _ ⟨not_false, _, rfl⟩ fun both => gone both.2

@[simp] theorem ends_ensure (prim : Primitive) {done : NodeKey → Program → Prop} :
    Ends (ensure prim) p done left ↔ done (p.ensure prim).2 (p.ensure prim).1 := Iff.rfl

/-- A removal is performed or not, and never fails. -/
theorem ends_attempt {removal : Program → Option Program} {done : Bool → Program → Prop}
    (performed : ∀ q, removal p = some q → done true q)
    (refused : removal p = none → done false p) : Ends (attempt removal) p done left := by
  simp only [attempt, ends_bind, ends_get]
  split
  · next q res => exact performed q res
  · next res => exact refused res

end Ends

section Ensures

variable {σ α β : Type} {st : σ} {done : β → σ → Prop} {failed : Fault → Prop}
  {expected wanted : α → σ → Prop} {step : EStateM Fault σ α} {ended : PUnit → σ → Prop}

/-- What holds of the outcome of a step. -/
def Ensures (step : EStateM Fault σ α) (state : σ) (done : α → σ → Prop)
    (failed : Fault → Prop := fun _ => True) : Prop :=
  match step state with
  | .ok value next => done value next
  | .error fault _ => failed fault

theorem Ensures.mono {expectedFault wantedFault : Fault → Prop} (ensures : Ensures step st expected
    expectedFault) (ofDone : ∀ v next, expected v next → wanted v next) (ofFailed : ∀ fault,
    expectedFault fault → wantedFault fault := by exact fun _ _ => trivial) : Ensures step st wanted
    wantedFault :=
  Ends.mono (show Ends step st expected fun fault _ => expectedFault fault from ensures) ofDone
    fun fault _ => ofFailed fault

theorem Ensures.weaken (ensures : Ensures step st expected failed) (ofDone : ∀ v next, expected v next →
    wanted v next) : Ensures step st wanted failed :=
  ensures.mono ofDone fun _ h => h

theorem Ensures.of_ok {v : α} {next : σ}
    (ensures : Ensures step st expected failed) (res : step st = .ok v next) : expected v next := by
  rwa [Ensures, res] at ensures

theorem Ensures.of_error {fault : Fault} {next : σ} (ensures : Ensures step st expected failed)
    (res : step st = .error fault next) : failed fault := by
  rwa [Ensures, res] at ensures

theorem Ensures.exists_ok (ensures : Ensures step st expected fun _ => False) :
    ∃ v next, step st = .ok v next ∧ expected v next :=
  Ends.exists_ok (show Ends step st expected fun _ _ => False from ensures) fun _ _ => id

/-- What a step ensures in two ways holds together. -/
theorem Ensures.and {fails : Fault → Prop} (a : Ensures step st expected failed) (b : Ensures step st
    wanted fails) : Ensures step st (fun v next => expected v next ∧ wanted v next) failed := by
  rw [Ensures] at a b ⊢
  cases res : step st with
  | ok v next =>
    rw [res] at a b
    exact ⟨a, b⟩
  | error fault next =>
    rw [res] at a
    exact a

/-- What a step ensures may mention its outcome. -/
theorem Ensures.with_ok (ensures : Ensures step st expected failed) : Ensures step st (fun v next => step
    st = .ok v next ∧ expected v next) failed :=
  Ends.with_ok (show Ends step st expected fun fault _ => failed fault from ensures)

@[simp] theorem ensures_pure (v : β) : Ensures (pure v) st done failed ↔
    done v st := Iff.rfl

@[simp] theorem ensures_bind (step : EStateM Fault σ α) (next : α → EStateM Fault σ β) : Ensures (step
    >>= next) st done failed ↔ Ensures step st (fun v st => Ensures (next v) st done failed) failed :=
  ends_bind step next

@[simp] theorem ensures_map (step : EStateM Fault σ α) (change : α → β) :
    Ensures (change <$> step) st done failed ↔
      Ensures step st (fun v st => done (change v) st) failed := by
  simp only [Ensures, Functor.map, EStateM.map]
  cases step st with
  | ok v next => rfl
  | error fault next => rfl

@[simp] theorem ensures_discard (step : EStateM Fault σ α) {ended : Unit → σ → Prop} :
    Ensures (discard step) st ended failed ↔
      Ensures step st (fun _ st => ended () st) failed := ends_discard step

@[simp] theorem ensures_get {seen : σ → σ → Prop} :
    Ensures get st seen failed ↔ seen st st := Iff.rfl

@[simp] theorem ensures_modify (change : σ → σ) :
    Ensures (modify change) st ended failed ↔ ended ⟨⟩ (change st) := Iff.rfl

@[simp] theorem ensures_modifyGet (change : σ → β × σ) :
    Ensures (modifyGet change) st done failed ↔ done (change st).1 (change st).2 := Iff.rfl

@[simp] theorem ensures_throw (fault : Fault) :
    Ensures (throw fault) st done failed ↔ failed fault := Iff.rfl

/-- **A loop ensures what its rounds keep.** What is kept may depend on what is left to do. -/
theorem ensures_forM (keeps : List α → σ → Prop) {step : α → EStateM Fault σ PUnit}
    (round : ∀ x rest st, keeps (x :: rest) st →
      Ensures (step x) st (fun _ next => keeps rest next) failed)
    {xs : List α} (start : keeps xs st) :
    Ensures (xs.forM step) st (fun _ next => keeps [] next) failed := by
  induction xs generalizing st with
  | nil => exact start
  | cons x rest ih =>
    rw [List.forM, ensures_bind]
    exact (round x rest st start).weaken fun _ next kept => ih kept

/-- A loop keeps what all its rounds keep. -/
theorem ensures_forM_mem (holds : σ → Prop) {step : α → EStateM Fault σ PUnit} {xs : List α}
    (round : ∀ x ∈ xs, ∀ st, holds st →
      Ensures (step x) st (fun _ next => holds next) failed) (start : holds st) :
    Ensures (xs.forM step) st (fun _ next => holds next) failed := by
  induction xs generalizing st with
  | nil => exact start
  | cons x rest ih =>
    rw [List.forM, ensures_bind]
    exact (round x List.mem_cons_self st start).weaken fun _ next kept =>
      ih (fun o mem => round o (List.mem_cons_of_mem _ mem)) kept

theorem ensures_forM_append {step : α → EStateM Fault σ PUnit}
    (front back : List α) : Ensures ((front ++ back).forM step) st ended failed ↔
      Ensures (front.forM step) st (fun _ mid => Ensures (back.forM step) mid ended failed)
        failed := by
  induction front generalizing st with
  | nil => rfl
  | cons a rest ih => simp only [List.cons_append, List.forM, ensures_bind, ih]

@[simp] theorem ensures_forM_singleton {step : α → EStateM Fault σ PUnit} (x : α) :
    Ensures ([x].forM step) st ended failed ↔ Ensures (step x) st ended failed := by
  simp only [List.forM, ensures_bind, ensures_pure]

end Ensures

/-! ## Steps of edits -/

section Edits

variable {α σ : Type} {p : Program} {k : NodeKey} {n : Node} {failed : Fault → Prop}

theorem ensures_checked {res : Checked α} {st : σ} {done : α → σ → Prop}
    (ok : ∀ v, res = .ok v → done v st)
    (failure : ∀ cause, res = .error cause → failed (.aborted cause) := by exact fun _ _ => trivial) :
    Ensures (Checked.lift res) st done failed := by
  cases res with
  | ok v => exact ok v rfl
  | error cause => exact failure cause rfl

theorem ensures_error {res : Except Error α} {st : σ} {done : α → σ → Prop}
    (ok : ∀ v, res = .ok v → done v st)
    (failure : ∀ error, res = .error error → failed (.refused error) := by exact fun _ _ => trivial) :
    Ensures (Error.lift res) st done failed := by
  cases res with
  | ok v => exact ok v rfl
  | error error => exact failure error rfl

@[simp] theorem ensures_refuse (error : Error) {done : α → Program → Prop} :
    Ensures (refuse error) p done failed ↔ failed (.refused error) := Iff.rfl

/-- The node of a live key is there. -/
theorem ensures_nodeAt (hk : p.node? k = some n) {done : Node → Program → Prop} :
    Ensures (nodeAt k) p done failed ↔ done n p := ends_nodeAt hk

@[simp] theorem ensures_ensure (prim : Primitive) {done : NodeKey → Program → Prop} :
    Ensures (ensure prim) p done failed ↔ done (p.ensure prim).2 (p.ensure prim).1 := Iff.rfl

/-- A removal is performed or not. -/
theorem ensures_attempt {removal : Program → Option Program} {done : Bool → Program → Prop}
    (performed : ∀ q, removal p = some q → done true q)
    (refused : removal p = none → done false p) :
    Ensures (attempt removal) p done failed := ends_attempt performed refused

end Edits

end LayerGraph
