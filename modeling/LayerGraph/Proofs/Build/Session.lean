import LayerGraph.Proofs.Build.Rewriting

/-!
# Outcomes of builds

The laws of `Ensures` for the steps of a build: an edit of the program that is being built does what
the edit does, and a call of the backend is accepted or fails with what the backend answers.

A fault is excused when it does not blame the program, or when the backend itself has answered it
(`Surroundings.Excuses`). A session advances when its program is rewritten while its surroundings
and the constant programs handed to the backend stay what they are (`Session.Advances`).
-/

namespace LayerGraph

/-- The constant program that a call hands to the backend. -/
def BackendCall.folded? : BackendCall → Option Program
  | compile _ _ => none
  | fold program => some program

/-- The constant programs that the backend has evaluated. -/
def Trace.folded (trace : Trace) : List Program := trace.calls.filterMap BackendCall.folded?

/-- A fault that blames the program is one that the backend has answered. -/
def Surroundings.Excuses (surroundings : Surroundings) (fault : Fault) : Prop :=
  fault.BlamesProgram → ∃ calls call, surroundings.backend.answer calls call = .error fault

namespace Session

variable {s next last : Session}

/-- Nothing outside of the program has happened that matters for its meaning. -/
structure Continues (session next : Session) : Prop where
  surroundings : next.surroundings = session.surroundings
  folded : next.trace.folded = session.trace.folded

/-- The program of a session has been rewritten. -/
structure Advances (session next : Session) : Prop extends Continues session next where
  rewrites : Program.Rewrites session.program next.program

theorem Continues.refl (s : Session) : Continues s s := ⟨rfl, rfl⟩

theorem Continues.trans (a : Continues s next) (b : Continues next last) : Continues s last :=
  ⟨b.surroundings.trans a.surroundings, b.folded.trans a.folded⟩

theorem Continues.advances (continues : Continues s next)
    (e : next.program = s.program) : Advances s next :=
  ⟨continues, e ▸ .refl⟩

theorem Advances.refl (s : Session) : Advances s s := ⟨.refl s, .refl⟩

theorem Advances.trans (a : Advances s next) (b : Advances next last) : Advances s last :=
  ⟨a.toContinues.trans b.toContinues, a.rewrites.trans b.rewrites⟩

/-- A session that has advanced advances with what comes next. -/
theorem Advances.andThen {α : Type} {step : Build α} {done : α → Session → Prop}
    (a : Advances s next)
    (b : Ensures step next (fun _ last => next.Advances last) next.surroundings.Excuses)
    (enough : ∀ v last, s.Advances last → done v last) :
    Ensures step next done s.surroundings.Excuses := by
  rw [a.surroundings] at b
  exact b.weaken fun v last later => enough v last (a.trans later)

end Session

namespace Build

variable {α : Type} {s : Session} {failed : Fault → Prop}

@[simp] theorem ensures_edit (change : Edit α) {done : α → Session → Prop} :
    Ensures (edit change) s done failed ↔
      Ensures change s.program (fun v program => done v { s with program }) failed := by
  simp only [Ensures, edit]
  cases change s.program with
  | ok v program => rfl
  | error fault program => rfl

@[simp] theorem ensures_program {done : Program → Session → Prop} :
    Ensures program s done failed ↔ done s.program s := Iff.rfl

variable {done : Unit → Session → Prop}

@[simp] theorem ensures_modifyProgram (change : Program → Program) : Ensures (modifyProgram change) s
    done failed ↔ done () { s with program := change s.program } := Iff.rfl

@[simp] theorem ensures_warn (warning : Warning) : Ensures (warn warning) s done failed ↔ done () { s
    with trace := { s.trace with warnings := s.trace.warnings ++ [warning] } } := Iff.rfl

/-- A call is accepted, or fails with the answer of the backend. -/
theorem ensures_call (req : BackendCall) (accepted : done () { s with trace := { s.trace with calls
    := s.trace.calls ++ [req] } })
    (refused : ∀ fault, s.surroundings.backend.answer s.trace.calls req =
      .error fault → failed fault := by exact fun _ _ => trivial) :
    Ensures (call req) s done failed := by
  simp only [call, ensures_bind, ensures_get]
  split
  · exact accepted
  · next fault answer => exact refused fault answer

/-- Handing nodes to the backend leaves everything else as it is. -/
theorem ensures_compileNodes (ks : List NodeKey) : Ensures (ks.forM compileNode) s
      (fun _ next => next.program = s.program ∧ s.Continues next) s.surroundings.Excuses := by
  refine ensures_forM (fun _ st => st.program = s.program ∧ s.Continues st) ?_ ⟨rfl, .refl s⟩
  rintro k rest st ⟨e, pre⟩
  simp only [compileNode, ensures_bind, ensures_program]
  refine ensures_call _ ⟨e, pre.trans ⟨rfl, ?_⟩⟩ fun fault answer _ => ?_
  · simp [Trace.folded, BackendCall.folded?]
  · rw [pre.surroundings] at answer
    exact ⟨_, _, answer⟩

/-- A pass that only edits the program advances the session. -/
theorem ensures_edit_advances {change : Edit α} (rewrites : Ensures change s.program
      (fun _ q => Program.Rewrites s.program q) Fault.SparesProgram) :
    Ensures (edit change) s (fun _ next => s.Advances next) s.surroundings.Excuses := by
  rw [ensures_edit]
  exact rewrites.mono (fun _ _ steps => ⟨⟨rfl, rfl⟩, steps⟩) fun _ proper blames => absurd blames proper

end Build

end LayerGraph
