import LayerGraph.Listing
import LayerGraph.Program.Edit

/-!
# Build sessions

A build changes one program and talks to the outside. It hands nodes to a backend, which prepares
an implementation for each of them or refuses, and constant programs, which the backend evaluates
or refuses. It may write a listing after every pass, and it warns about what it leaves undone. What
was said stays said when the build fails afterwards; this is its `Trace`.

A backend is any rule that answers a call from the calls that it accepted before.

A `Session` is the state of a build. It holds the program that is being built, the trace, the
number for the next program, and what the passes of one build share.
-/

namespace LayerGraph

/-- What a build asks of a backend. -/
inductive BackendCall where
  | compile (program : Program) (key : NodeKey)
  | fold (program : Program)
deriving DecidableEq

/-- A rule that accepts or refuses a call, given the calls accepted before. -/
structure Backend where
  answer : List BackendCall → BackendCall → Except Fault Unit

def Backend.accepting : Backend := ⟨fun _ _ => .ok ()⟩

/-- A listing written to a file. -/
structure DumpFile where
  directory : String
  name : String
  text : String
deriving DecidableEq

/-- The path of the file; without a directory it is its name. -/
def DumpFile.path (dump : DumpFile) : String :=
  if dump.directory == "" then dump.name
  else if dump.directory.endsWith "/" then dump.directory ++ dump.name
  else s!"{dump.directory}/{dump.name}"

/-- What a build leaves undone. -/
inductive Warning where
  /-- A split layer is read directly or is an output, so it stays. -/
  | splitKept (id : String)
  | passSkipped (pass : String) (program : Nat)
deriving DecidableEq

def Warning.text : Warning → String
  | splitKept id => s!"split node is read directly, keeping it: {id}"
  | passSkipped pass program => s!"pass disabled, skipping: {pass} (program {program})"

/-- What a build has said to the outside, in the order in which it was said. -/
structure Trace where
  calls : List BackendCall := []
  dumps : List DumpFile := []
  warnings : List Warning := []
deriving DecidableEq

/-- What a build meets outside of itself. -/
structure Surroundings where
  backend : Backend := .accepting
  /-- The reason why a directory for listings cannot be made, if there is one. -/
  directoryRefusal : String → Option String := fun _ => none
  /-- The reason why a listing cannot be written into its directory, if there is one. -/
  dumpRefusal : DumpFile → Option String := fun _ => none

/-- The state of a build. -/
structure Session where
  surroundings : Surroundings := {}
  program : Program
  nextProgram : Nat
  trace : Trace := {}
  /-- Whether explicit output sizes have to be honoured with padding. -/
  outputSizeHandling : Bool := false
  runs : Nat := 0

abbrev Build : Type → Type := EStateM Fault Session

namespace Build

def edit {α : Type} (edit : Edit α) : Build α := fun session =>
  match edit session.program with
  | .ok value program => .ok value { session with program }
  | .error fault program => .error fault { session with program }

def program : Build Program := return (← get).program

def modifyProgram (change : Program → Program) : Build Unit :=
  modify fun session => { session with program := change session.program }

def nodeAt (key : NodeKey) : Build Node := edit (Edit.nodeAt key)

def record (change : Trace → Trace) : Build Unit :=
  modify fun session => { session with trace := change session.trace }

def warn (warning : Warning) : Build Unit :=
  record fun trace => { trace with warnings := trace.warnings ++ [warning] }

def call (call : BackendCall) : Build Unit := do
  let session ← get
  match session.surroundings.backend.answer session.trace.calls call with
  | .ok () => record fun trace => { trace with calls := trace.calls ++ [call] }
  | .error fault => throw fault

/-- Hands a node of the program that is being built to the backend. -/
def compileNode (key : NodeKey) : Build Unit := do
  call (.compile (← program) key)

def takeNumber : Build Nat :=
  modifyGet fun session =>
    (session.nextProgram, { session with nextProgram := session.nextProgram + 1 })

/-- The session of the build of another program in the midst of this one. -/
def innerSession (session : Session) (inner : Program) : Session :=
  { session with program := inner, outputSizeHandling := false, runs := 0 }

/-- This session again, with what the build of the other program has said and numbered. -/
def outerSession (session finished : Session) : Session :=
  { session with trace := finished.trace, nextProgram := finished.nextProgram }

/-- Carries out a build of another program in the midst of this one, and gives what the other
program has become. -/
def within (inner : Program) (build : Build Unit) : Build Program := fun session =>
  match build (innerSession session inner) with
  | .ok () finished => .ok finished.program (outerSession session finished)
  | .error fault finished => .error fault (outerSession session finished)

end Build

end LayerGraph
