import LayerGraph.Build.Pipeline
import LayerGraph.CommandLine.Arguments
import LayerGraph.Document.Options
import LayerGraph.Document.Topology
import LayerGraph.FileTree

/-!
# Carrying out a command line

A command reads a topology and, if asked to, build options, lays its flags over the options, builds
the topology, and prints a summary or a listing. The answer is what it prints, what it writes, and
its exit code: 0 when all went well, 1 when the build failed or a file is malformed, 2 when the
command line is wrong, 3 when a file cannot be read or written, and 101 when the build was cut
short.

What a command finds outside of itself is a parameter, so that carrying out a command is a function
of its arguments and of the files. On a file tree (`runIn`) the result is the tree that the command
leaves behind, beside its answer.
-/

namespace LayerGraph.CommandLine

/-- What a command finds outside of itself. -/
structure Files where
  read : String → Except FileError String
  makeDirectory : String → Except FileError Unit := fun _ => .ok ()
  writeDump : DumpFile → Except FileError Unit := fun _ => .ok ()

/-- The answer of a command. What the build warned about is kept apart from the message that a
failing command ends with. -/
structure Response where
  code : Nat
  stdout : String := ""
  stderr : String := ""
  dumps : List DumpFile := []
  warnings : List Warning := []
deriving DecidableEq

/-- Why a command fails before the build begins. -/
inductive LoadFailure where
  | unreadable (path : String) (error : FileError)
  | malformed (path : String)
deriving DecidableEq

def LoadFailure.response : LoadFailure → Response
  | unreadable path error =>
    { code := 3, stderr := s!"Error: failed to read '{path}': {error.text}\n" }
  | malformed path => { code := 1, stderr := s!"Error: malformed '{path}'\n" }

def Files.load {α : Type} (files : Files) (ofText? : String → Option α) (path : String) :
    Except LoadFailure α :=
  match files.read path with
  | .error error => .error (.unreadable path error)
  | .ok text =>
    match ofText? text with
    | none => .error (.malformed path)
    | some value => .ok value

/-- Lays the flags of an invocation over the options of a file. -/
def Invocation.overlay (invocation : Invocation) (options : Options) : Options :=
  { options with
    debug := options.debug || invocation.debug
    noOptimizations := options.noOptimizations || invocation.noOpt
    queueType := if invocation.outOfOrder then .outOfOrder else options.queueType
    chosenStrategy := invocation.strategy <|> options.chosenStrategy
    disabledPasses := options.disabledPasses ++ invocation.disabled
    dumpDirectory := invocation.dumpDirectory <|> options.dumpDirectory }

def Invocation.load (invocation : Invocation) (files : Files) :
    Except LoadFailure (Topology × Options) := do
  let topology ← files.load Topology.ofText? invocation.topology
  let options ← match invocation.options with
    | some path => files.load Options.ofText? path
    | none => pure {}
  return (topology, invocation.overlay options)

def idsToJson (ids : List String) : Json := .array (ids.map .text)

def summary (program : Program) : Checked String := do
  let inputs ← program.idsOf program.inputs
  let outputs ← program.idsOf program.outputs
  let order ← program.idsOf program.order.toList
  return (Json.object
    [("inputs", idsToJson inputs), ("nodes", .nat program.nodeCount),
      ("optimized_out", idsToJson program.optimizedOut), ("outputs", idsToJson outputs),
      ("processing_order", idsToJson order), ("program", .nat program.id)]).pretty ++ "\n"

def Invocation.output (invocation : Invocation) (kept : Option KindTag) (program : Program) :
    Checked String :=
  match invocation.command with
  | .compile => summary program
  | .dump => do
    let listing ← program.listing "build" (!invocation.brief) kept
    let conflicts ← program.conflictListing
    return listing ++ conflicts

def failureAnswer : Fault → Nat × String
  | .refused (.dump reason) => (3, s!"I/O error: {reason}\n")
  | .refused (.misplacedNode pass node) =>
    (1, s!"Internal error: {(Error.misplacedNode pass node).message}\n")
  | .refused error => (1, s!"Build error: {error.message}\n")
  | .aborted _ => (101, "the build was cut short\n")

def Response.warningLines (response : Response) : String :=
  String.join (response.warnings.map fun warning => s!"WARN {warning.text}\n")

def Invocation.respond (invocation : Invocation) (kept : Option KindTag) (result : BuildResult) :
    Response :=
  let dumps := result.trace.dumps
  let warnings := result.trace.warnings
  let printed : Except Fault String :=
    match result.outcome with
    | .error fault => .error fault
    | .ok program =>
      match invocation.output kept program with
      | .ok text => .ok text
      | .error cause => .error (.aborted cause)
  match printed with
  | .ok text => { code := 0, stdout := text, dumps, warnings }
  | .error fault =>
    let (code, message) := failureAnswer fault
    { code, stderr := message, dumps, warnings }

def refusal? : Except FileError Unit → Option String
  | .ok () => none
  | .error error => some error.text

def Files.surroundings (files : Files) : Surroundings where
  directoryRefusal directory := refusal? (files.makeDirectory directory)
  dumpRefusal dump := refusal? (files.writeDump dump)

def Invocation.build (invocation : Invocation) (files : Files) (kept : Option KindTag) :
    Response :=
  match invocation.load files with
  | .error failure => failure.response
  | .ok (topology, options) =>
    invocation.respond kept (topology.build options files.surroundings 0)

/-- Carries out a well-formed command line. The kind of nodes to list is looked at first. -/
def Invocation.run (invocation : Invocation) (files : Files) : Response :=
  match invocation.filter with
  | none => invocation.build files none
  | some name =>
    match KindTag.ofName? name with
    | some tag => invocation.build files (some tag)
    | none => { code := 2, stderr := s!"Error: unknown primitive type '{name}'\n" }

def usageText : String :=
  "usage: (compile | dump) --topology FILE [--options FILE] [--debug] [--no-opt]\n" ++
  "       [--out-of-order] [--strategy NAME] [--disable PASS]... [--dump-dir DIR]\n" ++
  "       [--filter TYPE] [--brief]\n"

def run (arguments : List String) (files : Files) : Response :=
  match parse arguments with
  | .ok invocation => invocation.run files
  | .error .usage => { code := 2, stderr := usageText }
  | .error .help => { code := 0, stdout := usageText }

/-! ## On a file tree -/

/-- Writes a listing into its directory, which is made if it is missing. -/
def writeInto (tree : FileTree) (dump : DumpFile) : Except FileError FileTree := do
  let tree ← tree.makeDirectories dump.directory
  tree.write dump.path dump.text

def Files.ofTree (tree : FileTree) : Files where
  read := tree.read
  makeDirectory directory := (tree.makeDirectories directory).map fun _ => ()
  writeDump dump := (writeInto tree dump).map fun _ => ()

def runIn (tree : FileTree) (arguments : List String) : Response × FileTree :=
  let response := run arguments (.ofTree tree)
  (response, response.dumps.foldl (fun tree dump => (writeInto tree dump).toOption.getD tree) tree)

end LayerGraph.CommandLine
