import LayerGraph.Pass.Constants
import LayerGraph.Pass.Formats
import LayerGraph.Pass.Fusion
import LayerGraph.Pass.Lowering
import LayerGraph.Pass.Setup
import LayerGraph.Pass.Windows

/-!
# The pipeline

A build runs a fixed sequence of passes, some of which depend on the options. After every pass the
processing order is checked, and a listing is written when the options name a directory for it.
Disabled passes are passed over.

The constant part of a program is built by the same pipeline as an internal program. Internal
programs never fold constants, so the build of a program contains at most builds that contain none
(`Build.buildInternal`).
-/

namespace LayerGraph

/-- The passes of a build. -/
inductive Pass where
  | setUp
  | markNodes
  | trim
  | orderBreadthFirst
  | decideOutputSizes
  | fuseActivations
  | prepareWindows
  | dropReorders
  | foldConstants
  | shareBuffers
  | compileNodes
  | reorderInputs
  | computeConflicts
  | cleanUp
deriving DecidableEq

namespace Pass

def all : List Pass :=
  [setUp, markNodes, trim, orderBreadthFirst, decideOutputSizes, fuseActivations, prepareWindows,
    dropReorders, foldConstants, shareBuffers, compileNodes, reorderInputs, computeConflicts,
    cleanUp]

def name : Pass → String
  | setUp => "graph_initializations"
  | markNodes => "mark_nodes"
  | trim => "trim_to_outputs"
  | orderBreadthFirst => "bfs_processing_order"
  | decideOutputSizes => "analyze_output_size_handling"
  | fuseActivations => "prepare_primitive_fusing"
  | prepareWindows => "prepare_padding"
  | dropReorders => "remove_redundant_reorders"
  | foldConstants => "propagate_constants"
  | shareBuffers => "prepare_buffer_fusing"
  | compileNodes => "compile_graph"
  | reorderInputs => "reorder_inputs"
  | computeConflicts => "prepare_memory_dependencies"
  | cleanUp => "cleanup"

def ofName? (name : String) : Option Pass := all.find? fun pass => pass.name == name

/-! ## Phases -/

def setUpPhase : List Pass := [setUp, markNodes]

def only (condition : Bool) (pass : Pass) : List Pass := if condition then [pass] else []

def optimizationPhase (options : Options) (isInternal : Bool) : List Pass :=
  [trim] ++ only (options.queueType == .outOfOrder) orderBreadthFirst ++ [decideOutputSizes] ++
    only options.optimizeData fuseActivations ++ [prepareWindows, dropReorders] ++
    only (!isInternal) foldConstants ++ only options.optimizeData shareBuffers

def finishingPhase (options : Options) : List Pass :=
  only options.optimizeData reorderInputs ++ only options.enableMemoryPool computeConflicts

def pipeline (options : Options) (isInternal : Bool) : List Pass :=
  setUpPhase ++
    (if options.noOptimizations then []
      else optimizationPhase options isInternal ++ [compileNodes] ++ finishingPhase options) ++
    [cleanUp]

/-! ## Running passes -/

def body (folding : Build Unit) : Pass → Build Unit
  | setUp => Build.setUp
  | markNodes => Build.markNodes
  | trim => Build.trim
  | orderBreadthFirst => Build.modifyProgram (·.orderBreadthFirst)
  | decideOutputSizes => Build.decideOutputSizes
  | fuseActivations => Build.fuseActivations
  | prepareWindows => Build.prepareWindows
  | dropReorders => Build.dropReorders
  | foldConstants => folding
  | shareBuffers => Build.shareBuffers
  | compileNodes => Build.compileNodes
  | reorderInputs => Build.reorderInputs
  | computeConflicts => Build.computeConflicts
  | cleanUp => Build.cleanUp

end Pass

namespace Build

def runNumber (runs : Nat) : String := if runs < 10 then s!"0{runs}" else toString runs

/-- Makes sure that every node of the processing order stands at a correct place. -/
def checkOrder (pass : Pass) : Build Unit := do
  let program ← program
  match program.firstMisplaced? with
  | some key =>
    let node ← nodeAt key
    throw (.refused (.misplacedNode pass.name node.id))
  | none => pure ()

def refuseDump : Option String → Build Unit
  | some reason => throw (.refused (.dump reason))
  | none => pure ()

/-- Writes a listing after a pass, when the options name a directory for it. The directory is made
before the listing is. -/
def writeDump (pass : Pass) : Build Unit := do
  let session ← get
  let program := session.program
  match program.options.dumpDirectory with
  | none => pure ()
  | some directory =>
    refuseDump (session.surroundings.directoryRefusal directory)
    let text ← (program.listing pass.name true none).lift
    let name := s!"program_{program.id}_{runNumber session.runs}_{pass.name}.graph"
    let dump : DumpFile := ⟨directory, name, text⟩
    refuseDump (session.surroundings.dumpRefusal dump)
    record fun trace => { trace with dumps := trace.dumps ++ [dump] }

/-- Runs a pass, given what folding constants does, unless the pass is disabled. -/
def runWith (folding : Build Unit) (pass : Pass) : Build Unit := do
  let program ← program
  if program.options.enables pass.name then
    pass.body folding
    modify fun session => { session with runs := session.runs + 1 }
    checkOrder pass
    writeDump pass
  else
    warn (.passSkipped pass.name program.id)

/-- Runs all passes of the pipeline, given what folding constants does. -/
def buildWith (folding : Build Unit) : Build Unit := do
  let program ← program
  (Pass.pipeline program.options program.isInternal).forM (runWith folding)

/-- Builds an internal program, whose pipeline does not fold constants. -/
def buildInternal : Build Unit := buildWith (pure ())

def run : Pass → Build Unit := runWith (foldConstants buildInternal)

def build : Build Unit := buildWith (foldConstants buildInternal)

end Build

/-- What became of the build of a topology. -/
structure BuildResult where
  outcome : Except Fault Program
  trace : Trace

def Topology.build (topology : Topology) (options : Options) (surroundings : Surroundings)
    (number : Nat) : BuildResult :=
  match Program.ofTopology number topology options false with
  | .error error => { outcome := .error (.refused error), trace := {} }
  | .ok program =>
    match Build.build { surroundings, program, nextProgram := number + 1 } with
    | .ok () session => { outcome := .ok session.program, trace := session.trace }
    | .error fault session => { outcome := .error fault, trace := session.trace }

end LayerGraph
