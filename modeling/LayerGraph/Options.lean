/-!
# Build options

The options of a build choose which passes run and how buffers may share storage. Every option has
a default. The strategy for sharing storage follows from the queue model of the device, unless the
options name one (`Options.memoryStrategy`).
-/

namespace LayerGraph

/-- How a device works off its queue. -/
inductive QueueType where
  /-- Commands finish in the order in which they were submitted. -/
  | inOrder
  | outOfOrder
deriving DecidableEq

namespace QueueType

def all : List QueueType := [inOrder, outOfOrder]

def name : QueueType → String
  | inOrder => "in_order"
  | outOfOrder => "out_of_order"

def ofName? (name : String) : Option QueueType :=
  all.find? fun queue => queue.name == name

end QueueType

/-- When two buffers may not share storage. -/
inductive MemoryStrategy where
  | basic
  | skippedBranchAware
  /-- Unless data flow alone puts one, with all its readers, before the other. -/
  | outOfOrderAware
deriving DecidableEq

namespace MemoryStrategy

def all : List MemoryStrategy := [basic, skippedBranchAware, outOfOrderAware]

def name : MemoryStrategy → String
  | basic => "basic"
  | skippedBranchAware => "skipped_branch_aware"
  | outOfOrderAware => "out_of_order_aware"

def ofName? (name : String) : Option MemoryStrategy :=
  all.find? fun strategy => strategy.name == name

def ofQueue : QueueType → MemoryStrategy
  | .inOrder => skippedBranchAware
  | .outOfOrder => outOfOrderAware

end MemoryStrategy

/-- The options of one build. -/
structure Options where
  /-- Every node that is no constant buffer becomes an output in the end. -/
  debug : Bool := false
  /-- Only the graph is set up; nothing is optimised or compiled. -/
  noOptimizations : Bool := false
  optimizeData : Bool := true
  /-- Whether explicit output sizes are honoured with padding; without a value the build decides. -/
  outputSizeHandling : Option Bool := none
  enableMemoryPool : Bool := true
  queueType : QueueType := .inOrder
  /-- The strategy to use instead of the one that the queue model calls for. -/
  chosenStrategy : Option MemoryStrategy := none
  disabledPasses : List String := []
  dumpDirectory : Option String := none
deriving DecidableEq

namespace Options

def memoryStrategy (options : Options) : MemoryStrategy :=
  options.chosenStrategy.getD (.ofQueue options.queueType)

def enables (options : Options) (pass : String) : Bool :=
  !options.disabledPasses.contains pass

end Options

end LayerGraph
