import LayerGraph.Json.Reader
import LayerGraph.Json.Record
import LayerGraph.Options

/-!
# Build options in documents

How build options are written and read. Every field may be left out, and then has its default.
-/

namespace LayerGraph.Options

def fieldNames : List String :=
  ["debug", "no_optimizations", "optimize_data", "output_size_handling", "enable_memory_pool",
    "queue_type", "memory_dependency_strategy", "disabled_passes", "graph_dumps_dir"]

def toJson (options : Options) : Json :=
  .object [("debug", .bool options.debug),
    ("no_optimizations", .bool options.noOptimizations),
    ("optimize_data", .bool options.optimizeData),
    ("output_size_handling", Json.nullable .bool options.outputSizeHandling),
    ("enable_memory_pool", .bool options.enableMemoryPool),
    ("queue_type", .text options.queueType.name),
    ("memory_dependency_strategy",
      Json.nullable (fun strategy => .text strategy.name) options.chosenStrategy),
    ("disabled_passes", .array (options.disabledPasses.map .text)),
    ("graph_dumps_dir", Json.nullable .text options.dumpDirectory)]

def ofJson? (json : Json) : Option Options := do
  let fields ← json.fields? fieldNames
  let debug ← fields.optional "debug" Json.bool? false
  let noOptimizations ← fields.optional "no_optimizations" Json.bool? false
  let optimizeData ← fields.optional "optimize_data" Json.bool? true
  let outputSizeHandling ←
    fields.optional "output_size_handling" (Json.option? Json.bool?) none
  let enableMemoryPool ← fields.optional "enable_memory_pool" Json.bool? true
  let queueType ←
    fields.optional "queue_type" (Json.name? .strict QueueType.ofName?) .inOrder
  let chosenStrategy ← fields.optional "memory_dependency_strategy"
    (Json.option? (Json.name? .strict MemoryStrategy.ofName?)) none
  let disabledPasses ← fields.optional "disabled_passes" (Json.list? Json.text?) []
  let dumpDirectory ← fields.optional "graph_dumps_dir" (Json.option? Json.text?) none
  return { debug, noOptimizations, optimizeData, outputSizeHandling, enableMemoryPool, queueType,
           chosenStrategy, disabledPasses, dumpDirectory }

def ofText? (text : String) : Option Options := (Json.parse text).bind ofJson?

end LayerGraph.Options
