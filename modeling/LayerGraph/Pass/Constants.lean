import LayerGraph.Build.Session
import LayerGraph.Program.Connection
import LayerGraph.Program.Construction
import LayerGraph.Program.Removal
import LayerGraph.Program.Replacement

/-!
# Folding constants

The constant part of a program can be evaluated while it is built. The constant nodes, with the
constant buffers that they read, are taken into a program of their own, which is built and handed
to the backend (`Build.foldConstants`). Every constant node that is an output or is read by a node
that is not constant is then replaced by a constant buffer with the same id and layout, and what is
left of the constant part without readers is removed.

How the program of the constant part is built is a parameter: it is a build without this pass.
-/

namespace LayerGraph

/-- The parts of a program that matter when constants are folded, each in processing order. -/
structure ConstantPart where
  computed : List NodeKey
  boundary : List NodeKey
  /-- The computed nodes and the constant buffers that they read. -/
  selection : List NodeKey
deriving DecidableEq

/-- Whether a node is constant without being a constant buffer. -/
def Node.isComputedConstant (node : Node) : Bool := node.isConstant && node.tag != .data

def Options.forConstants (options : Options) : Options :=
  { optimizeData := options.optimizeData, enableMemoryPool := false }

/-- The id of the constant buffer that replaces a node, before it takes the node's own. -/
def foldedId (id : String) : String := s!"_const_prop_{id}"

namespace Program

/-- The keys of a list whose nodes satisfy a condition; all of them have to be live. -/
def selectKeys (program : Program) (condition : NodeKey → Node → Bool) :
    List NodeKey → Checked (List NodeKey)
  | [] => pure []
  | key :: rest => do
    let node ← program.nodeAt key
    let others ← program.selectKeys condition rest
    return if condition key node then key :: others else others

/-- Whether the value of a constant node is needed outside of the constant part. -/
def isBoundary (program : Program) (key : NodeKey) (node : Node) : Bool :=
  node.isOutput ||
    (program.users key).any fun user => !(program.node? user).any (·.isConstant)

def constantPart (program : Program) : Checked ConstantPart := do
  let keys := program.order.toList
  let computed ← program.selectKeys (fun _ node => node.isComputedConstant) keys
  let boundary ← program.selectKeys program.isBoundary computed
  let selection ← program.selectKeys (fun key node =>
    computed.contains key ||
      (node.tag == .data && (program.users key).any computed.contains)) keys
  return { computed, boundary, selection }

/-- Makes the copies of boundary nodes outputs of the program of the constant part. -/
def exposeBoundary (program : Program) (boundary : List NodeKey) (inner : Program) : Program :=
  boundary.foldl (fun inner key =>
    match inner.keyOf? (program.idOf key) with
    | some copy => inner.setOutput copy true
    | none => inner) inner

end Program

/-- Replaces a node with a known layout by a constant buffer. Only its readers are handed over. -/
def Edit.replaceByData (key : NodeKey) : Edit Unit := do
  let node ← nodeAt key
  match node.layout with
  | none => pure ()
  | some layout =>
    ((← get).dependencies key).forM fun dependency => disconnect dependency key
    let folded ← ensure (.data (foldedId node.id) layout)
    replace key folded

/-- Evaluates the constant part ahead of time; `buildInner` builds its program. -/
def Build.foldConstants (buildInner : Build Unit) : Build Unit := do
  let program ← program
  let part ← program.constantPart.lift
  unless part.computed.isEmpty do
    let number ← takeNumber
    let copied ← Error.lift
      (Program.ofNodes number program part.selection program.options.forConstants)
    let built ← within (program.exposeBoundary part.boundary copied) buildInner
    call (.fold built)
    edit (part.boundary.forM Edit.replaceByData)
    let candidates := program.order.toList.reverse.filter fun key =>
      part.computed.contains key || part.selection.contains key
    edit (candidates.forM fun key => discard (Edit.prune key))

end LayerGraph
