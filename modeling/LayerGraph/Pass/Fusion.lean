import LayerGraph.Build.Session
import LayerGraph.Program.Derivation
import LayerGraph.Program.Removal

/-!
# Fusing layers and buffers

An activation is fused into the convolution, element-wise or fully connected layer that it reads
when nothing else reads that layer (`Build.fuseActivations`). A reshape, or a crop of a single
batch, runs in place on the buffer of what it reads (`Build.shareBuffers`).
-/

namespace LayerGraph

def KindTag.takesActivation (tag : KindTag) : Bool :=
  tag == .convolution || tag == .eltwise || tag == .fullyConnected

/-- Whether a node of some kind can run in place on a buffer with a given layout. -/
def Kind.canRunInPlace (kind : Kind) (source : Option Layout) : Bool :=
  match kind with
  | .reshape _ => true
  | .crop _ _ => source.any fun layout => layout.format == .bfyx && layout.shape.batch == 1
  | _ => false

namespace Program

/-- The node that an activation can be fused into, given the node of the activation. -/
def fusionTarget? (program : Program) (key : NodeKey) (node : Node) : Option NodeKey :=
  match program.dependencies key with
  | [input] =>
    let fusable := (program.node? input).any fun target =>
      target.tag.takesActivation && target.fused.isNone && !target.isOutput
    if !node.isOutput && fusable && program.userCount input == 1 then some input else none
  | _ => none

def shareBuffer (program : Program) (key : NodeKey) : Program :=
  match program.node? key, program.dependencyNodes key with
  | some node, [source] =>
    if node.padding.isZero && source.padding.isZero && node.kind.canRunInPlace source.layout then
      program.modifyNode key fun node => { node with runsInPlace := true }
    else program
  | _, _ => program

end Program

/-- Fuses a node into what it reads, if it is an activation for which this is possible. -/
def Edit.fuse (key : NodeKey) : Edit Unit := do
  let node ← nodeAt key
  match node.kind with
  | .activation function =>
    match (← get).fusionTarget? key node with
    | some input =>
      if ← bypass key then
        modify (·.modifyNode input fun target => { target with fused := some function })
    | none => pure ()
  | _ => pure ()

namespace Build

def fuseActivations : Build Unit := do
  edit ((← program).order.toList.forM Edit.fuse)

def shareBuffers : Build Unit :=
  modifyProgram fun program => program.order.toList.foldl Program.shareBuffer program

end Build

end LayerGraph
