import LayerGraph.Program.Wiring

/-!
# Building programs

A program is made from a topology (`Program.ofTopology`) or from some of the nodes of another
program (`Program.ofNodes`).

A topology is refused when an id is declared twice, when a primitive reads an id that no node has,
when a declared input reads something, or when a declared input or output does not exist. A split
layer that reads something gets a crop for each of its parts, which reads what the split reads;
readers of a part read the crop. An id that is taken already is left as it is.

Nodes taken out of another program keep their dependencies among each other, their fused
activations and their borders. Constant buffers become inputs of the same layout.
-/

namespace LayerGraph.Program

def declare (program : Program) (primitive : Primitive) : Except Error Program :=
  if program.hasId primitive.id then .error (.duplicateId primitive.id)
  else .ok (program.ensure primitive).1

/-- The crops for the parts of a split layer with the given id, which reads `input`. A part ends
where the next one begins; the last one goes on to the end. -/
def splitCrops (split input : String) : List SplitPart → List Primitive
  | [] => []
  | part :: rest =>
    let features := rest.head?.map fun next =>
      UInt32.ofNat (next.featureOffset.toNat - part.featureOffset.toNat)
    { id := splitPartId split part.name
      kind := .crop part.featureOffset features
      inputs := [input] } :: splitCrops split input rest

def cropsOf (node : Node) : List Primitive :=
  match node.kind, node.primitive.inputs with
  | .split parts, input :: _ => splitCrops node.id input parts
  | _, _ => []

def addSplitCrops (program : Program) : Program :=
  (program.store.nodes.flatMap cropsOf).foldl (fun program crop => (program.ensure crop).1) program

def resolve (user : NodeKey) (userId : String) (program : Program) (id : String) :
    Except Error Program :=
  match program.keyOf? id with
  | some key => .ok (program.attach key user)
  | none => .error (.unresolvedDependency userId id)

/-- Makes a node read everything that its primitive declares. -/
def resolveInputs (program : Program) (key : NodeKey) : Except Error Program :=
  match program.node? key with
  | some node => node.primitive.inputs.foldlM (resolve key node.id) program
  | none => .ok program

/-- Makes sure that a declared input exists and reads nothing. -/
def checkInput (program : Program) (id : String) : Except Error Unit := do
  let key ← program.requireKey id
  if program.dependencyCount key = 0 then pure () else throw (.inputHasDependencies id)

def declareOutput (program : Program) (id : String) : Except Error Program := do
  let key ← program.requireKey id
  return program.setOutput key true

/-- The program of a topology. Its processing order is still empty. -/
def ofTopology (id : Nat) (topology : Topology) (options : Options) (isInternal : Bool) :
    Except Error Program := do
  let declared ← topology.primitives.foldlM declare { id, options, isInternal }
  let complete := declared.addSplitCrops
  let wired ← complete.keys.foldlM resolveInputs complete
  let program := wired.collectInputs
  topology.inputs.forM program.checkInput
  topology.outputs.foldlM declareOutput program

/-- The primitive under which a node is taken into another program. -/
def copiedPrimitive (node : Node) : Primitive :=
  match node.kind with
  | .data layout => .inputLayout node.id layout
  | _ => node.primitive

def copyNode (source : Program) (program : Program) (key : NodeKey) : Except Error Program :=
  match source.node? key with
  | none => .error (.unknownKey key)
  | some node =>
    let (program, copy) := program.ensure (copiedPrimitive node)
    .ok (program.modifyNode copy fun fresh =>
      { fresh with fused := node.fused }.withPadding node.padding)

def idOf (program : Program) (key : NodeKey) : String :=
  match program.node? key with
  | some node => node.id
  | none => ""

/-- Makes a copied node read the copies of what its model reads. -/
def copyEdges (source : Program) (program : Program) (key : NodeKey) : Except Error Program := do
  let id := source.idOf key
  let copy ← program.requireKey id
  ((source.dependencies key).map source.idOf).foldlM (resolve copy id) program

/-- The program of some nodes of another one. Everything they read has to be among them. -/
def ofNodes (id : Nat) (source : Program) (keys : List NodeKey) (options : Options) :
    Except Error Program := do
  let copied ← keys.foldlM (copyNode source) { id, options, isInternal := true }
  let wired ← keys.foldlM (copyEdges source) copied
  return wired.collectInputs

end LayerGraph.Program
