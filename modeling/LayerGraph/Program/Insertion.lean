import LayerGraph.Program.Derivation

/-!
# Inserting nodes

A node is put between a reader and what the reader reads at a slot. Either only this reader, at
this slot, reads the new node from then on, and the new node takes its place in the processing
order right before the reader; or all readers of what was read do, and the new node takes its place
right after it. The new node itself may be made to read what was read, if it reads nothing yet.
-/

namespace LayerGraph.Edit

/-- How a node is inserted. -/
structure Insertion where
  connect : Bool
  /-- Whether all readers of what was read read the inserted node. -/
  moveUsers : Bool
deriving DecidableEq

/-- Makes a reader read another node at one slot: of the edges with that slot, the newest one. -/
def retarget (program : Program) (node next slot : Nat) : Program :=
  match program.edges.find? fun edge => edge.target == next && edge.slot == slot with
  | some edge =>
    { program with edges := ⟨node, next, slot⟩ :: program.edges.erase edge }
  | none => program

/-- Puts a node in front of all readers of `prev`. -/
def insertForAll (node prev : NodeKey) : Edit Unit := do
  modify fun program =>
    let moved := program.redirectAll ((program.users prev).filter (· != node)) prev node
    if moved.order.isEmpty then moved
    else { moved with order := moved.order.insertAfter prev node }
  markConstant node
  markDataFlow node

/-- Puts a node in front of `next` at one slot, where `next` reads `prev`. -/
def insertForOne (node next slot prev : NodeKey) : Edit Unit := do
  modify fun program =>
    let moved := retarget program node next slot
    if moved.order.isEmpty then moved
    else { moved with order := moved.order.insertBefore next node }
  let source ← nodeAt prev
  modify (·.modifyNode node fun inserted =>
    { inserted with isConstant := source.isConstant, inDataFlow := source.inDataFlow })

/-- Puts a node between `next` and what it reads at a slot. -/
def insertAt (node next slot : NodeKey) (how : Insertion) : Edit Unit := do
  requireLive node
  requireLive next
  let program ← get
  let dependencies := program.dependencies next
  let some prev := dependencies[slot]? | do
    let reader ← nodeAt next
    refuse (.dependencyIndex reader.id slot dependencies.length)
  if how.connect then
    unless program.dependencyCount node == 0 do
      let inserted ← nodeAt node
      refuse (.notDetached inserted.id .intermediateHasDependencies)
    modify (·.attach prev node)
  if how.moveUsers then insertForAll node prev else insertForOne node next slot prev
  modify fun program =>
    if program.dependencyCount node == 0 then program
    else { program with inputs := program.inputs.filter (· != node) }

/-- Puts a new node between `next` and what it reads at a slot. The new node stays even when it
cannot be put there. -/
def insertPrimitive (primitive : Primitive) (next slot : NodeKey) (how : Insertion) :
    Edit NodeKey := do
  if (← get).hasId primitive.id then refuse (.duplicateId primitive.id)
  let key ← ensure primitive
  insertAt key next slot how
  return key

/-- Puts a node between `next` and the first slot at which it reads `prev`. -/
def insertBetween (node next prev : NodeKey) (how : Insertion) : Edit Unit := do
  requireLive prev
  let program ← get
  match (program.dependencies next).idxOf? prev with
  | some slot => insertAt node next slot how
  | none =>
    let source ← nodeAt prev
    let reader ← nodeAt next
    refuse (.notADependency source.id reader.id)

end LayerGraph.Edit
