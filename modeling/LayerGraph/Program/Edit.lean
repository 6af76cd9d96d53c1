import LayerGraph.Program.Wiring

/-!
# Edits that can fail

An edit changes a program, and may be refused or cut short. Whatever it has changed until then
stays changed, so that an edit is a function from a program to a result together with a program
(`Edit`).
-/

namespace LayerGraph

abbrev Edit : Type → Type := EStateM Fault Program

def Checked.lift {α σ : Type} : Checked α → EStateM Fault σ α
  | .ok value => pure value
  | .error cause => throw (.aborted cause)

/-- A value that may be refused as a step of a larger computation. -/
def Error.lift {α σ : Type} : Except Error α → EStateM Fault σ α
  | .ok value => pure value
  | .error error => throw (.refused error)

namespace Edit

def refuse {α : Type} (error : Error) : Edit α := throw (.refused error)

/-- The node of a key; the edit is cut short when there is none. -/
def nodeAt (key : NodeKey) : Edit Node := do
  (← get).nodeAt key |>.lift

def requireLive (key : NodeKey) : Edit Unit := do
  unless (← get).contains key do refuse (.unknownKey key)

/-- A node for a primitive: the one that has its id already, or a new one. -/
def ensure (primitive : Primitive) : Edit NodeKey :=
  modifyGet fun program =>
    let (program, key) := program.ensure primitive
    (key, program)

/-- Computes the processing order anew, depth first from the outputs. -/
def orderDepthFirst : Edit Unit := do
  let program ← get
  match program.graph.depthFirst program.outputs with
  | .ok order => set { program with order }
  | .error key =>
    let node ← nodeAt key
    refuse (.cycle node.id)

end Edit

end LayerGraph
