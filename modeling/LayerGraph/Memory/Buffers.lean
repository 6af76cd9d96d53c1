import LayerGraph.Program.Basic

/-!
# Buffers

Every node owns the buffer that its output is written to, with two exceptions: a constant buffer is
there from the start and takes no part, and a node that runs in place uses the buffer of what it
reads. The latter is left out of account by the basic strategy, which counts it as an owner.

A buffer is read by the readers of its owner. When one of them runs in place, it is the readers of
that one that read the buffer; and when it is an output, the buffer is kept.

`Buffer` gathers what decides whether two buffers may share storage: the position of the owner in
the processing order, the position up to which the buffer is needed, its readers, and whether it is
kept to the end.
-/

namespace LayerGraph

/-- A buffer and its uses. -/
structure Buffer where
  owner : NodeKey
  start : Nat
  stop : Nat
  readers : List NodeKey
  isKept : Bool
deriving DecidableEq

namespace Program

def aliases (program : Program) (skipInPlace : Bool) (key : NodeKey) : Bool :=
  skipInPlace && (program.node? key).any (·.runsInPlace)

/-- The readers of a node, and the readers of those that run in place. -/
def bufferUsers (program : Program) (skipInPlace : Bool) (key : NodeKey) : List NodeKey :=
  reach (fun user => if program.aliases skipInPlace user then program.users user else [])
    program.keys (program.users key) []

/-- The buffer of a node at a position of the processing order. -/
def bufferOf (program : Program) (skipInPlace : Bool) (position : Nat) (key : NodeKey)
    (node : Node) : Buffer :=
  let users := program.bufferUsers skipInPlace key
  let readers := users.filter fun user => !program.aliases skipInPlace user
  let escapes := users.any fun user =>
    program.aliases skipInPlace user && (program.node? user).any (·.isOutput)
  let isKept := node.isOutput || escapes
  let stop :=
    if isKept then program.order.size
    else (readers.filterMap program.order.position?).foldl max position
  { owner := key, start := position, stop, readers, isKept }

/-- The buffers of the nodes at the given keys, which stand in the processing order from a position
on. -/
def buffersFrom (program : Program) (skipInPlace : Bool) :
    Nat → List NodeKey → Checked (List Buffer)
  | _, [] => pure []
  | position, key :: rest => do
    let node ← program.nodeAt key
    let buffers ← program.buffersFrom skipInPlace (position + 1) rest
    if node.tag == .data || (skipInPlace && node.runsInPlace) then return buffers
    else return program.bufferOf skipInPlace position key node :: buffers

def buffers (program : Program) (skipInPlace : Bool) : Checked (List Buffer) :=
  program.buffersFrom skipInPlace 0 program.order.toList

end Program

end LayerGraph
