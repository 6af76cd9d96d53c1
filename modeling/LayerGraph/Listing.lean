import LayerGraph.Program.Basic

/-!
# Listings

The listing of a program has one line for every node, in processing order, followed by those that
are not in the order. A line gives the number of the node in the order, its id and its kind. A full
line also gives what it reads and who reads it, its layout and its flags. Another listing gives the
memory dependencies of every node.
-/

namespace LayerGraph

/-- A text, filled up with blanks on the left to three characters. -/
def padToThree (text : String) : String :=
  String.ofList (List.replicate (3 - text.length) ' ') ++ text

def Node.flagTexts (node : Node) : List String :=
  (if node.isOutput then ["output"] else []) ++
    (if node.isConstant then ["constant"] else []) ++
    (if node.inDataFlow then ["data_flow"] else []) ++
    (if node.runsInPlace then ["optimized"] else []) ++
    (match node.fused with
      | some activation => [s!"fused={activation.name}"]
      | none => [])

def commaSeparated (texts : List String) : String := ", ".intercalate texts

namespace Program

def idsOf (program : Program) (keys : List NodeKey) : Checked (List String) :=
  keys.mapM fun key => Node.id <$> program.nodeAt key

def lineDetails (program : Program) (key : NodeKey) (node : Node) : Checked String := do
  let reads ← program.idsOf (program.dependencies key)
  let readers ← program.idsOf (program.users key)
  let edges := s!" deps: [{commaSeparated reads}] users: [{commaSeparated readers}]"
  let layout := match node.layout with
    | some layout => s!" layout: {layout.text}"
    | none => ""
  let flags := match node.flagTexts with
    | [] => ""
    | texts => s!" \x7b{commaSeparated texts}\x7d"
  return edges ++ layout ++ flags

def listingLine (program : Program) (full : Bool) (key : NodeKey) (node : Node) :
    Checked String := do
  let number := match program.order.number? key with
    | some number => toString number
    | none => "-"
  let details ← if full then program.lineDetails key node else pure ""
  return s!"{padToThree number} {node.id} [{node.tag.name}]{details}\n"

/-- The lines of nodes of the kept kind, or of all nodes when no kind is given. -/
def listingLines (program : Program) (full : Bool) (kept : Option KindTag) :
    List NodeKey → Checked String
  | [] => pure ""
  | key :: rest => do
    let node ← program.nodeAt key
    let line ←
      if kept.all (· == node.tag) then program.listingLine full key node else pure ""
    let lines ← program.listingLines full kept rest
    return line ++ lines

def listing (program : Program) (stage : String) (full : Bool) (kept : Option KindTag) :
    Checked String := do
  let unordered := program.keys.filter fun key => !program.order.contains key
  let lines ← program.listingLines full kept (program.order.toList ++ unordered)
  return s!"program {program.id} after {stage}: {program.nodeCount} nodes\n{lines}"

def conflictLines (program : Program) : List NodeKey → Checked String
  | [] => pure ""
  | key :: rest => do
    let node ← program.nodeAt key
    let lines ← program.conflictLines rest
    let ids := commaSeparated node.conflicts
    return s!"primitive: {node.id} restricted list: {ids}\n{lines}"

/-- The listing of the memory dependencies of all nodes, in processing order. -/
def conflictListing (program : Program) : Checked String := do
  let lines ← program.conflictLines program.order.toList
  return s!"Memory dependencies/restrictions:\n{lines}"

end Program

end LayerGraph
