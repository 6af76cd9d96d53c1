import LayerGraph.Primitive.Kind

/-!
# Primitives and topologies

A `Primitive` describes one layer as the front end hands it over: its id, its kind, the ids it
reads, and the border requested around its output. A `Topology` is a list of primitives with the
declared inputs and outputs of the network.

A part of a split layer is read under an id made of the id of the split and the name of the part
(`splitPartId`).
-/

namespace LayerGraph

/-- The description of one layer. -/
structure Primitive where
  id : String
  kind : Kind
  inputs : List String := []
  outputPadding : Padding := {}
deriving DecidableEq

namespace Primitive

def tag (primitive : Primitive) : KindTag := primitive.kind.tag

def reorder (id input : String) (format : Format) : Primitive :=
  { id, kind := .reorder format, inputs := [input] }

def data (id : String) (layout : Layout) : Primitive := { id, kind := .data layout }

def inputLayout (id : String) (layout : Layout) : Primitive := { id, kind := .inputLayout layout }

end Primitive

def splitPartId (split part : String) : String := s!"{split}:{part}"

/-- A network as the front end hands it over. -/
structure Topology where
  primitives : List Primitive
  inputs : List String := []
  outputs : List String := []
deriving DecidableEq

end LayerGraph
