import LayerGraph.Order.Basic
import LayerGraph.Primitive.Kind

/-!
# Errors

The causes for which an operation on a program or a build is refused, each with the text that tells
a user about it (`Error.message`). A `Fault` is how an operation fails: it is refused for such a
cause, or it is cut short.
-/

namespace LayerGraph

/-- In which way a node that has to stand alone is attached. -/
inductive Attachment where
  | intermediateHasDependencies
  | replacementHasConnections
  | replacementIsOutput
deriving DecidableEq

def Attachment.text : Attachment → String
  | intermediateHasDependencies => "intermediate already has dependencies"
  | replacementHasConnections => "replacement node already has connections"
  | replacementIsOutput => "replacement node is an output"

/-- Why an operation is refused. -/
inductive Error where
  | duplicateId (id : String)
  | unresolvedDependency (id dependency : String)
  | nodeNotFound (id : String)
  | unknownKey (key : NodeKey)
  | typeMismatch (id : String) (expected actual : KindTag)
  | cycle (id : String)
  | notADependency (dependency user : String)
  | dependencyIndex (id : String) (index count : Nat)
  | notDetached (id : String) (attachment : Attachment)
  | renameOutput (id : String)
  | inputHasDependencies (id : String)
  /-- A pass has left a node at a wrong place in the processing order. -/
  | misplacedNode (pass node : String)
  | backend (id reason : String)
  | dump (reason : String)
deriving DecidableEq

namespace Error

def message : Error → String
  | duplicateId id => s!"duplicate primitive id: '{id}'"
  | unresolvedDependency id dependency =>
    s!"program doesn't contain primitive '{dependency}' that is input to '{id}'"
  | nodeNotFound id => s!"node not found: '{id}'"
  | unknownKey key => s!"unknown node key #{key}"
  | typeMismatch id expected actual =>
    s!"node '{id}' is {actual.title}, expected {expected.title}"
  | cycle id => s!"dependency cycle through '{id}'"
  | notADependency dependency user =>
    s!"invalid connection: '{dependency}' is not a dependency of '{user}'"
  | dependencyIndex id index count =>
    s!"node '{id}' has {count} dependencies, index {index} is out of range"
  | notDetached id attachment => s!"node '{id}' must be detached: {attachment.text}"
  | renameOutput id => s!"trying to rename output node '{id}'"
  | inputHasDependencies id => s!"declared input '{id}' has dependencies"
  | misplacedNode pass node =>
    s!"processing order check failed after pass '{pass}': node '{node}' precedes a dependency"
  | backend id reason => s!"backend failed on '{id}': {reason}"
  | dump reason => s!"failed to write graph dump: {reason}"

end Error

/-- How an operation fails. -/
inductive Fault where
  | refused (error : Error)
  | aborted (cause : Abort)
deriving DecidableEq

end LayerGraph
