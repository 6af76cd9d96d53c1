/-!
# Results that may be cut short

Sizes are machine words, and nodes are named by keys that can go stale. A computation that leaves
the range of its word, or that follows a key to a node that is no longer there, has no answer: it
is cut short, and nothing after it runs. `Checked α` is a value of type `α` or the reason there is
none. The three range checks are the only places where a word can overflow.
-/

namespace LayerGraph

/-- Why a computation is cut short. -/
inductive Abort where
  | overflow
  | deadKey (key : Nat)
deriving DecidableEq

abbrev Checked (α : Type) : Type := Except Abort α

namespace Checked

def signed64 (value : Int) : Checked Int :=
  if Int64.minValue.toInt ≤ value ∧ value ≤ Int64.maxValue.toInt then .ok value
  else .error .overflow

def unsigned64 (value : Nat) : Checked Nat :=
  if value < UInt64.size then .ok value else .error .overflow

def unsigned32 (value : Nat) : Checked UInt32 :=
  if value < UInt32.size then .ok (UInt32.ofNat value) else .error .overflow

end Checked

end LayerGraph
