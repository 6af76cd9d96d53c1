/-!
# Processing orders

A processing order lists the nodes of a program in the order in which they are prepared and run.
No key is listed twice, and every edit keeps it so: a key that is put somewhere is first taken away
from where it was. Keys that an edit is not given keep their relative order.
-/

namespace LayerGraph

abbrev NodeKey : Type := Nat

/-- A list of keys, none of them twice. -/
structure ProcessingOrder where
  toList : List NodeKey := []
deriving DecidableEq

namespace ProcessingOrder

def empty : ProcessingOrder := {}

def isEmpty (order : ProcessingOrder) : Bool := order.toList.isEmpty

def size (order : ProcessingOrder) : Nat := order.toList.length

def contains (order : ProcessingOrder) (key : NodeKey) : Bool := order.toList.contains key

def get? (order : ProcessingOrder) (position : Nat) : Option NodeKey := order.toList[position]?

def position? (order : ProcessingOrder) (key : NodeKey) : Option Nat := order.toList.idxOf? key

def number? (order : ProcessingOrder) (key : NodeKey) : Option Nat :=
  (order.position? key).map (· + 1)

def erase (order : ProcessingOrder) (key : NodeKey) : ProcessingOrder :=
  ⟨order.toList.filter (· != key)⟩

def push (order : ProcessingOrder) (key : NodeKey) : ProcessingOrder :=
  if order.contains key then order else ⟨order.toList ++ [key]⟩

/-- Puts a key at a position among the other keys, or at the end when there is no such position. -/
def insertAt (order : ProcessingOrder) (position : Nat) (key : NodeKey) : ProcessingOrder :=
  let others := (order.erase key).toList
  ⟨others.insertIdx (min position others.length) key⟩

/-- Puts a key directly before another one, or at the end when that one is not listed. -/
def insertBefore (order : ProcessingOrder) (anchor key : NodeKey) : ProcessingOrder :=
  let others := order.erase key
  match others.position? anchor with
  | some position => others.insertAt position key
  | none => others.push key

/-- Puts a key directly after another one, or at the end when that one is not listed. -/
def insertAfter (order : ProcessingOrder) (anchor key : NodeKey) : ProcessingOrder :=
  let others := order.erase key
  match others.position? anchor with
  | some position => others.insertAt (position + 1) key
  | none => others.push key

/-- Puts one key in the place of another, which is taken away. Nothing happens when the key to be
taken away is not listed; a key cannot stand in its own place. -/
def replace (order : ProcessingOrder) (old new : NodeKey) : ProcessingOrder :=
  if order.contains old then (order.insertBefore old new).erase old else order

end ProcessingOrder

end LayerGraph
