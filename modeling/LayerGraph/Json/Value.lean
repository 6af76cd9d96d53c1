/-!
# JSON values

A document is read into a value of type `Json` before anything is made of it. Objects keep their
members in the order in which they stand, repeated names included, so that a reader of records can
refuse a repeated field.

Numbers are integers or they are not: a number with a fraction or an exponent, a negative zero, and
an integer of more than 64 bits are all kept as they were written (`Json.decimal`).

Some values obey the grammar and still cannot be read: a number too large for a double, a text with
half of a surrogate pair, an object one of whose names is such a text. They are `Json.unreadable`.
A member that nobody asks for may hold one, and may be nested to any depth. A member that is set
aside to be looked at later may not (`Json.readable`).
-/

namespace LayerGraph

/-- A JSON value. -/
inductive Json where
  | null
  | bool (value : Bool)
  | integer (value : Int)
  | decimal (literal : String)
  | text (value : String)
  | unreadable
  | array (items : List Json)
  | object (members : List (String × Json))

namespace Json

/-- How deeply the containers of a document may be nested around a value that is set aside. -/
def nestingLimit : Nat := 127

mutual

/-- Whether a value can be read, with containers nested at most `depth` deep. -/
def readable (depth : Nat) : Json → Bool
  | unreadable => false
  | array items => 0 < depth && readableItems (depth - 1) items
  | object members => 0 < depth && readableMembers (depth - 1) members
  | _ => true

def readableItems (depth : Nat) : List Json → Bool
  | [] => true
  | item :: rest => readable depth item && readableItems depth rest

def readableMembers (depth : Nat) : List (String × Json) → Bool
  | [] => true
  | (_, value) :: rest => readable depth value && readableMembers depth rest

end

def nat (value : Nat) : Json := integer value

def nullable {α : Type} (write : α → Json) : Option α → Json
  | some value => write value
  | none => null

end Json

end LayerGraph
