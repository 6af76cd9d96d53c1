import LayerGraph.Json.Value

/-!
# Making values of JSON

A reader of type `Json → Option α` makes a value of a JSON value or refuses it. Integers are read
strictly: they are written as integers and lie in the range of their type. One of a few names is a
text, or an object whose only member has that name (`Json.name?`).

A record is an object, where members that nobody asks for are passed over and no field may be
repeated, or an array of its fields in their order, where fields may be missing at the end
(`Json.fields?`). Either way the fields are then looked up by name.
-/

namespace LayerGraph.Json

def text? : Json → Option String
  | text value => some value
  | _ => none

def bool? : Json → Option Bool
  | bool value => some value
  | _ => none

def nat? : Json → Option Nat
  | integer value => if 0 ≤ value then some value.toNat else none
  | _ => none

def uint32? : Json → Option UInt32
  | integer value =>
    if 0 ≤ value ∧ value < UInt32.size then some (UInt32.ofNat value.toNat) else none
  | _ => none

def int32? : Json → Option Int32
  | integer value =>
    if Int32.minValue.toInt ≤ value ∧ value ≤ Int32.maxValue.toInt then some (Int32.ofInt value)
    else none
  | _ => none

def list? {α : Type} (read : Json → Option α) : Json → Option (List α)
  | array items => items.mapM read
  | _ => none

def option? {α : Type} (read : Json → Option α) : Json → Option (Option α)
  | null => some none
  | value => (read value).map some

/-- What may stand behind the name in an object that stands for one of a few names. -/
inductive NameForm where
  | strict
  | lenient
deriving DecidableEq

def name? {α : Type} (form : NameForm) (ofName? : String → Option α) : Json → Option α
  | text name => ofName? name
  | object [(name, null)] => ofName? name
  | object [(name, object [])] => if form = .lenient then ofName? name else none
  | _ => none

abbrev Fields : Type := List (String × Json)

def fields? (names : List String) : Json → Option Fields
  | object members =>
    let known := members.filter fun member => names.contains member.1
    if (known.map Prod.fst).Nodup then some known else none
  | array items => if items.length ≤ names.length then some (names.zip items) else none
  | _ => none

def Fields.required {α : Type} (fields : Fields) (name : String) (read : Json → Option α) :
    Option α :=
  (List.lookup name fields).bind read

/-- A field that stands for `default` when it is not given. -/
def Fields.optional {α : Type} (fields : Fields) (name : String) (read : Json → Option α)
    (default : α) : Option α :=
  match List.lookup name fields with
  | some value => read value
  | none => some default

end LayerGraph.Json
