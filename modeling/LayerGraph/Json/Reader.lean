import LayerGraph.Json.Lexeme

/-!
# Reading JSON

The lexemes of a text are put together by a machine that keeps the containers it is inside of on a
stack. After every lexeme it expects one of a few things (`Awaited`). A text is a document when the
machine ends outside of all containers with one value (`Json.parse`).
-/

namespace LayerGraph.Json

/-- A container that is not closed yet. What it holds is kept last first. -/
inductive Frame where
  | items (done : List Json)
  | members (done : List (Option String × Json))
  /-- An object, with the name of the member that is being read. -/
  | member (done : List (Option String × Json)) (name : Option String)

/-- What the machine expects next. -/
inductive Awaited where
  /-- A value; the end of the array is allowed too when nothing stands in it. -/
  | value (mayClose : Bool)
  /-- The name of a member; the end of the object is allowed too when nothing stands in it. -/
  | name (mayClose : Bool)
  | colon (name : Option String)
  /-- What follows a value: a comma, or the end of the container or of the document. -/
  | sequel (value : Json)

def ofQuoted : Option String → Json
  | some content => text content
  | none => unreadable

/-- The members of an object with their names, when all of these can be read. -/
def named? : List (Option String × Json) → Option (List (String × Json))
  | [] => some []
  | (some name, value) :: rest => (named? rest).map ((name, value) :: ·)
  | (none, _) :: _ => none

def ofMembers (done : List (Option String × Json)) : Json :=
  match named? done.reverse with
  | some members => object members
  | none => unreadable

def advance : List Frame × Awaited → Lexeme → Option (List Frame × Awaited)
  | (stack, .value _), .openArray => some (.items [] :: stack, .value true)
  | (stack, .value _), .openObject => some (.members [] :: stack, .name true)
  | (stack, .value _), .quoted content => some (stack, .sequel (ofQuoted content))
  | (stack, .value _), .plain value => some (stack, .sequel value)
  | (.items [] :: stack, .value true), .closeArray => some (stack, .sequel (array []))
  | (stack, .name _), .quoted name => some (stack, .colon name)
  | (.members [] :: stack, .name true), .closeObject => some (stack, .sequel (object []))
  | (.members done :: stack, .colon name), .colon =>
    some (.member done name :: stack, .value false)
  | (.items done :: stack, .sequel value), .comma =>
    some (.items (value :: done) :: stack, .value false)
  | (.items done :: stack, .sequel value), .closeArray =>
    some (stack, .sequel (array (value :: done).reverse))
  | (.member done name :: stack, .sequel value), .comma =>
    some (.members ((name, value) :: done) :: stack, .name false)
  | (.member done name :: stack, .sequel value), .closeObject =>
    some (stack, .sequel (ofMembers ((name, value) :: done)))
  | _, _ => none

def assemble (lexemes : List Lexeme) : Option Json :=
  match lexemes.foldlM advance ([], .value false) with
  | some ([], .sequel value) => some value
  | _ => none

def parse (text : String) : Option Json := (Lexeme.scan text.toList).bind assemble

end LayerGraph.Json
