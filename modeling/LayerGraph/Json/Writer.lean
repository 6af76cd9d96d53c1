import LayerGraph.Json.Value

/-!
# Writing JSON

A value is written on one line (`Json.render`), or over several lines with two blanks for every
level (`Json.pretty`). In quoted texts the quote, the backslash and the control characters are
escaped; everything else stands for itself.
-/

namespace LayerGraph.Json

def hexDigit (digit : Nat) : Char :=
  if digit < 10 then Char.ofNat ('0'.toNat + digit) else Char.ofNat ('a'.toNat + digit - 10)

def quoteChar (c : Char) : List Char :=
  if c = '"' then ['\\', '"']
  else if c = '\\' then ['\\', '\\']
  else if c = '\x08' then ['\\', 'b']
  else if c = '\x0c' then ['\\', 'f']
  else if c = '\n' then ['\\', 'n']
  else if c = '\r' then ['\\', 'r']
  else if c = '\t' then ['\\', 't']
  else if c.toNat < 0x20 then
    ['\\', 'u', '0', '0', hexDigit (c.toNat / 16), hexDigit (c.toNat % 16)]
  else [c]

def quote (content : String) : List Char := '"' :: content.toList.flatMap quoteChar ++ ['"']

def scalarChars : Json → List Char
  | null => "null".toList
  | bool true => "true".toList
  | bool false => "false".toList
  | integer value => (toString value).toList
  | decimal literal => literal.toList
  | text content => quote content
  | _ => "null".toList

mutual

def chars : Json → List Char
  | array [] => ['[', ']']
  | array (item :: rest) => '[' :: (chars item ++ moreItems rest)
  | object [] => ['\x7b', '\x7d']
  | object ((name, value) :: rest) =>
    '\x7b' :: (quote name ++ ':' :: (chars value ++ moreMembers rest))
  | scalar => scalarChars scalar

def moreItems : List Json → List Char
  | [] => [']']
  | item :: rest => ',' :: (chars item ++ moreItems rest)

/-- The members after the first one, and the end of the object. -/
def moreMembers : List (String × Json) → List Char
  | [] => ['\x7d']
  | (name, value) :: rest => ',' :: (quote name ++ ':' :: (chars value ++ moreMembers rest))

end

def render (value : Json) : String := String.ofList value.chars

def newLine (level : Nat) : List Char := '\n' :: List.replicate (2 * level) ' '

mutual

/-- A value over several lines, inside `level` containers. -/
def prettyChars (level : Nat) : Json → List Char
  | array [] => ['[', ']']
  | array (item :: rest) =>
    '[' :: (newLine (level + 1) ++ prettyChars (level + 1) item ++ prettyItems level rest)
  | object [] => ['\x7b', '\x7d']
  | object ((name, value) :: rest) =>
    '\x7b' :: (newLine (level + 1) ++ quote name ++ [':', ' '] ++
      prettyChars (level + 1) value ++ prettyMembers level rest)
  | scalar => scalarChars scalar

def prettyItems (level : Nat) : List Json → List Char
  | [] => newLine level ++ [']']
  | item :: rest =>
    ',' :: (newLine (level + 1) ++ prettyChars (level + 1) item ++ prettyItems level rest)

/-- The members after the first one, and the end of the object. -/
def prettyMembers (level : Nat) : List (String × Json) → List Char
  | [] => newLine level ++ ['\x7d']
  | (name, value) :: rest =>
    ',' :: (newLine (level + 1) ++ quote name ++ [':', ' '] ++
      prettyChars (level + 1) value ++ prettyMembers level rest)

end

def pretty (value : Json) : String := String.ofList (value.prettyChars 0)

end LayerGraph.Json
