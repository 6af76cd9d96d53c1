import LayerGraph.Json.Number

/-!
# Lexemes of a JSON text

A text is cut into lexemes by an automaton that looks at one character at a time. Between lexemes
only blanks, tabs, line feeds and carriage returns may stand. A name or a number is the longest run
of characters that names and numbers are made of; what the run means is decided at its end.

Inside quotes every character stands for itself, except that control characters are refused and a
backslash starts an escape. An escape of four hexadecimal digits gives a unit of 16 bits; two of
them can make up a surrogate pair (`TextUnit.join?`).
-/

namespace LayerGraph

/-- A unit of a quoted text: a character, or the 16 bits of an escape. -/
inductive TextUnit where
  | char (value : Char)
  | escaped (bits : Nat)
deriving DecidableEq

namespace TextUnit

def isHigh (bits : Nat) : Bool := 0xD800 ≤ bits && bits ≤ 0xDBFF

def isLow (bits : Nat) : Bool := 0xDC00 ≤ bits && bits ≤ 0xDFFF

def pair (high low : Nat) : Char := Char.ofNat (0x10000 + (high - 0xD800) * 0x400 + (low - 0xDC00))

/-- The text that a list of units stands for. There is none when half of a surrogate pair stands
alone. -/
def join? : List TextUnit → Option (List Char)
  | [] => some []
  | char c :: rest => (join? rest).map (c :: ·)
  | [escaped bits] => if isHigh bits || isLow bits then none else some [Char.ofNat bits]
  | escaped bits :: char c :: rest =>
    if isHigh bits || isLow bits then none
    else (join? rest).map fun after => Char.ofNat bits :: c :: after
  | escaped bits :: escaped next :: rest =>
    if isHigh bits then
      if isLow next then (join? rest).map (pair bits next :: ·) else none
    else if isLow bits then none
    else (join? (escaped next :: rest)).map (Char.ofNat bits :: ·)

end TextUnit

/-- A lexeme of a JSON text. -/
inductive Lexeme where
  | openObject
  | closeObject
  | openArray
  | closeArray
  | colon
  | comma
  /-- A quoted text; there is none behind the quotes when it cannot be read. -/
  | quoted (content : Option String)
  | plain (value : Json)

namespace Lexeme

def isBlank (c : Char) : Bool := c = ' ' || c = '\t' || c = '\n' || c = '\r'

def isPlain (c : Char) : Bool := c.isAlphanum || c = '+' || c = '-' || c = '.'

def mark? (c : Char) : Option Lexeme :=
  if c = '\x7b' then some openObject
  else if c = '\x7d' then some closeObject
  else if c = '[' then some openArray
  else if c = ']' then some closeArray
  else if c = ':' then some colon
  else if c = ',' then some comma
  else none

def plain? (run : List Char) : Option Lexeme :=
  if run = "null".toList then some (plain .null)
  else if run = "true".toList then some (plain (.bool true))
  else if run = "false".toList then some (plain (.bool false))
  else (NumberLiteral.ofChars? run).map fun literal => plain (literal.toJson run)

def escape? (c : Char) : Option Char :=
  if c = '"' then some '"'
  else if c = '\\' then some '\\'
  else if c = '/' then some '/'
  else if c = 'b' then some '\x08'
  else if c = 'f' then some '\x0c'
  else if c = 'n' then some '\n'
  else if c = 'r' then some '\r'
  else if c = 't' then some '\t'
  else none

def hexDigit? (c : Char) : Option Nat :=
  if c.isDigit then some (c.toNat - '0'.toNat)
  else if 'a' ≤ c ∧ c ≤ 'f' then some (c.toNat - 'a'.toNat + 10)
  else if 'A' ≤ c ∧ c ≤ 'F' then some (c.toNat - 'A'.toNat + 10)
  else none

/-- The lexeme of a quoted text, whose units are given last first. -/
def ofUnits (reversed : List TextUnit) : Lexeme :=
  quoted ((TextUnit.join? reversed.reverse).map String.ofList)

/-- Where the automaton stands. What has been gathered is kept last first. -/
inductive Place where
  | between
  | inPlain (run : List Char)
  | inQuotes (units : List TextUnit)
  | afterBackslash (units : List TextUnit)
  /-- Inside an escape of four digits, of which `missing + 1` are still to come. -/
  | inHex (units : List TextUnit) (missing bits : Nat)

def stepBetween (found : List Lexeme) (c : Char) : Option (List Lexeme × Place) :=
  if isBlank c then some (found, .between)
  else if c = '"' then some (found, .inQuotes [])
  else if isPlain c then some (found, .inPlain [c])
  else (mark? c).map fun lexeme => (lexeme :: found, .between)

def step (found : List Lexeme) (place : Place) (c : Char) : Option (List Lexeme × Place) :=
  match place with
  | .between => stepBetween found c
  | .inPlain run =>
    if isPlain c then some (found, .inPlain (c :: run))
    else do
      let lexeme ← plain? run.reverse
      stepBetween (lexeme :: found) c
  | .inQuotes units =>
    if c = '"' then some (ofUnits units :: found, .between)
    else if c = '\\' then some (found, .afterBackslash units)
    else if c.toNat < 0x20 then none
    else some (found, .inQuotes (.char c :: units))
  | .afterBackslash units =>
    if c = 'u' then some (found, .inHex units 3 0)
    else (escape? c).map fun meant => (found, .inQuotes (.char meant :: units))
  | .inHex units missing bits => do
    let digit ← hexDigit? c
    let bits := 16 * bits + digit
    match missing with
    | 0 => some (found, .inQuotes (.escaped bits :: units))
    | missing + 1 => some (found, .inHex units missing bits)

/-- The lexemes of a text, after those that have been found already. -/
def scanFrom (found : List Lexeme) (place : Place) : List Char → Option (List Lexeme)
  | [] =>
    match place with
    | .between => some found.reverse
    | .inPlain run => (plain? run.reverse).map fun lexeme => (lexeme :: found).reverse
    | _ => none
  | c :: rest =>
    match step found place c with
    | some (found, place) => scanFrom found place rest
    | none => none

def scan (text : List Char) : Option (List Lexeme) := scanFrom [] .between text

end Lexeme

end LayerGraph
