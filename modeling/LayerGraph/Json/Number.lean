import LayerGraph.Json.Value

/-!
# Number literals

A number literal has a sign, digits, and possibly a fraction and an exponent. Leading zeros are not
allowed, and every part that is begun has at least one digit.

The value of a literal matters in two ways only. A literal without fraction and exponent is an
integer when it fits into a word of 64 bits. Any other literal stands for a double, and cannot be
read when it is too large for one. The digits of such a literal are gathered into a word of 64
bits as long as they fit; the rest only moves the exponent. Both the digits and the power of ten
are rounded to the precision of a double before they are multiplied (`NumberLiteral.fitsDouble`).
-/

namespace LayerGraph

/-- The parts of a number literal. -/
structure NumberLiteral where
  negative : Bool
  whole : List Nat
  fraction : List Nat
  exponent : Option Int
deriving DecidableEq

namespace NumberLiteral

def digit? (c : Char) : Option Nat :=
  if c.isDigit then some (c.toNat - '0'.toNat) else none

def digits : List Char → List Nat × List Char
  | [] => ([], [])
  | c :: rest =>
    match digit? c with
    | some value => let (more, after) := digits rest; (value :: more, after)
    | none => ([], c :: rest)

def value (digits : List Nat) : Nat := digits.foldl (fun total digit => 10 * total + digit) 0

def allDigits? (text : List Char) : Option (List Nat) :=
  match digits text with
  | ([], _) => none
  | (found, []) => some found
  | _ => none

def exponent? : List Char → Option Int
  | '+' :: rest => (allDigits? rest).map fun found => (value found : Int)
  | '-' :: rest => (allDigits? rest).map fun found => -(value found : Int)
  | rest => (allDigits? rest).map fun found => (value found : Int)

/-- What follows the digits before the point: a fraction, an exponent, both or nothing. -/
def tail? (negative : Bool) (whole : List Nat) : List Char → Option NumberLiteral
  | [] => some ⟨negative, whole, [], none⟩
  | '.' :: rest =>
    match digits rest with
    | ([], _) => none
    | (fraction, []) => some ⟨negative, whole, fraction, none⟩
    | (fraction, mark :: after) =>
      if mark = 'e' ∨ mark = 'E' then
        (exponent? after).map fun exponent => ⟨negative, whole, fraction, some exponent⟩
      else none
  | mark :: after =>
    if mark = 'e' ∨ mark = 'E' then
      (exponent? after).map fun exponent => ⟨negative, whole, [], some exponent⟩
    else none

def unsigned? (negative : Bool) (text : List Char) : Option NumberLiteral :=
  match digits text with
  | ([], _) => none
  | ([0], rest) => tail? negative [0] rest
  | (0 :: _, _) => none
  | (whole, rest) => tail? negative whole rest

def ofChars? : List Char → Option NumberLiteral
  | '-' :: rest => unsigned? true rest
  | text => unsigned? false text

def wordMax : Nat := UInt64.size - 1

/-- Gathers digits as long as the result fits into a word; the second component counts the digits
that were gathered. -/
def gather (total : Nat) : List Nat → Nat × Nat
  | [] => (total, 0)
  | digit :: rest =>
    let next := 10 * total + digit
    if next ≤ wordMax then
      let (result, count) := gather next rest
      (result, count + 1)
    else (total, 0)

/-- Rounds a number to 53 significant bits, a tie to the even neighbour. -/
def roundToDouble (number : Nat) : Nat :=
  let excess := number.log2 + 1 - 53
  let unit := 1 <<< excess
  let quotient := number / unit
  let remainder := number % unit
  let up := unit < 2 * remainder || (unit == 2 * remainder && quotient % 2 == 1)
  (if up then quotient + 1 else quotient) * unit

def doubleBound : Nat := (1 <<< 1024) - (1 <<< 970)

/-- Whether the number that a literal stands for is in the range of a double. -/
def fitsDouble (literal : NumberLiteral) : Bool :=
  let (upper, taken) := gather 0 literal.whole
  let (significand, places) := gather upper literal.fraction
  let power : Int := (literal.whole.length - taken : Nat) - places + literal.exponent.getD 0
  if significand = 0 ∨ power < 0 then true
  else if 308 < power then false
  else roundToDouble significand * roundToDouble (Nat.pow 10 power.toNat) < doubleBound

/-- The integer that a literal stands for, when it is written as one and fits into a word. -/
def integer? (literal : NumberLiteral) : Option Int :=
  match literal with
  | ⟨false, whole, [], none⟩ =>
    if value whole ≤ wordMax then some (value whole) else none
  | ⟨true, whole, [], none⟩ =>
    if 0 < value whole ∧ value whole ≤ UInt64.size / 2 then some (-(value whole)) else none
  | _ => none

/-- The value of a literal; `text` is how it is written. -/
def toJson (literal : NumberLiteral) (text : List Char) : Json :=
  match literal.integer? with
  | some value => .integer value
  | none => if literal.fitsDouble then .decimal (String.ofList text) else .unreadable

end NumberLiteral

end LayerGraph
