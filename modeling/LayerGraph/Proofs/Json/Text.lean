import LayerGraph.Json.Reader
import LayerGraph.Json.Writer
import Mathlib

/-!
# Reading back what is written

The text of a value is read in two stages, and so is the proof that the value comes back. A text spells
lexemes when it consists of them with any blanks in between (`Lexeme.Spells`); the automaton finds the
lexemes of every such text. Both ways to write a value spell the lexemes of the value (`Json.lexemes`),
and the machine puts these together again.

Not every value can be written. A number that is no integer of 64 bits may stand for the same value as
another one, and there are values that no text yields (`Json.writable`).
-/

namespace LayerGraph

open List Option NumberLiteral

variable {c : Char} {lexeme : Lexeme}

/-! ## Numbers -/

namespace NumberLiteral

theorem digits_of_isDigit {text : List Char} (all : ∀ c ∈ text, c.isDigit) :
    digits text = (text.map fun c => c.toNat - '0'.toNat, []) := by
  induction text with
  | nil => rfl
  | cons c rest ih =>
    obtain ⟨a, later⟩ := forall_mem_cons.mp all
    rw [digits, digit?, if_pos a, ih later, map_cons]

theorem value_map (text : List Char) :
    value (text.map fun c => c.toNat - '0'.toNat) = Nat.ofDigitChars 10 text 0 := by
  rw [value, foldl_map, Nat.ofDigitChars_eq_foldl]

/-- A positive number does not begin with a zero. -/
theorem exists_toDigits_eq_cons {num : Nat} (positive : 0 < num) :
    ∃ digit rest, 0 < digit ∧ digit < 10 ∧ Nat.toDigits 10 num = digit.digitChar :: rest := by
  induction num using Nat.strong_induction_on with
  | _ num ih =>
    rw [Nat.toDigits_eq_if (by decide)]
    split
    · next small => exact ⟨num, [], positive, small, rfl⟩
    · next large =>
      obtain ⟨digit, rest, nonzero, small, front⟩ := ih (num / 10) (by omega) (by omega)
      exact ⟨digit, rest ++ [(num % 10).digitChar], nonzero, small, by rw [front, cons_append]⟩

/-- The digits of a number are read as a literal of this value. -/
theorem unsigned?_toDigits (negative : Bool) (num : Nat) :
    ∃ whole, unsigned? negative (Nat.toDigits 10 num) = some ⟨negative, whole, [], none⟩ ∧
      value whole = num := by
  have digits := digits_of_isDigit fun c mem =>
    Nat.isDigit_of_mem_toDigits (b := 10) (n := num) (by decide) (by decide) mem
  refine ⟨_, ?_, (value_map _).trans Nat.ofDigitChars_ten_toDigits⟩
  rw [unsigned?, digits]
  rcases Nat.eq_zero_or_pos num with rfl | positive
  · rfl
  · obtain ⟨digit, rest, nonzero, small, eq⟩ := exists_toDigits_eq_cons positive
    have a : digit.digitChar.toNat - '0'.toNat = digit := Nat.toNat_digitChar_sub_48_of_lt_ten small
    obtain ⟨pre, rfl⟩ := Nat.exists_eq_succ_of_ne_zero (Nat.pos_iff_ne_zero.mp nonzero)
    rw [eq, map_cons, a]
    rfl

end NumberLiteral

namespace Json

/-- Whether an integer fits into 64 bits, signed or unsigned. -/
def fits (value : Int) : Bool := -(UInt64.size / 2 : Nat) ≤ value && value ≤ wordMax

end Json

namespace Lexeme

/-- A run that begins like a number is none of the three names. -/
theorem plain?_of_number {rest : List Char} (num : c = '-' ∨ c.isDigit) :
    plain? (c :: rest) = (ofChars? (c :: rest)).map fun literal =>
      plain (literal.toJson (c :: rest)) := by
  have unnamed : ∀ a later, a ≠ '-' → a.isDigit = false → c :: rest ≠ a :: later := by
    rintro a later notSign notDigit e
    cases (cons.inj e).1
    rcases num with isSign | isDigit
    · exact notSign isSign
    · rw [notDigit] at isDigit
      cases isDigit
  have notNull : c :: rest ≠ "null".toList := unnamed 'n' _ (by decide) (by decide)
  have notTrue : c :: rest ≠ "true".toList := unnamed 't' _ (by decide) (by decide)
  have notFalse : c :: rest ≠ "false".toList := unnamed 'f' _ (by decide) (by decide)
  rw [plain?, if_neg notNull, if_neg notTrue, if_neg notFalse]

theorem exists_isDigit_cons (num : Nat) :
    ∃ c rest, Nat.toDigits 10 num = c :: rest ∧ c.isDigit := by
  obtain ⟨c, rest, eq⟩ := exists_cons_of_ne_nil (Nat.toDigits_ne_nil (b := 10) (n := num))
  exact ⟨c, rest, eq, Nat.isDigit_of_mem_toDigits (b := 10) (n := num) (by decide) (by decide)
    (eq ▸ mem_cons_self)⟩

theorem toList_toString (value : Int) : (toString value).toList =
    if 0 ≤ value then Nat.toDigits 10 value.toNat else '-' :: Nat.toDigits 10 (-value).toNat := by
  rw [Int.toString_eq_repr, Int.repr_eq_if]
  split
  · rw [Nat.repr_eq_ofList_toDigits, String.toList_ofList]
  · rw [String.toList_append, Nat.repr_eq_ofList_toDigits, String.toList_ofList, String.toList_ofList]
    rfl

/-- **The text of an integer that fits is read as this integer.** -/
theorem plain?_toString {value : Int} (fits : Json.fits value) :
    plain? (toString value).toList = some (plain (.integer value)) := by
  rw [Json.fits, Bool.and_eq_true, decide_eq_true_iff, decide_eq_true_iff] at fits
  obtain ⟨lower, upper⟩ := fits
  rw [toList_toString]
  split
  · next sign =>
    obtain ⟨whole, read, e⟩ := unsigned?_toDigits false value.toNat
    obtain ⟨c, rest, eq, isDigit⟩ := exists_isDigit_cons value.toNat
    rw [eq] at read ⊢
    have unsigned : ofChars? (c :: rest) = unsigned? false (c :: rest) := by
      rw [ofChars?]
      intro later e
      cases e
      cases isDigit
    have integer : integer? ⟨false, whole, [], none⟩ = some value := by
      rw [integer?, e, if_pos (by omega), Int.toNat_of_nonneg sign]
    rw [plain?_of_number (.inr isDigit), unsigned, read, map_some, toJson, integer]
  · next sign =>
    obtain ⟨whole, read, e⟩ := unsigned?_toDigits true (-value).toNat
    have integer : integer? ⟨true, whole, [], none⟩ = some value := by
      rw [integer?, e, if_pos (by omega), Int.toNat_of_nonneg (by omega), Int.neg_neg]
    rw [plain?_of_number (.inl rfl), ofChars?, read, map_some,
      toJson, integer]

end Lexeme

/-! ## Quoted texts -/

namespace TextUnit

/-- A unit that stands for a character: the character itself, or an escaped control character. -/
def Means (unit : TextUnit) (c : Char) : Prop :=
  unit = char c ∨ unit = escaped c.toNat ∧ c.toNat < 0x20

/-- An escape that is no half of a surrogate pair stands for a character of its own. -/
theorem join?_escaped {bits : Nat} (small : bits < 0x20) (rest : List TextUnit) :
    join? (escaped bits :: rest) = (join? rest).map (Char.ofNat bits :: ·) := by
  have notHigh : isHigh bits = false := by
    rw [isHigh, Bool.and_eq_false_iff]
    exact .inl (decide_eq_false (by omega))
  have notLow : isLow bits = false := by
    rw [isLow, Bool.and_eq_false_iff]
    exact .inl (decide_eq_false (by omega))
  cases rest with
  | nil => simp [join?, notHigh, notLow]
  | cons unit rest =>
    cases unit with
    | char c => simp [join?, notHigh, notLow, Function.comp_def]
    | escaped next => simp [join?, notHigh, notLow]

theorem join?_of_means {units : List TextUnit} {content : List Char}
    (means : Forall₂ Means units content) : join? units = some content := by
  induction means with
  | nil => rfl
  | cons a later ih =>
    rcases a with rfl | ⟨rfl, small⟩
    · rw [join?, ih, map_some]
    · rw [join?_escaped small, ih, map_some, Char.ofNat_toNat]

end TextUnit

namespace Lexeme

theorem hexDigit?_hexDigit {digit : Nat} (small : digit < 16) :
    hexDigit? (Json.hexDigit digit) = some digit := by
  interval_cases digit <;> decide

/-- What stands for a character inside quotes adds one unit. -/
theorem scanFrom_quoteChar (c : Char) : ∃ unit, TextUnit.Means unit c ∧ ∀ hk units rest,
    scanFrom hk (.inQuotes units) (Json.quoteChar c ++ rest) =
      scanFrom hk (.inQuotes (unit :: units)) rest := by
  rw [Json.quoteChar]
  split_ifs with isQuote isBackslash short short short short short control
  · exact ⟨.char c, .inl rfl, fun hk units rest => by rw [isQuote]; rfl⟩
  · exact ⟨.char c, .inl rfl, fun hk units rest => by rw [isBackslash]; rfl⟩
  iterate 5 · exact ⟨.char c, .inl rfl, fun hk units rest => by rw [short]; rfl⟩
  · refine ⟨.escaped c.toNat, .inr ⟨rfl, control⟩, fun hk units rest => ?_⟩
    have high := hexDigit?_hexDigit (show c.toNat / 16 < 16 by omega)
    have low := hexDigit?_hexDigit (show c.toNat % 16 < 16 by omega)
    have zero : hexDigit? '0' = some 0 := rfl
    have bits : 16 * (c.toNat / 16) + c.toNat % 16 = c.toNat := Nat.div_add_mod _ 16
    simp [scanFrom, step, zero, high, low, bits]
  · refine ⟨.char c, .inl rfl, fun hk units rest => ?_⟩
    rw [singleton_append, scanFrom, step, if_neg isQuote, if_neg isBackslash, if_neg control]

/-- The automaton finds a quoted text. -/
theorem scanFrom_quoted (content front : List Char) (hk : List Lexeme) {units : List TextUnit}
    (means : Forall₂ TextUnit.Means units.reverse front) (rest : List Char) :
    scanFrom hk (.inQuotes units) (content.flatMap Json.quoteChar ++ '"' :: rest) =
      scanFrom (quoted (some (String.ofList (front ++ content))) :: hk) .between rest := by
  induction content generalizing units front with
  | nil =>
    have closes : ofUnits units = quoted (some (String.ofList front)) := by
      rw [ofUnits, TextUnit.join?_of_means means, map_some]
    rw [append_nil, ← closes]
    rfl
  | cons c content ih =>
    obtain ⟨unit, stands, scans⟩ := scanFrom_quoteChar c
    rw [flatMap_cons, append_assoc, scans, ih (front ++ [c])]
    · rw [append_assoc, singleton_append]
    · rw [reverse_cons]
      exact rel_append means (.cons stands .nil)

theorem scanFrom_quote (content : String) (hk : List Lexeme) (text : List Char) :
    scanFrom hk .between (Json.quote content ++ text) =
      scanFrom (quoted (some content) :: hk) .between text := by
  have opens : scanFrom hk .between (Json.quote content ++ text) =
      scanFrom hk (.inQuotes []) (content.toList.flatMap Json.quoteChar ++ '"' :: text) := by
    rw [Json.quote, append_assoc, singleton_append]
    rfl
  rw [opens, scanFrom_quoted content.toList [] hk .nil, nil_append, String.ofList_toList]

/-! ## Texts that spell lexemes -/

/-- A text that does not go on with a name or a number. -/
def Ends (text : List Char) : Prop := ∀ c ∈ text.head?, isPlain c = false

/-- A text that consists of lexemes, with blanks in between. A name or a number has to end where the text
does not go on with another one. -/
inductive Spells : List Lexeme → List Char → Prop
  | done : Spells [] []
  | blank {lexemes : List Lexeme} {text : List Char} {c : Char} (isBlank : isBlank c)
      (later : Spells lexemes text) : Spells lexemes (c :: text)
  | mark {lexemes : List Lexeme} {text : List Char} {c : Char} {lexeme : Lexeme}
      (marks : mark? c = some lexeme) (later : Spells lexemes text) :
      Spells (lexeme :: lexemes) (c :: text)
  | quoted {lexemes : List Lexeme} {text : List Char} (content : String)
      (later : Spells lexemes text) :
      Spells (.quoted (some content) :: lexemes) (Json.quote content ++ text)
  | plain {lexemes : List Lexeme} {text : List Char} {c : Char} {run : List Char} {lexeme : Lexeme}
      (all : ∀ other ∈ c :: run, isPlain other) (means : plain? (c :: run) = some lexeme)
      (ends : Ends text) (later : Spells lexemes text) :
      Spells (lexeme :: lexemes) (c :: run ++ text)

theorem isPlain_of_mark? (marks : mark? c = some lexeme) :
    isBlank c = false ∧ c ≠ '"' ∧ isPlain c = false := by
  rw [mark?] at marks
  split_ifs at marks with e e e e e e
  all_goals exact e ▸ by decide

theorem not_isBlank_of_isPlain (plain : isPlain c) : isBlank c = false ∧ c ≠ '"' := by
  constructor
  · by_contra blank
    rw [Bool.not_eq_false, isBlank] at blank
    simp only [Bool.or_eq_true, decide_eq_true_iff] at blank
    rcases blank with ((rfl | rfl) | rfl) | rfl
    all_goals exact absurd plain (by decide)
  · rintro rfl
    exact absurd plain (by decide)

/-- A run goes on as long as its characters do. -/
theorem scanFrom_run (hk : List Lexeme) {run : List Char} (all : ∀ c ∈ run, isPlain c)
    (reversed text : List Char) : scanFrom hk (.inPlain reversed) (run ++ text) =
      scanFrom hk (.inPlain (run.reverse ++ reversed)) text := by
  induction run generalizing reversed with
  | nil => rfl
  | cons c run ih =>
    obtain ⟨a, later⟩ := forall_mem_cons.mp all
    rw [cons_append, scanFrom, step, if_pos a]
    dsimp only
    rw [ih later, reverse_cons, append_assoc, singleton_append]

/-- A run that has come to its end is one lexeme. -/
theorem scanFrom_inPlain (hk : List Lexeme) {reversed text : List Char}
    (means : plain? reversed.reverse = some lexeme) (ends : Ends text) :
    scanFrom hk (.inPlain reversed) text = scanFrom (lexeme :: hk) .between text := by
  cases text with
  | nil => simp [scanFrom, means]
  | cons c text =>
    have o : isPlain c = false := ends c rfl
    simp [scanFrom, step, means, o]

/-- **The automaton finds the lexemes that a text spells.** -/
theorem scanFrom_of_spells {lexemes : List Lexeme} {text : List Char} (spells : Spells lexemes text)
    (hk : List Lexeme) : scanFrom hk .between text = some (hk.reverse ++ lexemes) := by
  induction spells generalizing hk with
  | done => rw [scanFrom, append_nil]
  | blank isBlank later ih =>
    rw [scanFrom, step, stepBetween, if_pos isBlank]
    exact ih hk
  | mark marks later ih =>
    obtain ⟨notBlank, notQuote, notPlain⟩ := isPlain_of_mark? marks
    simp only [scanFrom, step, stepBetween, notBlank, notQuote, notPlain, marks, map_some,
      Bool.false_eq_true, if_false]
    rw [ih, reverse_cons, append_assoc, singleton_append]
  | quoted content later ih =>
    rw [scanFrom_quote, ih, reverse_cons, append_assoc, singleton_append]
  | plain all means ends later ih =>
    obtain ⟨a, later⟩ := forall_mem_cons.mp all
    obtain ⟨notBlank, notQuote⟩ := not_isBlank_of_isPlain a
    simp only [cons_append, scanFrom, step, stepBetween, notBlank, notQuote, a,
      Bool.false_eq_true, if_false, if_true]
    rw [scanFrom_run hk later, scanFrom_inPlain hk (by simpa using means) ends, ih,
      reverse_cons, append_assoc, singleton_append]

end Lexeme

namespace Json

/-! ## The lexemes of a value -/

mutual

/-- The lexemes of a value. -/
def lexemes : Json → List Lexeme
  | array [] => [.openArray, .closeArray]
  | array (item :: rest) => .openArray :: (lexemes item ++ itemLexemes rest)
  | object [] => [.openObject, .closeObject]
  | object ((name, value) :: rest) =>
    .openObject :: .quoted (some name) :: .colon :: (lexemes value ++ memberLexemes rest)
  | text content => [.quoted (some content)]
  | scalar => [.plain scalar]

/-- The items after the first one, and the end of the array. -/
def itemLexemes : List Json → List Lexeme
  | [] => [.closeArray]
  | item :: rest => .comma :: (lexemes item ++ itemLexemes rest)

/-- The members after the first one, and the end of the object. -/
def memberLexemes : List (String × Json) → List Lexeme
  | [] => [.closeObject]
  | (name, value) :: rest =>
    .comma :: .quoted (some name) :: .colon :: (lexemes value ++ memberLexemes rest)

end

mutual

/-- Whether a value can be written so that it is read back, with containers nested at most `depth` deep.
-/
def writable (depth : Nat) : Json → Bool
  | integer value => fits value
  | decimal _ => false
  | unreadable => false
  | array items => 0 < depth && writableItems (depth - 1) items
  | object members => 0 < depth && writableMembers (depth - 1) members
  | _ => true

/-- Whether every item of an array can be written. -/
def writableItems (depth : Nat) : List Json → Bool
  | [] => true
  | item :: rest => writable depth item && writableItems depth rest

/-- Whether every member of an object can be written. -/
def writableMembers (depth : Nat) : List (String × Json) → Bool
  | [] => true
  | (_, value) :: rest => writable depth value && writableMembers depth rest

end

open Lexeme

theorem isPlain_of_mem_toString {value : Int} (mem : c ∈ (toString value).toList) : isPlain c := by
  have digits : ∀ num : Nat, c ∈ Nat.toDigits 10 num → isPlain c := by
    intro num mem
    have isDigit := Nat.isDigit_of_mem_toDigits (by decide) (by decide) mem
    rw [isPlain, Char.isAlphanum, isDigit]
    simp
  rw [toList_toString] at mem
  split at mem
  · exact digits _ mem
  · rcases mem_cons.mp mem with rfl | later
    · decide
    · exact digits _ later

/-- Characters that yield lexemes wherever they stand. -/
def Yields (lexemes : List Lexeme) (chars : List Char) : Prop :=
  ∀ more text, Ends text → Spells more text → Spells (lexemes ++ more) (chars ++ text)

namespace Yields

variable {lexemes later : List Lexeme} {chars rest : List Char}

theorem nil : Yields [] [] := fun _ _ _ spells => spells

theorem mark (marks : mark? c = some lexeme) (yields : Yields lexemes chars) :
    Yields (lexeme :: lexemes) (c :: chars) :=
  fun more text ends spells => .mark marks (yields more text ends spells)

theorem quoted (content : String) (yields : Yields lexemes chars) :
    Yields (.quoted (some content) :: lexemes) (quote content ++ chars) := by
  intro more text ends spells
  rw [append_assoc]
  exact .quoted content (yields more text ends spells)

theorem blanks {gap : List Char} (all : gap.all isBlank) (yields : Yields lexemes chars) :
    Yields lexemes (gap ++ chars) := by
  intro more text ends spells
  induction gap with
  | nil => exact yields more text ends spells
  | cons c gap ih =>
    obtain ⟨a, others⟩ := Bool.and_eq_true_iff.mp all
    exact .blank a (ih others)

theorem append (a : Yields lexemes chars) (b : Yields later rest)
    (begins : ∃ c tail, rest = c :: tail ∧ isPlain c = false) :
    Yields (lexemes ++ later) (chars ++ rest) := by
  intro more text ends spells
  obtain ⟨c, tail, e, notPlain⟩ := begins
  rw [append_assoc, append_assoc]
  refine a _ _ ?_ (b more text ends spells)
  rw [e]
  rintro o ⟨⟩
  exact notPlain

end Yields

theorem all_isBlank_newLine (level : Nat) : (newLine level).all isBlank := by
  rw [newLine, all_cons, all_replicate]
  split <;> rfl

theorem moreItems_begins (items : List Json) (level : Nat) :
    (∃ c tail, moreItems items = c :: tail ∧ isPlain c = false) ∧
      ∃ c tail, prettyItems level items = c :: tail ∧ isPlain c = false := by
  cases items with
  | nil => exact ⟨⟨_, _, rfl, by decide⟩, _, _, rfl, by decide⟩
  | cons item rest => exact ⟨⟨_, _, rfl, by decide⟩, _, _, rfl, by decide⟩

theorem moreMembers_begins (members : List (String × Json)) (level : Nat) :
    (∃ c tail, moreMembers members = c :: tail ∧ isPlain c = false) ∧
      ∃ c tail, prettyMembers level members = c :: tail ∧ isPlain c = false := by
  cases members with
  | nil => exact ⟨⟨_, _, rfl, by decide⟩, _, _, rfl, by decide⟩
  | cons mem rest => exact ⟨⟨_, _, rfl, by decide⟩, _, _, rfl, by decide⟩

/-- A name or a number, as it is written. -/
theorem yields_scalar (scalar : Json) (all : (scalarChars scalar).all isPlain) (means : plain?
    (scalarChars scalar) = some (.plain scalar)) : Yields [.plain scalar] (scalarChars scalar) := by
  intro more text ends spells
  cases chars : scalarChars scalar with
  | nil =>
    rw [chars] at means
    cases means
  | cons c run => exact .plain (List.all_eq_true.mp (chars ▸ all)) (chars ▸ means) ends spells

/-- Both ways to write a value yield its lexemes. -/
def Written (json : Json) : Prop :=
  Yields json.lexemes json.chars ∧ ∀ level, Yields json.lexemes (json.prettyChars level)

/-- Both ways to write the items after the first one yield their lexemes. -/
def WrittenItems (items : List Json) : Prop :=
  Yields (itemLexemes items) (moreItems items) ∧
    ∀ level, Yields (itemLexemes items) (prettyItems level items)

/-- Both ways to write the members after the first one yield their lexemes. -/
def WrittenMembers (members : List (String × Json)) : Prop :=
  Yields (memberLexemes members) (moreMembers members) ∧
    ∀ level, Yields (memberLexemes members) (prettyMembers level members)

/-- An item behind a bracket or a comma, and the items that follow it. -/
theorem Written.item {item : Json} {rest : List Json} (a : Written item)
    (others : WrittenItems rest) (marks : mark? c = some lexeme) :
    Yields (lexeme :: (item.lexemes ++ itemLexemes rest)) (c :: (item.chars ++ moreItems rest)) ∧
      ∀ level, Yields (lexeme :: (item.lexemes ++ itemLexemes rest))
        (c :: (newLine (level + 1) ++ item.prettyChars (level + 1) ++ prettyItems level rest)) := by
  refine ⟨.mark marks (a.1.append others.1 (moreItems_begins rest 0).1), fun level => .mark marks ?_⟩
  rw [append_assoc]
  exact .blanks (all_isBlank_newLine _) ((a.2 _).append (others.2 level) (moreItems_begins rest level).2)

/-- A member behind a brace or a comma, and the members that follow it. -/
theorem Written.member {value : Json} {rest : List (String × Json)} (name : String)
    (a : Written value) (others : WrittenMembers rest) (marks : mark? c = some lexeme) :
    Yields (lexeme :: .quoted (some name) :: .colon :: (value.lexemes ++ memberLexemes rest))
        (c :: (quote name ++ ':' :: (value.chars ++ moreMembers rest))) ∧
      ∀ level, Yields (lexeme :: .quoted (some name) :: .colon :: (value.lexemes ++ memberLexemes rest))
        (c :: (newLine (level + 1) ++ quote name ++ [':', ' '] ++ value.prettyChars (level + 1) ++
          prettyMembers level rest)) := by
  constructor
  · exact .mark marks (.quoted name (.mark rfl (a.1.append others.1 (moreMembers_begins rest 0).1)))
  · intro level
    have valued := (a.2 (level + 1)).append (others.2 level) (moreMembers_begins rest level).2
    have gap : Yields (value.lexemes ++ memberLexemes rest)
        ([' '] ++ (value.prettyChars (level + 1) ++ prettyMembers level rest)) := .blanks rfl valued
    have named := Yields.mark (c := ':') rfl gap |>.quoted name
    simp only [append_assoc, cons_append, nil_append] at named ⊢
    exact .mark marks (.blanks (all_isBlank_newLine _) named)

mutual

/-- **A value that can be written is written as its lexemes**, whichever way it is written. -/
theorem written : ∀ (json : Json) (depth : Nat), json.writable depth → Written json
  | null, _, _ =>
    have yields := yields_scalar null rfl (if_pos rfl)
    ⟨yields, fun _ => yields⟩
  | bool true, _, _ =>
    have yields := yields_scalar (bool true) rfl ((if_neg (by decide)).trans (if_pos rfl))
    ⟨yields, fun _ => yields⟩
  | bool false, _, _ =>
    have yields := yields_scalar (bool false) rfl
      ((if_neg (by decide)).trans ((if_neg (by decide)).trans (if_pos rfl)))
    ⟨yields, fun _ => yields⟩
  | integer value, _, h =>
    have yields := yields_scalar (integer value)
      (List.all_eq_true.mpr fun _ => isPlain_of_mem_toString) (plain?_toString h)
    ⟨yields, fun _ => yields⟩
  | text content, _, _ => by
    have yields := Yields.nil.quoted content
    rw [append_nil] at yields
    exact ⟨yields, fun _ => yields⟩
  | decimal _, _, h => Bool.noConfusion h
  | unreadable, _, h => Bool.noConfusion h
  | array [], _, _ => ⟨.mark rfl (.mark rfl .nil), fun _ => .mark rfl (.mark rfl .nil)⟩
  | array (item :: rest), depth, h => by
    obtain ⟨a, others⟩ := Bool.and_eq_true_iff.mp (Bool.and_eq_true_iff.mp h).2
    exact (written item _ a).item (writtenItems rest _ others) rfl
  | object [], _, _ => ⟨.mark rfl (.mark rfl .nil), fun _ => .mark rfl (.mark rfl .nil)⟩
  | object ((name, value) :: rest), depth, h => by
    obtain ⟨a, others⟩ := Bool.and_eq_true_iff.mp (Bool.and_eq_true_iff.mp h).2
    exact (written value _ a).member name (writtenMembers rest _ others) rfl

theorem writtenItems : ∀ (items : List Json) (depth : Nat), writableItems depth items →
    WrittenItems items
  | [], _, _ => ⟨.mark rfl .nil, fun level => .blanks (all_isBlank_newLine level) (.mark rfl .nil)⟩
  | item :: rest, depth, h => by
    obtain ⟨a, others⟩ := Bool.and_eq_true_iff.mp h
    exact (written item _ a).item (writtenItems rest _ others) rfl

theorem writtenMembers : ∀ (members : List (String × Json)) (depth : Nat),
    writableMembers depth members → WrittenMembers members
  | [], _, _ => ⟨.mark rfl .nil, fun level => .blanks (all_isBlank_newLine level) (.mark rfl .nil)⟩
  | (name, value) :: rest, depth, h => by
    obtain ⟨a, others⟩ := Bool.and_eq_true_iff.mp h
    exact (written value _ a).member name (writtenMembers rest _ others) rfl

end

/-! ## Lexemes put together again -/

theorem named?_map_some (members : List (String × Json)) :
    named? (members.map fun mem => (some mem.1, mem.2)) = some members := by
  induction members with
  | nil => rfl
  | cons mem rest ih => rw [map_cons, named?, ih, map_some]

theorem ofMembers_map_some (members : List (String × Json)) :
    ofMembers (members.map fun mem => (some mem.1, mem.2)).reverse = object members := by
  rw [ofMembers, reverse_reverse, named?_map_some]

mutual

/-- The machine puts the lexemes of a value together, inside whatever containers it is. -/
theorem foldlM_lexemes : ∀ (json : Json) (stack : List Frame) (mayClose : Bool),
    json.lexemes.foldlM advance (stack, .value mayClose) = some (stack, .sequel json)
  | null, _, _ => rfl
  | bool _, _, _ => rfl
  | integer _, _, _ => rfl
  | decimal _, _, _ => rfl
  | text _, _, _ => rfl
  | unreadable, _, _ => rfl
  | array [], _, _ => rfl
  | array (item :: rest), stack, mayClose => by
    simp only [lexemes, foldlM_cons, advance, bind_eq_bind, bind_some, foldlM_append,
      foldlM_lexemes item, foldlM_itemLexemes rest]
    rfl
  | object [], _, _ => rfl
  | object ((name, value) :: rest), stack, mayClose => by
    simp only [lexemes, foldlM_cons, advance, bind_eq_bind, bind_some, foldlM_append,
      foldlM_lexemes value]
    exact foldlM_memberLexemes rest [] name value stack

theorem foldlM_itemLexemes : ∀ (items done : List Json) (value : Json) (stack : List Frame),
    (itemLexemes items).foldlM advance (.items done :: stack, .sequel value) =
      some (stack, .sequel (array ((value :: done).reverse ++ items)))
  | [], done, value, stack => by
    rw [append_nil]
    rfl
  | item :: rest, done, value, stack => by
    simp only [itemLexemes, foldlM_cons, advance, bind_eq_bind, bind_some, foldlM_append,
      foldlM_lexemes item]
    rw [foldlM_itemLexemes rest, reverse_cons, append_assoc, singleton_append]

theorem foldlM_memberLexemes : ∀ (members front : List (String × Json)) (name : String) (value : Json)
    (stack : List Frame),
    (memberLexemes members).foldlM advance
        (.member (front.map fun mem => (some mem.1, mem.2)).reverse (some name) :: stack,
          .sequel value) =
      some (stack, .sequel (object (front ++ (name, value) :: members)))
  | [], front, name, value, stack => by
    rw [← ofMembers_map_some, map_append, reverse_append]
    rfl
  | (next, item) :: rest, front, name, value, stack => by
    have done := foldlM_memberLexemes rest (front ++ [(name, value)]) next item stack
    rw [map_append, reverse_append, append_assoc] at done
    simp only [memberLexemes, foldlM_cons, advance, bind_eq_bind, bind_some, foldlM_append,
      foldlM_lexemes item]
    exact done

end

theorem parse_of_yields {json : Json} {chars : List Char} (yields : Yields json.lexemes chars) :
    parse (String.ofList chars) = some json := by
  have spells := yields [] [] (by simp [Ends]) .done
  rw [append_nil, append_nil] at spells
  have scanned : Lexeme.scan chars = some json.lexemes := scanFrom_of_spells spells []
  rw [parse, String.toList_ofList, scanned, bind_some, assemble, foldlM_lexemes]

/-- **Reading what is written gives the value back**, on one line and over several. -/
theorem parse_written {json : Json} {depth : Nat} (h : json.writable depth) :
    parse json.render = some json ∧ parse json.pretty = some json :=
  ⟨parse_of_yields (written json depth h).1, parse_of_yields ((written json depth h).2 0)⟩

end Json

end LayerGraph
