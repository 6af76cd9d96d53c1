import LayerGraph.Json.Record
import LayerGraph.Proofs.Json.Text

/-!
# Ways to write the values of a type

A value may be written in more than one way, since a field that holds its default may be left out. A
`Codec` says which JSON values stand for a value and how they are read, and carries the proof that each
of them is read as the value it stands for. Codecs of records are put together from the codecs of their
fields (`Codec.record`).
-/

namespace LayerGraph.Json

open List Option

theorem and_of_and {a b c d e f : Bool} (h : a && b) (first : a → c ∧ e) (second : b → d ∧ f) :
    (c && d) ∧ (e && f) := by
  obtain ⟨one, two⟩ := Bool.and_eq_true_iff.mp h
  simp [first one, second two]

theorem positive_mono {depth limit : Nat} (le : depth ≤ limit) (positive : decide (0 < depth)) :
    decide (0 < limit) ∧ decide (0 < limit) :=
  and_self_iff.mpr (decide_eq_true (lt_of_lt_of_le (of_decide_eq_true positive) le))

mutual

/-- What can be written within some depth can be written and read within any greater one. -/
theorem writable_mono : ∀ (json : Json) {depth limit : Nat}, depth ≤ limit → json.writable depth →
    json.writable limit ∧ json.readable limit
  | null, _, _, _, _ => ⟨rfl, rfl⟩
  | bool _, _, _, _, _ => ⟨rfl, rfl⟩
  | integer _, _, _, _, h => ⟨h, rfl⟩
  | decimal _, _, _, _, h => Bool.noConfusion h
  | text _, _, _, _, _ => ⟨rfl, rfl⟩
  | unreadable, _, _, _, h => Bool.noConfusion h
  | array items, _, _, le, h =>
    and_of_and h (positive_mono le) (writableItems_mono items (Nat.sub_le_sub_right le 1))
  | object members, _, _, le, h =>
    and_of_and h (positive_mono le) (writableMembers_mono members (Nat.sub_le_sub_right le 1))

theorem writableItems_mono : ∀ (items : List Json) {depth limit : Nat}, depth ≤ limit →
    writableItems depth items → writableItems limit items ∧ readableItems limit items
  | [], _, _, _, _ => ⟨rfl, rfl⟩
  | item :: rest, _, _, le, h => and_of_and h (writable_mono item le) (writableItems_mono rest le)

theorem writableMembers_mono : ∀ (members : List (String × Json)) {depth limit : Nat}, depth ≤ limit →
    writableMembers depth members → writableMembers limit members ∧ readableMembers limit members
  | [], _, _, _, _ => ⟨rfl, rfl⟩
  | (_, v) :: rest, _, _, le, h => and_of_and h (writable_mono v le) (writableMembers_mono rest le)

end

/-- The ways to write the values of a type, together with the function that reads them. -/
structure Codec (α : Type) where
  /-- The JSON values that stand for a value. -/
  Writes : α → Json → Prop
  read : Json → Option α
  /-- How deeply containers are nested in what is written. -/
  depth : Nat
  reads : ∀ {value json}, Writes value json → read json = some value
  writable : ∀ {value json}, Writes value json → json.writable depth

namespace Codec

variable {α : Type}

/-- Values that are written in one way only. -/
def single (write : α → Json) (read : Json → Option α) (depth : Nat)
    (reads : ∀ value, read (write value) = some value)
    (writable : ∀ value, (write value).writable depth) : Codec α where
  Writes value json := json = write value
  read := read
  depth := depth
  reads := by
    rintro value json rfl
    exact reads value
  writable := by
    rintro value json rfl
    exact writable value

def text : Codec String := single .text text? 0 (fun _ => rfl) fun _ => rfl

def bool : Codec Bool := single .bool bool? 0 (fun _ => rfl) fun _ => rfl

/-- Unsigned numbers of 32 bits. -/
def uint32 : Codec UInt32 :=
  single (fun value => nat value.toNat) uint32? 0 (fun value => by
      have bound : value.toNat < UInt32.size := value.toNat_lt
      have range : 0 ≤ (value.toNat : Int) ∧ (value.toNat : Int) < UInt32.size := by omega
      rw [nat, uint32?, if_pos range, Int.toNat_natCast, UInt32.ofNat_toNat])
    (fun value => by
      have bound : value.toNat < 2 ^ 32 := value.toNat_lt
      rw [nat, Json.writable, fits, Bool.and_eq_true, decide_eq_true_iff, decide_eq_true_iff,
        NumberLiteral.wordMax]
      simp only [UInt64.size]
      omega)

/-- Signed numbers of 32 bits. -/
def int32 : Codec Int32 :=
  single (fun value => integer value.toInt) int32? 0 (fun value => by
      have range := And.intro value.minValue_le_toInt value.toInt_le
      rw [int32?, if_pos ⟨range.1, by simpa using range.2⟩, Int32.ofInt_toInt])
    (fun value => by
      have lower : -2 ^ 31 ≤ value.toInt := value.le_toInt
      have upper : value.toInt < 2 ^ 31 := value.toInt_lt
      rw [Json.writable, fits, Bool.and_eq_true, decide_eq_true_iff, decide_eq_true_iff,
        NumberLiteral.wordMax]
      simp only [UInt64.size]
      omega)

/-- One of a few names. -/
def name (form : NameForm) (name : α → String) (ofName? : String → Option α)
    (known : ∀ value, ofName? (name value) = some value) : Codec α :=
  single (fun value => .text (name value)) (name? form ofName?) 0 known fun _ => rfl

/-- A value or null. -/
def option (codec : Codec α) (notNull : ∀ value, ¬codec.Writes value null) : Codec (Option α) where
  Writes
    | some value, json => codec.Writes value json
    | none, json => json = null
  read := option? codec.read
  depth := codec.depth
  reads := by
    rintro (_ | value) json writes
    · cases writes
      rfl
    · have read : option? codec.read json = (codec.read json).map some := by
        rw [option?]
        rintro rfl
        exact notNull value writes
      rw [read, codec.reads writes, map_some]
  writable := by
    rintro (_ | value) json writes
    · cases writes
      rfl
    · exact codec.writable writes

variable {items : List Json}

theorem mapM_read (codec : Codec α) {values : List α} (writes : Forall₂ codec.Writes values items) :
    items.mapM codec.read = some values := by
  induction writes with
  | nil => rfl
  | cons a _ ih => simp [codec.reads a, ih]

theorem writableItems (codec : Codec α) {values : List α} (writes : Forall₂ codec.Writes values items) :
    Json.writableItems codec.depth items := by
  induction writes with
  | nil => rfl
  | cons a _ ih => exact Bool.and_eq_true_iff.mpr ⟨codec.writable a, ih⟩

def list (codec : Codec α) : Codec (List α) where
  Writes values json := ∃ items, json = array items ∧ Forall₂ codec.Writes values items
  read := list? codec.read
  depth := codec.depth + 1
  reads := by
    rintro values json ⟨items, rfl, writes⟩
    exact codec.mapM_read writes
  writable := by
    rintro values json ⟨items, rfl, writes⟩
    exact codec.writableItems writes

theorem list_map (codec : Codec α) {write : α → Json} (writes : ∀ v, codec.Writes v (write v)) (values :
    List α) : codec.list.Writes values (.array (values.map write)) :=
  ⟨_, rfl, List.forall₂_map_right_iff.mpr (List.forall₂_same.mpr fun v _ => writes v)⟩

theorem option_nullable (codec : Codec α) (notNull : ∀ v, ¬codec.Writes v null)
    {write : α → Json} (writes : ∀ v, codec.Writes v (write v)) (v : Option α) :
    (codec.option notNull).Writes v (nullable write v) := by
  cases v with
  | none => rfl
  | some v => exact writes v

end Codec

/-! ## Records -/

/-- A step of a reader that gives a value. -/
theorem bind_eq {α β : Type} {step : Option α} {v : α} {next : α → Option β}
    {res : Option β} (h : step = some v) (after : next v = res) : step >>= next = res := by
  rw [h]
  exact after

/-- A field of a record that holds a value. -/
structure Field where
  name : String
  /-- What may stand in the field. -/
  Holds : Json → Prop
  /-- Whether the field may be left out. -/
  Spare : Prop
  depth : Nat
  writable : ∀ {json}, Holds json → json.writable depth

namespace Field

variable {α : Type}

/-- A field that must be given. -/
def required (name : String) (codec : Codec α) (value : α) : Field :=
  ⟨name, codec.Writes value, False, codec.depth, codec.writable⟩

/-- A field that may be left out when it holds its default. -/
def optional (name : String) (codec : Codec α) (value default : α) : Field :=
  ⟨name, codec.Writes value, value = default, codec.depth, codec.writable⟩

end Field

/-- The members of an object that holds the given fields, where some that may be left out are left out. -/
inductive Abridged : List Field → List (String × Json) → Prop
  | nil : Abridged [] []
  | keep {field : Field} {fields : List Field} {value : Json} {members : List (String × Json)}
      (holds : field.Holds value) (later : Abridged fields members) :
      Abridged (field :: fields) ((field.name, value) :: members)
  | drop {field : Field} {fields : List Field} {members : List (String × Json)}
      (spare : field.Spare) (later : Abridged fields members) : Abridged (field :: fields) members

namespace Abridged

variable {α : Type} {fields : List Field} {members : List (String × Json)}
  (abridged : Abridged fields members)

include abridged

theorem names_sublist : (members.map Prod.fst).Sublist (fields.map Field.name) := by
  induction abridged with
  | nil => exact .slnil
  | keep _ _ ih => exact .cons_cons _ ih
  | drop _ _ ih => exact .cons _ ih

theorem append {others : List Field} {rest : List (String × Json)} (later : Abridged others rest) :
    Abridged (fields ++ others) (members ++ rest) := by
  induction abridged with
  | nil => exact later
  | keep holds _ ih => exact .keep holds ih
  | drop spare _ ih => exact .drop spare ih

theorem filter (select : String → Bool) : Abridged (fields.filter fun field => select field.name)
      (members.filter fun mem => select mem.1) := by
  induction abridged with
  | nil => exact .nil
  | @keep field _ _ _ holds _ ih =>
    rw [filter_cons, filter_cons]
    split
    · exact .keep holds ih
    · exact ih
  | @drop field _ _ spare _ ih =>
    rw [filter_cons]
    split
    · exact .drop spare ih
    · exact ih

theorem writableMembers {depth : Nat}
    (bounded : fields.all fun field => field.depth ≤ depth) : Json.writableMembers depth members := by
  induction abridged with
  | nil => rfl
  | @keep field _ v _ holds _ ih =>
    obtain ⟨a, others⟩ := Bool.and_eq_true_iff.mp bounded
    have a := writable_mono v (of_decide_eq_true a) (field.writable holds)
    exact Bool.and_eq_true_iff.mpr ⟨a.1, ih others⟩
  | drop _ _ ih => exact ih (Bool.and_eq_true_iff.mp bounded).2

/-- A field is found under its name, unless it was left out. -/
theorem lookup (nd : (fields.map Field.name).Nodup) {field : Field} (mem : field ∈ fields) :
    (∃ v, List.lookup field.name members = some v ∧ field.Holds v) ∨
      List.lookup field.name members = none ∧ field.Spare := by
  induction abridged with
  | nil => cases mem
  | @keep o _ v _ holds _ ih =>
    rw [map_cons, nodup_cons] at nd
    rcases mem_cons.mp mem with rfl | later
    · exact .inl ⟨v, lookup_cons_self, holds⟩
    · have apart : field.name ≠ o.name := by
        intro e
        exact nd.1 (e ▸ List.mem_map_of_mem later)
      rw [lookup_cons, beq_false_of_ne apart]
      exact ih nd.2 later
  | @drop o _ _ spare rest ih =>
    rw [map_cons, nodup_cons] at nd
    rcases mem_cons.mp mem with rfl | later
    · refine .inr ⟨lookup_eq_none_iff.mpr fun mem present => ?_, spare⟩
      rw [bne_iff_ne]
      intro e
      exact nd.1 (rest.names_sublist.subset (e ▸ List.mem_map_of_mem present))
    · exact ih nd.2 later

end Abridged

/-- The members that a record with the given names asks for. -/
def known (names : List String) (members : List (String × Json)) : Fields :=
  members.filter fun mem => names.contains mem.1

theorem lookup_known {names : List String} {name : String} (asked : names.contains name)
    (members : List (String × Json)) :
    List.lookup name (known names members) = List.lookup name members := by
  induction members with
  | nil => rfl
  | cons mem members ih =>
    obtain ⟨o, v⟩ := mem
    by_cases e : name = o
    · subst e
      rw [known, filter_cons, if_pos asked, lookup_cons_self, lookup_cons_self]
    · rw [lookup_cons, beq_false_of_ne e, ← ih, known, filter_cons]
      split
      · rw [lookup_cons, beq_false_of_ne e]
        rfl
      · rfl

namespace Abridged

variable {α : Type} {fields : List Field} {members : List (String × Json)}
  (abridged : Abridged fields members)

include abridged

theorem fields? (nd : (fields.map Field.name).Nodup)
    (names : List String) : (object members).fields? names = some (known names members) := by
  have sublist : ((known names members).map Prod.fst).Sublist (fields.map Field.name) :=
    (filter_sublist.map _).trans abridged.names_sublist
  exact if_pos (nd.sublist sublist)

variable {names : List String} {name : String}

theorem required (nd : (fields.map Field.name).Nodup) (codec : Codec α) {v : α} (pos : Nat)
    (there : fields[pos]? = some (.required name codec v) := by rfl)
    (asked : names.contains name := by rfl) : (known names members).required name codec.read = some v := by
  rw [Fields.required, lookup_known asked]
  obtain ⟨json, hk, holds⟩ | ⟨_, spare⟩ := abridged.lookup nd (mem_of_getElem? there)
  · rw [show List.lookup name members = some json from hk, bind_some]
    exact codec.reads holds
  · exact spare.elim

theorem optional (nd : (fields.map Field.name).Nodup) (codec : Codec α) {v default : α} (pos : Nat)
    (there : fields[pos]? = some (.optional name codec v default) := by rfl)
    (asked : names.contains name := by rfl) :
    (known names members).optional name codec.read default = some v := by
  rw [Fields.optional, lookup_known asked]
  obtain ⟨json, hk, holds⟩ | ⟨missing, spare⟩ := abridged.lookup nd (mem_of_getElem? there)
  · rw [show List.lookup name members = some json from hk]
    exact codec.reads holds
  · rw [show List.lookup name members = none from missing]
    exact congrArg some spare.symm

end Abridged

/-- Records with the given fields. -/
def Codec.record {α : Type} (fields : α → List Field) (read : Json → Option α) (depth : Nat)
    (bounded : ∀ value, (fields value).all fun field => field.depth ≤ depth)
    (reads : ∀ {value members}, Abridged (fields value) members →
      read (object members) = some value) : Codec α where
  Writes value json := ∃ members, json = object members ∧ Abridged (fields value) members
  read := read
  depth := depth + 1
  reads := by
    rintro value json ⟨members, rfl, abridged⟩
    exact reads abridged
  writable := by
    rintro value json ⟨members, rfl, abridged⟩
    exact abridged.writableMembers (bounded value)

/-- **What a codec writes is read back from its text**, on one line and over several. -/
theorem Codec.read_written {α : Type} (codec : Codec α) {v : α} {json : Json}
    (writes : codec.Writes v json) : (parse json.render).bind codec.read = some v ∧
      (parse json.pretty).bind codec.read = some v := by
  obtain ⟨line, lines⟩ := parse_written (codec.writable writes)
  rw [line, lines, bind_some]
  exact ⟨codec.reads writes, codec.reads writes⟩

end LayerGraph.Json
