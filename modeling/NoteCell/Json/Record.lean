import NoteCell.Json.Reader

/-!
Decoding data. A record names its variant in a tag, which is looked at while the record is read; its
fields are decoded when all of it has been read, so their faults have no place.
-/
namespace NoteCell

-- What the value of a field stands for, or what is wrong with it.
abbrev Decoder (α : Type) := JsonValue → Except String α

namespace JsonValue

-- What a value is called in a fault.
def kind : JsonValue → String
  | null => "null"
  | bool b => s!"boolean `{b}`"
  | number (.whole n) => s!"integer `{n}`"
  | number (.double x) => "floating point `" ++ Decimal.valueText x ++ "`"
  | string s => "string " ++ Escaped.text s
  | array _ => "sequence"
  | object _ => "map"

def invalidType (v : JsonValue) (expected : String) : String :=
  "invalid type: " ++ v.kind ++ ", expected " ++ expected

end JsonValue

namespace Decoder

def string : Decoder String
  | .string s => .ok s
  | v => .error (v.invalidType "a string")

-- A whole number of 64 bits without a sign.
def word : Decoder Nat
  | .number (.whole n) =>
    if 0 ≤ n then .ok n.toNat
    else .error s!"invalid value: integer `{n}`, expected u64"
  | v => .error (v.invalidType "u64")

def bundle : Decoder Bundle
  | .object fields => .ok (.ofFields fields)
  | v => .error (v.invalidType "a map")

def orNull {α : Type} (d : Decoder α) : Decoder (Option α)
  | .null => .ok none
  | v => some <$> d v

def fault? {α : Type} (d : Decoder α) (v : JsonValue) : Option String :=
  match d v with
  | .ok _ => none
  | .error message => some message

end Decoder

-- What a record holds besides its tag.
inductive RecordBody where
  | items (vs : List JsonValue)
  | fields (fs : List (String × JsonValue))

-- The decoded part of a record: values by the names of their slots.
abbrev FieldValues := List (String × JsonValue)

namespace FieldValues

variable {α : Type}

def missing (name : String) : String := s!"missing field `{name}`"

def get (entries : FieldValues) (name : String) (d : Decoder α) : Except String α :=
  match entries.lookup name with
  | some v => d v
  | none => .error (missing name)

def get? (entries : FieldValues) (name : String) (d : Decoder α) : Except String (Option α) :=
  match entries.lookup name with
  | some v => d.orNull v
  | none => .ok none

end FieldValues

-- A place for a value in a variant of a record.
structure Slot where
  name : String
  fault? : JsonValue → Option String
  -- Whether a row of items may end before it.
  mayEnd : Bool

def Slot.of {α : Type} (name : String) (d : Decoder α) (mayEnd : Bool := false) : Slot :=
  ⟨name, d.fault?, mayEnd⟩

structure Variant (α : Type) where
  name : String
  -- What a fault calls it.
  title : String
  slots : List Slot
  build : FieldValues → Except String α

namespace Variant

variable {α : Type}

def counted (n : Nat) (what : String) : String :=
  s!"{n} " ++ what ++ (if n = 1 then "" else "s")

def invalidLength (n : Nat) (expected : String) : String :=
  s!"invalid length {n}, expected " ++ expected

-- Checks fields in the order in which they were read. Those without a slot are passed over.
def checkFields (slots : List Slot) :
    FieldValues → List (String × JsonValue) → Except String FieldValues
  | done, [] => .ok done
  | done, (key, v) :: rest =>
    match slots.find? (·.name = key) with
    | none => checkFields slots done rest
    | some slot =>
      if (done.lookup key).isSome then .error s!"duplicate field `{key}`"
      else
        match slot.fault? v with
        | some message => .error message
        | none => checkFields slots ((key, v) :: done) rest

-- Puts a row of items into slots. `index` slots came before.
def fillSlots (expected : String) (index : Nat) :
    List Slot → List JsonValue → Except String FieldValues
  | [], [] => .ok []
  | [], extra =>
    .error (invalidLength (index + extra.length) (counted index "element" ++ " in sequence"))
  | slot :: slots, [] =>
    if slot.mayEnd then fillSlots expected (index + 1) slots []
    else .error (invalidLength index expected)
  | slot :: slots, v :: rest =>
    match slot.fault? v with
    | some message => .error message
    | none => do return (slot.name, v) :: (← fillSlots expected (index + 1) slots rest)

def entries (c : Variant α) : RecordBody → Except String FieldValues
  | .fields fs => checkFields c.slots [] fs
  | .items vs =>
    fillSlots ("struct variant " ++ c.title ++ " with " ++ counted c.slots.length "element") 0
      c.slots vs

def decode (c : Variant α) (body : RecordBody) : Except String α := c.entries body >>= c.build

end Variant

structure RecordType (α : Type) where
  title : String
  tag : String
  variants : List (Variant α)

namespace JsonReader

variable {α : Type}

-- A value that holds no others. Nothing is read of a container that stands in its place.
def leaf (expected : String) : JsonReader JsonValue := do
  match ← peekToken? with
  | none => refuseHere .eofValue
  | some '[' => mismatchHere ((JsonValue.array []).invalidType expected)
  | some '\x7b' => mismatchHere ((JsonValue.object []).invalidType expected)
  | some c =>
    match ← scalar? c with
    | none => refuseNext .expectedValue
    | some v => return v

-- What `d` makes of a value. Its fault is placed right after the value.
def decodeHere (d : Decoder α) (v : JsonValue) : JsonReader α := do
  match d v with
  | .ok a => return a
  | .error message => mismatchHere message

-- A name out of `names`.
def oneOf (names : List String) : JsonReader String := do
  match ← leaf expected with
  | .string name =>
    if name ∈ names then return name
    else mismatchHere (s!"unknown variant `{name}`, expected " ++ alternatives names)
  | v => mismatchHere (v.invalidType expected)
where
  expected : String := "variant identifier"
  alternatives : List String → String
    | [a, b] => s!"`{a}` or `{b}`"
    | names => "one of " ++ ", ".intercalate (names.map fun name => s!"`{name}`")

end JsonReader

namespace RecordType

open JsonReader

variable {α : Type} (t : RecordType α)

def expected : String := "internally tagged enum " ++ t.title

def readTag : JsonReader String := oneOf (t.variants.map (·.name))

-- What has been read of a record.
structure Partial where
  name : Option String
  items : List JsonValue
  fields : List (String × JsonValue)

def readItem (fuel : Nat) (p : Partial) : JsonReader Partial := do
  if p.name.isNone then return { p with name := some (← t.readTag) }
  else return { p with items := (← value fuel (depthLimit - 1)) :: p.items }

def readField (fuel : Nat) (p : Partial) (key : String) : JsonReader Partial := do
  if key = t.tag then
    if p.name.isSome then mismatch s!"duplicate field `{key}`"
    else
      colon
      return { p with name := some (← t.readTag) }
  else
    colon
    return { p with fields := (key, ← value fuel (depthLimit - 1)) :: p.fields }

def chosen (name : Option String) : JsonReader String := do
  match name with
  | some name => return name
  | none => mismatch (FieldValues.missing t.tag)

def readBody (opening : Char) : JsonReader (String × RecordBody) := do
  let fuel ← fuel
  let start : Partial := ⟨none, [], []⟩
  if opening = '[' then
    enclosed (do
      let p ← items (t.readItem fuel) fuel true start
      return (← t.chosen p.name, .items p.items.reverse)) endList
  else
    enclosed (do
      let p ← fields (t.readField fuel) fuel true start
      return (← t.chosen p.name, .fields p.fields.reverse)) endObject

def read : JsonReader α := do
  match ← peekToken? with
  | none => refuseHere .eofValue
  | some c =>
    if c = '[' || c = '\x7b' then
      let (name, body) ← t.readBody c
      match t.variants.find? (·.name = name) with
      | none => mismatch (FieldValues.missing t.tag)
      | some v =>
        match v.decode body with
        | .ok a => return a
        | .error message => mismatch message
    else mismatchHere ((← leaf t.expected).invalidType t.expected)

end RecordType
end NoteCell
