import Mathlib
import NoteCell.Proofs.Json.Reads

/-!
Data that is written is read again, whatever comes behind it: what stands between the brackets of a
container is read item by item and field by field. Records are decoded from what is written of them,
the tag first.
-/
namespace NoteCell

namespace JsonReader

variable {σ : Type} {inside : JsonReader σ} {close : JsonReader Unit} {s s' : σ} {a : σ}
variable {text mid rest more : List Char}

/-! ### Containers -/

theorem reads_observing {r : JsonReader σ} (hr : r.Reads text a rest) :
    (enclosed.observing r).Reads text (.ok a) rest := by
  intro line column
  obtain ⟨line', column', hr⟩ := hr line column
  refine ⟨line', column', ?_⟩
  change ((Except.ok (r.run.run ⟨text, line, column⟩).1 : Except JsonError _),
    (r.run.run ⟨text, line, column⟩).2) = _
  rw [hr]

theorem reads_enclosed (hinside : inside.Reads text s mid) (hclose : close.Reads mid () rest)
    (c : Char) : (enclosed inside close).Reads (c :: text) s rest :=
  (reads_skip c text).bind ((reads_observing hinside).bind
    ((reads_observing hclose).bind (.pure s rest)))

theorem reads_hasField_end (isFirst : Bool) (more : List Char) :
    (hasField isFirst).Reads ('\x7d' :: more) false ('\x7d' :: more) :=
  (reads_peekToken? rfl _).bind (.pure _ _)

theorem reads_hasItem_end (isFirst : Bool) (more : List Char) :
    (hasItem isFirst).Reads (']' :: more) false (']' :: more) :=
  (reads_peekToken? rfl _).bind (.pure _ _)

theorem reads_endObject (more : List Char) : endObject.Reads ('\x7d' :: more) () more :=
  (reads_peekToken? rfl _).bind (reads_skip _ more)

theorem reads_endList (more : List Char) : endList.Reads (']' :: more) () more :=
  (reads_peekToken? rfl _).bind (reads_skip _ more)

theorem reads_colon (more : List Char) : colon.Reads (':' :: more) () more :=
  (reads_peekToken? rfl _).bind (reads_skip _ more)

-- The comma before what does not come first.
def comma (isFirst : Bool) : List Char := if isFirst then [] else [',']

theorem reads_hasField (isFirst : Bool) (more : List Char) :
    (hasField isFirst).Reads (comma isFirst ++ '"' :: more) true ('"' :: more) := by
  cases isFirst
  case true => exact (reads_peekToken? rfl _).bind (.pure _ _)
  case false =>
    exact (reads_peekToken? rfl _).bind
      ((reads_skip _ _).bind ((reads_peekToken? rfl _).bind (.pure _ _)))

theorem reads_fields_end (field : σ → String → JsonReader σ) (fuel : Nat) (isFirst : Bool) (s : σ)
    (more : List Char) : (fields field fuel isFirst s).Reads ('\x7d' :: more) s ('\x7d' :: more) := by
  cases fuel
  case zero => exact .pure s _
  case succ => exact (reads_hasField_end isFirst more).bind (.pure s _)

theorem reads_fields_cons {field : σ → String → JsonReader σ} {fuel : Nat} {key : String}
    (hfield : (field s key).Reads text s' mid) (hrest : (fields field fuel false s').Reads mid a rest)
    (isFirst : Bool) :
    (fields field (fuel + 1) isFirst s).Reads
      (comma isFirst ++ ((JsonText.quoted key).toList ++ text)) a rest := by
  have hquoted : (JsonText.quoted key).toList ++ text
      = '"' :: (key.toList.flatMap JsonText.escape ++ '"' :: text) := by
    simp [JsonText.quoted]
  have hkey := reads_string key text
  rw [hquoted] at hkey ⊢
  exact (reads_hasField isFirst _).bind (hkey.bind (hfield.bind hrest))

-- What starts a value.
def Starts (text : List Char) : Prop := ∃ c rest, text = c :: rest ∧ isSpace c = false ∧ c ≠ ']' ∧ c ≠ ','

theorem reads_hasItem (htext : Starts text) (isFirst : Bool) :
    (hasItem isFirst).Reads (comma isFirst ++ text) true text := by
  obtain ⟨c, rest, rfl, hspace, hbracket, hcomma⟩ := htext
  cases isFirst
  case true =>
    refine (reads_peekToken? hspace _).bind ?_
    split <;> simp_all
    exact .pure _ _
  case false =>
    refine (reads_peekToken? rfl _).bind ((reads_skip _ _).bind ((reads_peekToken? hspace _).bind ?_))
    split <;> simp_all
    exact .pure _ _

theorem reads_items_end (item : σ → JsonReader σ) (fuel : Nat) (isFirst : Bool) (s : σ)
    (more : List Char) : (items item fuel isFirst s).Reads (']' :: more) s (']' :: more) := by
  cases fuel
  case zero => exact .pure s _
  case succ => exact (reads_hasItem_end isFirst more).bind (.pure s _)

theorem reads_items_cons {item : σ → JsonReader σ} {fuel : Nat} (htext : Starts text)
    (hitem : (item s).Reads text s' mid) (hrest : (items item fuel false s').Reads mid a rest)
    (isFirst : Bool) : (items item (fuel + 1) isFirst s).Reads (comma isFirst ++ text) a rest :=
  (reads_hasItem htext isFirst).bind (hitem.bind hrest)

theorem reads_ident (word more : List Char) : (ident word).Reads (word ++ more) () more := by
  induction word
  case nil => exact .pure _ _
  case cons c word ih =>
    refine (reads_peek? _).bind ?_
    simp only [List.cons_append, List.head?_cons, if_true]
    exact (reads_skip c _).bind ih

end JsonReader

/-! ### Values -/

-- Numbers that are read as they were written: whole, and of 64 bits.
def JsonNumber.Exact : JsonNumber → Prop
  | whole n => -Nat.pow 2 63 ≤ n ∧ n < JsonReader.wordLimit
  | double _ => False

namespace JsonValue

mutual

-- Data of exact numbers in which no more than `room` containers are opened inside each other.
def Fits (room : Nat) : JsonValue → Prop
  | number n => n.Exact
  | array items => 0 < room ∧ FitItems (room - 1) items
  | object fields => 0 < room ∧ FitFields (room - 1) fields
  | _ => True

def FitItems (room : Nat) : List JsonValue → Prop
  | [] => True
  | v :: rest => Fits room v ∧ FitItems room rest

def FitFields (room : Nat) : List (String × JsonValue) → Prop
  | [] => True
  | (_, v) :: rest => Fits room v ∧ FitFields room rest

end

-- The items of a container as they are written, with a comma before them unless they come first.
def itemsText (isFirst : Bool) : List JsonValue → List Char
  | [] => []
  | v :: rest => JsonReader.comma isFirst ++ (v.text.toList ++ itemsText false rest)

def fieldsText (isFirst : Bool) : List (String × JsonValue) → List Char
  | [] => []
  | (key, v) :: rest => JsonReader.comma isFirst
    ++ ((JsonText.quoted key).toList ++ ':' :: (v.text.toList ++ fieldsText false rest))

theorem itemsText_eq (items : List JsonValue) :
    itemsText true items = [','].intercalate ((itemTexts items).map String.toList) := by
  cases items
  case nil => rfl
  case cons v rest =>
    induction rest generalizing v
    case nil => simp [itemsText, itemTexts, JsonReader.comma]
    case cons w rest ih =>
      have hnext := ih w
      simp only [itemsText, itemTexts, List.map_cons, JsonReader.comma] at hnext ⊢
      simp [List.intercalate_cons_cons, ← hnext]

theorem fieldsText_eq (fields : List (String × JsonValue)) :
    fieldsText true fields = [','].intercalate ((fieldTexts fields).map String.toList) := by
  cases fields
  case nil => rfl
  case cons field rest =>
    induction rest generalizing field
    case nil => simp [fieldsText, fieldTexts, JsonReader.comma]
    case cons next rest ih =>
      have hnext := ih next
      simp only [fieldsText, fieldTexts, List.map_cons, JsonReader.comma] at hnext ⊢
      simpa [List.intercalate_cons_cons] using hnext

theorem toList_text_array (items : List JsonValue) :
    (array items).text.toList = '[' :: (itemsText true items ++ [']']) := by
  simp [text, itemsText_eq]

theorem toList_text_object (fields : List (String × JsonValue)) :
    (object fields).text.toList = '\x7b' :: (fieldsText true fields ++ ['\x7d']) := by
  simp [text, fieldsText_eq]

end JsonValue

namespace JsonReader

open JsonValue (itemsText fieldsText)

variable {n : JsonNumber} {v : JsonValue}

-- A value that is read by its first character, which opens and closes nothing.
def IsScalar (v : JsonValue) (more : List Char) : Prop :=
  ∃ c rest, v.text.toList ++ more = c :: rest ∧ isSpace c = false
    ∧ c ∉ ['[', ']', '\x7b', ','] ∧ (scalar? c).Reads (c :: rest) (some v) more

theorem isScalar_null (more : List Char) : IsScalar .null more :=
  ⟨'n', _, rfl, rfl, by decide,
    (reads_skip 'n' _).bind ((reads_ident ['u', 'l', 'l'] more).bind (.pure _ _))⟩

theorem isScalar_bool (b : Bool) (more : List Char) : IsScalar (.bool b) more := by
  cases b
  case false =>
    exact ⟨'f', _, rfl, rfl, by decide,
      (reads_skip 'f' _).bind ((reads_ident ['a', 'l', 's', 'e'] more).bind (.pure _ _))⟩
  case true =>
    exact ⟨'t', _, rfl, rfl, by decide,
      (reads_skip 't' _).bind ((reads_ident ['r', 'u', 'e'] more).bind (.pure _ _))⟩

theorem isScalar_string (s : String) (more : List Char) : IsScalar (.string s) more := by
  have hquoted : (JsonText.quoted s).toList ++ more
      = '"' :: (s.toList.flatMap JsonText.escape ++ '"' :: more) := by
    simp [JsonText.quoted]
  have hread := reads_string s more
  rw [hquoted] at hread
  exact ⟨'"', _, hquoted, rfl, by decide, hread.bind (.pure _ _)⟩

theorem scalar?_digit {c : Char} (hc : c.isDigit) :
    scalar? c = (do return some (.number (← number false))) := by
  rw [scalar?.eq_def]
  split
  case h_6 => rw [if_pos hc]
  all_goals cases hc

theorem isScalar_natural {n : Nat} (hn : n < wordLimit) (hmore : Ends more) :
    IsScalar (.number (.whole n)) more := by
  have htext : (JsonValue.number (.whole n)).text.toList = Nat.toDigits 10 n := by
    change (Int.repr n).toList = _
    rw [Int.repr_eq_if, if_pos (Int.natCast_nonneg n), Int.toNat_natCast, Nat.toList_repr]
  have hread : (number false).Reads _ (.whole n) more := reads_number hn false hmore
  obtain ⟨c, cs, hdigits⟩ := List.exists_cons_of_ne_nil (Nat.toDigits_ne_nil (n := n) (b := 10))
  have hc : c.isDigit := Decimal.isDigit_of_mem_toDigits (hdigits ▸ List.mem_cons_self)
  have hne (d : Char) (hd : d.isDigit = false) : c ≠ d := fun h => by simp [← h, hc] at hd
  rw [hdigits] at hread
  refine ⟨c, cs ++ more, by rw [htext, hdigits]; rfl, ?_, ?_, ?_⟩
  · simp [isSpace, hne]
  · simp [hne]
  · rw [scalar?_digit hc]
    exact hread.bind (.pure _ _)

theorem isScalar_negative {n : Nat} (hpos : 0 < n) (hn : n ≤ Nat.pow 2 63) (hmore : Ends more) :
    IsScalar (.number (.whole (-n))) more := by
  have htext : (JsonValue.number (.whole (-n))).text.toList = '-' :: Nat.toDigits 10 n := by
    change (Int.repr (-n)).toList = _
    rw [Int.repr_eq_if, if_neg (by omega), Int.neg_neg, Int.toNat_natCast, String.toList_append,
      Nat.toList_repr]
    rfl
  have hread := reads_number (n := n) (hn.trans_lt (by decide)) true hmore
  have hwhole : wholeNumber true n = .whole (-n) := by
    rw [wholeNumber, if_neg (by decide), if_pos ⟨hpos, hn⟩]
  rw [hwhole] at hread
  exact ⟨'-', Nat.toDigits 10 n ++ more, by rw [htext]; rfl, rfl, by decide,
    (reads_skip '-' _).bind (hread.bind (.pure _ _))⟩

theorem isScalar_number {n : JsonNumber} (hn : n.Exact) (hmore : Ends more) :
    IsScalar (.number n) more := by
  cases n with
  | double x => exact hn.elim
  | whole n =>
    obtain ⟨hleast, hmost⟩ := hn
    obtain ⟨n, rfl | rfl⟩ := n.eq_nat_or_neg
    · exact isScalar_natural (by exact_mod_cast hmost) hmore
    · obtain rfl | hpos := n.eq_zero_or_pos
      · exact isScalar_natural (by decide) hmore
      · exact isScalar_negative hpos (by omega) hmore

theorem reads_value_scalar {v : JsonValue} (hv : IsScalar v more) (fuel room : Nat) :
    (value (fuel + 1) room).Reads (v.text.toList ++ more) v more := by
  obtain ⟨c, rest, htext, hspace, hc, hread⟩ := hv
  rw [htext]
  refine (reads_peekToken? hspace rest).bind ?_
  simp only [List.mem_cons, List.not_mem_nil, or_false, not_or] at hc
  split
  case h_1 h => exact (Option.some_ne_none c h).elim
  case h_2 h => exact (hc.1 (Option.some.inj h)).elim
  case h_3 h => exact (hc.2.2.1 (Option.some.inj h)).elim
  case h_4 h =>
    cases h
    exact hread.bind (.pure v more)

theorem IsScalar.starts {v : JsonValue} (hv : IsScalar v more) :
    Starts (v.text.toList ++ more) := by
  obtain ⟨c, rest, htext, hspace, hc, -⟩ := hv
  simp only [List.mem_cons, List.not_mem_nil, or_false, not_or] at hc
  exact ⟨c, rest, htext, hspace, hc.2.1, hc.2.2.2⟩

theorem starts_text {room : Nat} {v : JsonValue} (hv : v.Fits room) (hmore : Ends more) :
    Starts (v.text.toList ++ more) := by
  cases v with
  | null => exact (isScalar_null more).starts
  | bool b => exact (isScalar_bool b more).starts
  | number n => exact (isScalar_number hv hmore).starts
  | string s => exact (isScalar_string s more).starts
  | array items =>
    rw [JsonValue.toList_text_array]
    exact ⟨'[', _, rfl, rfl, by decide, by decide⟩
  | object fields =>
    rw [JsonValue.toList_text_object]
    exact ⟨'\x7b', _, rfl, rfl, by decide, by decide⟩

theorem length_text_pos {room : Nat} {v : JsonValue} (hv : v.Fits room) :
    0 < v.text.toList.length := by
  have hends : Ends [] := by simp [Ends]
  obtain ⟨c, rest, htext, -⟩ := starts_text hv hends
  rw [List.append_nil] at htext
  rw [htext]
  exact Nat.succ_pos _

theorem ends_itemsText (items : List JsonValue) (more : List Char) :
    Ends (itemsText false items ++ ']' :: more) := by
  cases items <;> simp [Ends, itemsText, comma]

theorem ends_fieldsText (fields : List (String × JsonValue)) (more : List Char) :
    Ends (fieldsText false fields ++ '\x7d' :: more) := by
  cases fields <;> simp [Ends, fieldsText, comma]

theorem reads_value_array {fuel room : Nat} (hroom : 0 < room) {read : List JsonValue}
    (hread : (items (fun done => return (← value fuel (room - 1)) :: done) fuel true []).Reads
      (text ++ ']' :: more) read (']' :: more)) :
    (value (fuel + 1) room).Reads ('[' :: (text ++ ']' :: more)) (.array read.reverse) more := by
  refine (reads_peekToken? rfl _).bind ?_
  dsimp only
  rw [if_neg hroom.ne']
  exact (reads_enclosed hread (reads_endList more) '[').bind (.pure _ more)

-- Reads the value of a field of an object.
def fieldValue (fuel room : Nat) (done : List (String × JsonValue)) (key : String) :
    JsonReader (List (String × JsonValue)) := do
  colon
  return (key, ← value fuel room) :: done

theorem reads_value_object {fuel room : Nat} (hroom : 0 < room)
    {read : List (String × JsonValue)}
    (hread : (fields (fieldValue fuel (room - 1)) fuel true []).Reads
      (text ++ '\x7d' :: more) read ('\x7d' :: more)) :
    (value (fuel + 1) room).Reads ('\x7b' :: (text ++ '\x7d' :: more)) (.object read.reverse)
      more := by
  refine (reads_peekToken? rfl _).bind ?_
  change Reads (if room = 0 then refuseNext .tooDeep else (do
    let read ← enclosed (fields (fieldValue fuel (room - 1)) fuel true []) endObject
    return JsonValue.object read.reverse)) _ _ _
  rw [if_neg hroom.ne']
  exact (reads_enclosed hread (reads_endObject more) '\x7b').bind (.pure _ more)

mutual

-- `fuel` is enough when the text is no longer.
theorem reads_value (v : JsonValue) {room fuel : Nat} (hv : v.Fits room)
    (hfuel : v.text.toList.length ≤ fuel) {more : List Char} (hmore : Ends more) :
    (value fuel room).Reads (v.text.toList ++ more) v more := by
  obtain ⟨fuel, rfl⟩ := Nat.exists_eq_add_one.mpr ((length_text_pos hv).trans_le hfuel)
  cases v with
  | null => exact reads_value_scalar (isScalar_null more) fuel room
  | bool b => exact reads_value_scalar (isScalar_bool b more) fuel room
  | number n => exact reads_value_scalar (isScalar_number hv hmore) fuel room
  | string s => exact reads_value_scalar (isScalar_string s more) fuel room
  | array items =>
    rw [JsonValue.toList_text_array] at hfuel ⊢
    rw [List.length_cons, List.length_append, List.length_singleton] at hfuel
    have hread := reads_value_array hv.1 (reads_itemsText items hv.2 true
      (show _ ≤ fuel by omega) (by omega) [] more)
    rw [List.append_nil, List.reverse_reverse] at hread
    simpa using hread
  | object fields =>
    rw [JsonValue.toList_text_object] at hfuel ⊢
    rw [List.length_cons, List.length_append, List.length_singleton] at hfuel
    have hread := reads_value_object hv.1 (reads_fieldsText fields hv.2 true
      (show _ ≤ fuel by omega) (by omega) [] more)
    rw [List.append_nil, List.reverse_reverse] at hread
    simpa using hread

theorem reads_itemsText (items : List JsonValue) {room fuel count : Nat}
    (hitems : JsonValue.FitItems room items) (isFirst : Bool)
    (hfuel : (itemsText isFirst items).length ≤ fuel)
    (hcount : (itemsText isFirst items).length ≤ count) (done : List JsonValue)
    (more : List Char) :
    (JsonReader.items (fun done => return (← value fuel room) :: done) count isFirst done).Reads
      (itemsText isFirst items ++ ']' :: more) (items.reverse ++ done) (']' :: more) := by
  match items with
  | [] => exact reads_items_end _ count isFirst done more
  | v :: rest =>
    obtain ⟨hv, hrest⟩ := hitems
    have hpos := length_text_pos hv
    have hends := ends_itemsText rest more
    simp only [itemsText, List.length_append] at hfuel hcount
    obtain ⟨count, rfl⟩ := Nat.exists_eq_add_one.mpr (show 0 < count by omega)
    have hvalue := (reads_value v hv (show _ ≤ fuel by omega) hends).bind
      (k := fun v => Pure.pure (v :: done)) (.pure _ _)
    have hitems := reads_itemsText rest hrest false (show _ ≤ fuel by omega)
      (show _ ≤ count by omega) (v :: done) more
    rw [itemsText, List.append_assoc, List.append_assoc, List.reverse_cons, List.append_assoc]
    exact reads_items_cons (starts_text hv hends) hvalue hitems isFirst

theorem reads_fieldsText (fields : List (String × JsonValue)) {room fuel count : Nat}
    (hfields : JsonValue.FitFields room fields) (isFirst : Bool)
    (hfuel : (fieldsText isFirst fields).length ≤ fuel)
    (hcount : (fieldsText isFirst fields).length ≤ count) (done : List (String × JsonValue))
    (more : List Char) :
    (JsonReader.fields (fieldValue fuel room) count isFirst done).Reads
      (fieldsText isFirst fields ++ '\x7d' :: more) (fields.reverse ++ done) ('\x7d' :: more) := by
  match fields with
  | [] => exact reads_fields_end _ count isFirst done more
  | (key, v) :: rest =>
    obtain ⟨hv, hrest⟩ := hfields
    have hends := ends_fieldsText rest more
    simp only [fieldsText, List.length_append, List.length_cons] at hfuel hcount
    obtain ⟨count, rfl⟩ := Nat.exists_eq_add_one.mpr (show 0 < count by omega)
    have hvalue : (fieldValue fuel room done key).Reads _ ((key, v) :: done) _ :=
      (reads_colon _).bind ((reads_value v hv (show _ ≤ fuel by omega) hends).bind (.pure _ _))
    have hfields := reads_fieldsText rest hrest false (show _ ≤ fuel by omega)
      (show _ ≤ count by omega) ((key, v) :: done) more
    rw [fieldsText, List.append_assoc, List.append_assoc, List.cons_append, List.append_assoc,
      List.reverse_cons, List.append_assoc]
    exact reads_fields_cons hvalue hfields isFirst

end

end JsonReader

/-! ### Lines -/

theorem JsonText.lineFeed_notMem_escape (c : Char) : '\n' ∉ escape c := by
  obtain ⟨_, _, hcontrol, heq⟩ | ⟨_, heq⟩ | ⟨d, heq, _, hread⟩ := JsonReader.escape_cases c
  · rw [heq, List.mem_singleton]
    rintro rfl
    exact hcontrol (by decide)
  · have hdigit (n : Nat) : '\n' ≠ Quoted.hexDigit n := fun h => by
      have hread := JsonReader.hexDigit?_hexDigit n
      rw [← h] at hread
      cases hread
    simp [heq, Quoted.hexDigits, hdigit]
  · rw [heq]
    simp only [List.mem_cons, List.not_mem_nil, or_false, not_or]
    refine ⟨by decide, ?_⟩
    rintro rfl
    cases hread

theorem JsonText.lineFeed_notMem_quoted (s : String) : '\n' ∉ (quoted s).toList := by
  simp [quoted, lineFeed_notMem_escape]

theorem JsonNumber.lineFeed_notMem_text {n : JsonNumber} (hn : n.Exact) : '\n' ∉ n.text.toList := by
  cases n with
  | double x => exact hn.elim
  | whole n =>
    have hdigits (n : Nat) : '\n' ∉ Nat.toDigits 10 n := fun h => by
      have hdigit := Decimal.isDigit_of_mem_toDigits h
      cases hdigit
    change '\n' ∉ (Int.repr n).toList
    rw [Int.repr_eq_if]
    split <;> simp [hdigits, Nat.toList_repr]

namespace JsonValue

theorem lineFeed_notMem_comma (isFirst : Bool) : '\n' ∉ JsonReader.comma isFirst := by
  cases isFirst <;> decide

mutual

-- What is written stays on one line.
theorem lineFeed_notMem_text (v : JsonValue) {room : Nat} (hv : v.Fits room) :
    '\n' ∉ v.text.toList := by
  match v with
  | .null => decide
  | .bool b => cases b <;> decide
  | .number n => exact JsonNumber.lineFeed_notMem_text hv
  | .string s => exact JsonText.lineFeed_notMem_quoted s
  | .array items =>
    rw [toList_text_array]
    simp [lineFeed_notMem_itemsText items hv.2 true]
  | .object fields =>
    rw [toList_text_object]
    simp [lineFeed_notMem_fieldsText fields hv.2 true]

theorem lineFeed_notMem_itemsText (items : List JsonValue) {room : Nat} (hitems : FitItems room items)
    (isFirst : Bool) : '\n' ∉ itemsText isFirst items := by
  match items with
  | [] => exact List.not_mem_nil
  | v :: rest =>
    simp [itemsText, lineFeed_notMem_comma, lineFeed_notMem_text v hitems.1,
      lineFeed_notMem_itemsText rest hitems.2 false]

theorem lineFeed_notMem_fieldsText (fields : List (String × JsonValue)) {room : Nat}
    (hfields : FitFields room fields) (isFirst : Bool) : '\n' ∉ fieldsText isFirst fields := by
  match fields with
  | [] => exact List.not_mem_nil
  | (key, v) :: rest =>
    simp [fieldsText, lineFeed_notMem_comma, JsonText.lineFeed_notMem_quoted,
      lineFeed_notMem_text v hfields.1, lineFeed_notMem_fieldsText rest hfields.2 false]

end

end JsonValue

/-! ### Records -/

namespace JsonReader

variable {v : JsonValue} {more : List Char}

theorem reads_fuel (text : List Char) : fuel.Reads text (2 * text.length + 2) text :=
  fun line column => ⟨line, column, rfl⟩

theorem reads_leaf (hv : IsScalar v more) (expected : String) :
    (leaf expected).Reads (v.text.toList ++ more) v more := by
  obtain ⟨c, rest, htext, hspace, hc, hread⟩ := hv
  rw [htext]
  refine (reads_peekToken? hspace rest).bind ?_
  simp only [List.mem_cons, List.not_mem_nil, or_false, not_or] at hc
  split
  case h_1 h => exact (Option.some_ne_none c h).elim
  case h_2 h => exact (hc.1 (Option.some.inj h)).elim
  case h_3 h => exact (hc.2.2.1 (Option.some.inj h)).elim
  case h_4 h =>
    cases h
    exact hread.bind (.pure v more)

theorem reads_oneOf {name : String} {names : List String} (hname : name ∈ names)
    (more : List Char) :
    (oneOf names).Reads ((JsonText.quoted name).toList ++ more) name more := by
  refine (reads_leaf (isScalar_string name more) oneOf.expected).bind ?_
  dsimp only
  rw [if_pos hname]
  exact .pure name more

end JsonReader

namespace RecordType

open JsonReader JsonValue

variable {α : Type} (t : RecordType α) {name : String} {entries : List (String × JsonValue)}

theorem reads_readTag (hname : name ∈ t.variants.map (·.name)) (more : List Char) :
    t.readTag.Reads ((JsonText.quoted name).toList ++ more) name more :=
  reads_oneOf hname more

theorem reads_readField_tag (hname : name ∈ t.variants.map (·.name)) (fuel : Nat)
    (items : List JsonValue) (fields : List (String × JsonValue)) (more : List Char) :
    (t.readField fuel ⟨none, items, fields⟩ t.tag).Reads
      (':' :: ((JsonText.quoted name).toList ++ more)) ⟨some name, items, fields⟩ more := by
  rw [readField, if_pos rfl]
  exact (reads_colon _).bind ((t.reads_readTag hname more).bind (.pure _ more))

variable {fuel count : Nat} {more : List Char}

theorem reads_readField {key : String} (hkey : key ≠ t.tag) {v : JsonValue}
    (hv : v.Fits (depthLimit - 1)) (hfuel : v.text.toList.length ≤ fuel) (hmore : Ends more)
    (p : Partial) :
    (t.readField fuel p key).Reads (':' :: (v.text.toList ++ more))
      { p with fields := (key, v) :: p.fields } more := by
  rw [readField, if_neg hkey]
  exact (reads_colon _).bind ((reads_value v hv hfuel hmore).bind (.pure _ more))

-- The fields behind the tag are added to what was read before them.
theorem reads_fieldsText (hkeys : ∀ e ∈ entries, e.1 ≠ t.tag)
    (hfit : FitFields (depthLimit - 1) entries) (isFirst : Bool)
    (hfuel : (fieldsText isFirst entries).length ≤ fuel)
    (hcount : (fieldsText isFirst entries).length ≤ count) (p : Partial) (more : List Char) :
    (fields (t.readField fuel) count isFirst p).Reads (fieldsText isFirst entries ++ '\x7d' :: more)
      { p with fields := entries.reverse ++ p.fields } ('\x7d' :: more) := by
  induction entries generalizing isFirst count p
  case nil => exact reads_fields_end _ count isFirst p more
  case cons entry rest ih =>
    obtain ⟨key, v⟩ := entry
    obtain ⟨hkey, hkeys⟩ := List.forall_mem_cons.mp hkeys
    obtain ⟨hv, hrest⟩ := hfit
    simp only [fieldsText, List.length_append, List.length_cons] at hfuel hcount
    obtain ⟨count, rfl⟩ := Nat.exists_eq_add_one.mpr (show 0 < count by omega)
    have hfield := t.reads_readField hkey hv (show _ ≤ fuel by omega) (ends_fieldsText rest more) p
    have hfields := ih hkeys hrest false (show _ ≤ fuel by omega) (show _ ≤ count by omega)
      { p with fields := (key, v) :: p.fields }
    rw [fieldsText, List.append_assoc, List.append_assoc, List.cons_append, List.append_assoc,
      List.reverse_cons, List.append_assoc]
    exact reads_fields_cons hfield hfields isFirst

theorem reads_readBody (hname : name ∈ t.variants.map (·.name)) (hkeys : ∀ e ∈ entries, e.1 ≠ t.tag)
    (hfit : FitFields (depthLimit - 1) entries) :
    (t.readBody '\x7b').Reads (object ((t.tag, .string name) :: entries)).text.toList
      (name, .fields entries) [] := by
  have htext : (object ((t.tag, .string name) :: entries)).text.toList
      = '\x7b' :: ((JsonText.quoted t.tag).toList
        ++ ':' :: ((JsonText.quoted name).toList ++ (fieldsText false entries ++ ['\x7d']))) := by
    rw [toList_text_object]
    simp [fieldsText, comma, JsonValue.text]
  rw [htext]
  -- The fuel is more than the length of the text, of which the fields are a part.
  refine (reads_fuel _).bind ?_
  generalize hfuel : 2 * _ + 2 = fuel
  have hlong : (fieldsText false entries).length < fuel := by
    simp only [List.length_cons, List.length_append] at hfuel
    omega
  obtain ⟨fuel, rfl⟩ := Nat.exists_eq_add_one.mpr (Nat.zero_lt_of_lt hlong)
  have hfields := t.reads_fieldsText hkeys hfit false (show _ ≤ fuel + 1 by omega)
    (show _ ≤ fuel by omega) ⟨some name, [], []⟩ []
  have hread := reads_fields_cons (t.reads_readField_tag hname (fuel + 1) [] [] _) hfields true
  rw [comma, if_pos rfl, List.nil_append] at hread
  dsimp only
  rw [if_neg (by decide)]
  refine reads_enclosed (hread.bind ?_) (reads_endObject []) _
  rw [List.append_nil, List.reverse_reverse]
  exact .pure _ _

theorem read_object {variant : Variant α} {a : α}
    (hvariant : t.variants.find? (·.name = name) = some variant)
    (hkeys : ∀ e ∈ entries, e.1 ≠ t.tag) (hfit : FitFields (depthLimit - 1) entries)
    (hdecode : variant.decode (.fields entries) = .ok a) :
    t.read.read (object ((t.tag, .string name) :: entries)).text = .ok a := by
  have hname : name ∈ t.variants.map (·.name) := by
    have hfound := List.find?_some hvariant
    exact List.mem_map.mpr ⟨variant, List.mem_of_find?_eq_some hvariant, of_decide_eq_true hfound⟩
  have hread : t.read.Reads (object ((t.tag, .string name) :: entries)).text.toList a [] := by
    have hbody := t.reads_readBody hname hkeys hfit
    rw [toList_text_object] at hbody ⊢
    refine (reads_peekToken? rfl _).bind ?_
    dsimp only
    rw [if_pos (by decide)]
    refine hbody.bind ?_
    dsimp only
    rw [hvariant]
    dsimp only
    rw [hdecode]
    exact .pure a []
  have hall : Reads (do let a ← t.read; finish; return a) _ a [] :=
    hread.bind (reads_finish.bind (.pure a []))
  obtain ⟨line, column, hrun⟩ := hall 1 0
  exact congrArg Prod.fst hrun

end RecordType
end NoteCell
