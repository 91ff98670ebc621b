import Mathlib
import NoteCell.Proofs.Json.Written
import NoteCell.Proofs.Text.Utf8
import NoteCell.Worker.Framing

/-!
What a worker and its host write to each other is read as it was meant: every message takes one line,
and messages, requests and results are decoded from what was encoded of them.
-/
namespace NoteCell

open JsonReader (wordLimit depthLimit)

/-! ### Bundles -/

-- A bundle as it is kept, in which all data is text.
structure Bundle.IsText (b : Bundle) : Prop where
  ordered : b.Pairwise (·.1 < ·.1)
  strings : ∀ e ∈ b, ∃ s, e.2 = .string s

namespace JsonValue

variable {done rest : List (String × JsonValue)}

theorem insert_last {key : String} (hkey : ∀ e ∈ done, e.1 < key) (v : JsonValue) :
    insert key v done = done ++ [(key, v)] := by
  induction done
  case nil => rfl
  case cons entry done ih =>
    obtain ⟨hentry, hdone⟩ := List.forall_mem_cons.mp hkey
    rw [insert, if_neg (lt_asymm hentry), if_neg hentry.ne', ih hdone, List.cons_append]

theorem settledFields_ordered (hordered : (done ++ rest).Pairwise (·.1 < ·.1))
    (hstrings : ∀ e ∈ rest, ∃ s, e.2 = .string s) : settledFields done rest = done ++ rest := by
  induction rest generalizing done
  case nil => rw [settledFields, List.append_nil]
  case cons entry rest ih =>
    obtain ⟨key, v⟩ := entry
    obtain ⟨⟨s, rfl⟩, hrest⟩ := List.forall_mem_cons.mp hstrings
    have hkey : ∀ e ∈ done, e.1 < key := fun e he =>
      (List.pairwise_append.mp hordered).2.2 e he _ List.mem_cons_self
    rw [List.append_cons] at hordered ⊢
    rw [settledFields, show settled (string s) = string s from rfl, insert_last hkey]
    exact ih hordered hrest

theorem fitFields_of_strings {room : Nat} (hstrings : ∀ e ∈ rest, ∃ s, e.2 = .string s) :
    FitFields room rest := by
  induction rest
  case nil => trivial
  case cons entry rest ih =>
    obtain ⟨key, v⟩ := entry
    obtain ⟨⟨s, rfl⟩, hrest⟩ := List.forall_mem_cons.mp hstrings
    exact ⟨trivial, ih hrest⟩

end JsonValue

theorem Bundle.IsText.ofFields_eq {b : Bundle} (hb : b.IsText) : Bundle.ofFields b = b := by
  have hordered : ([] ++ b).Pairwise fun e e' : String × JsonValue => e.1 < e'.1 := hb.ordered
  exact JsonValue.settledFields_ordered hordered hb.strings

theorem Bundle.IsText.fits {b : Bundle} (hb : b.IsText) {room : Nat} (hroom : 0 < room) :
    b.encode.Fits room :=
  ⟨hroom, JsonValue.fitFields_of_strings hb.strings⟩

/-! ### Records -/

-- What can be sent: ids of 64 bits and bundles of text.
def Message.Sendable : Message → Prop
  | executeResult _ result => result.IsText
  | inputRequest suspension _ _ => suspension < wordLimit
  | _ => True

def Request.Sendable : Request → Prop
  | resume suspension _ => suspension < wordLimit
  | _ => True

def CellResult.Sendable : CellResult → Prop
  | success (some value) _ _ => value.IsText
  | _ => True

theorem fits_encodeWord {n : Nat} (hn : n < wordLimit) (room : Nat) : (encodeWord n).Fits room := by
  refine ⟨?_, Int.ofNat_lt.mpr hn⟩
  have hpow := Int.natCast_nonneg (Nat.pow 2 63)
  have hnat := Int.natCast_nonneg n
  omega

theorem Message.fits_encode {m : Message} (hm : m.Sendable) : m.encode.Fits depthLimit := by
  have hroom : 0 < depthLimit := by decide
  cases m with
  | initialized => exact ⟨hroom, trivial, trivial⟩
  | stdout text => exact ⟨hroom, trivial, trivial, trivial⟩
  | executeResult cell result =>
    cases cell
    case none => exact ⟨hroom, trivial, hm.fits (by decide), trivial⟩
    case some cell => exact ⟨hroom, trivial, trivial, hm.fits (by decide), trivial⟩
  | inputRequest suspension cell prompt =>
    exact ⟨hroom, trivial, fits_encodeWord hm _, trivial, trivial, trivial⟩
  | executeCompleted cell out err => exact ⟨hroom, trivial, trivial, trivial, trivial, trivial⟩
  | error cell reason out err =>
    cases cell
    case none => exact ⟨hroom, trivial, trivial, trivial, trivial, trivial⟩
    case some cell => exact ⟨hroom, trivial, trivial, trivial, trivial, trivial, trivial⟩

theorem Message.decode_encode {m : Message} (hm : m.Sendable) :
    Message.decode m.encode.text = .ok m := by
  have hfit := fits_encode hm
  cases m with
  | initialized => exact recordType.read_object rfl (by simp) hfit.2.2 rfl
  | executeResult cell result =>
    have hresult : (Except.ok (executeResult cell (.ofFields result)) : Except String Message)
        = .ok (executeResult cell result) := by rw [hm.ofFields_eq]
    cases cell
    case none =>
      exact recordType.read_object rfl (by simp [recordType, cellField]) hfit.2.2 hresult
    case some cell =>
      exact recordType.read_object rfl (by simp [recordType, cellField]) hfit.2.2 hresult
  | error cell reason out err =>
    cases cell
    case none => exact recordType.read_object rfl (by simp [recordType, cellField]) hfit.2.2 rfl
    case some cell =>
      exact recordType.read_object rfl (by simp [recordType, cellField]) hfit.2.2 rfl
  | _ => exact recordType.read_object rfl (by simp [recordType]) hfit.2.2 rfl

theorem Request.decode_encode {r : Request} (hr : r.Sendable) :
    Request.decode r.encode.text = .ok r := by
  cases r with
  | greet => exact recordType.read_object rfl (by simp) trivial rfl
  | run cell code =>
    exact recordType.read_object rfl (by simp [recordType]) ⟨trivial, trivial, trivial⟩ rfl
  | resume suspension value =>
    exact recordType.read_object rfl (by simp [recordType])
      ⟨fits_encodeWord hr _, trivial, trivial⟩ rfl

theorem CellResult.decode_encode {r : CellResult} (hr : r.Sendable) :
    recordType.read.read r.encode.text = .ok r := by
  cases r with
  | success value out err =>
    cases value
    case none =>
      exact recordType.read_object rfl (by simp [recordType]) ⟨trivial, trivial, trivial, trivial⟩ rfl
    case some b =>
      have hvalue : (Except.ok (success (some (.ofFields b)) out err) : Except String CellResult)
          = .ok (success (some b) out err) := by rw [hr.ofFields_eq]
      exact recordType.read_object rfl (by simp [recordType])
        ⟨hr.fits (by decide), trivial, trivial, trivial⟩ hvalue
  | failure message out err =>
    exact recordType.read_object rfl (by simp [recordType]) ⟨trivial, trivial, trivial, trivial⟩ rfl

/-! ### Lines -/

theorem splitLines_line {line : List UInt8} (hline : lineFeed ∉ line) (rest : List UInt8) :
    splitLines (line ++ lineFeed :: rest)
      = ((line ++ [lineFeed]) :: (splitLines rest).1, (splitLines rest).2) := by
  have hne : ∀ b ∈ line, (b ≠ lineFeed : Bool) := fun b hb =>
    decide_eq_true fun h => hline (h ▸ hb)
  have hfirst : firstLine? (line ++ lineFeed :: rest) = some (line ++ [lineFeed], rest) := by
    rw [firstLine?, List.dropWhile_append_of_pos hne, List.takeWhile_append_of_pos hne]
    simp
  rw [splitLines]
  split
  case h_1 h => simp [h] at hfirst
  case h_2 h =>
    cases h.symm.trans hfirst
    rfl

namespace Message

-- What is written of a message.
def bytes (m : Message) : List UInt8 := m.line.toUTF8.data.toList

-- The message on a line, if there is one.
def ofLine? (line : List UInt8) : Option Message := do
  let chars ← (Utf8.decode line).toOption
  (Message.decode (String.ofList (withoutEnd chars))).toOption

theorem bytes_eq {m : Message} (hm : m.Sendable) :
    ∃ line, m.bytes = line ++ [lineFeed] ∧ lineFeed ∉ line := by
  refine ⟨m.encode.text.toList.flatMap String.utf8EncodeChar, ?_, fun hfeed => ?_⟩
  · rw [bytes, Utf8.toList_toUTF8, line, String.toList_append, List.flatMap_append]
    rfl
  · obtain ⟨c, hc, hfeed⟩ := List.mem_flatMap.mp hfeed
    have hnat : c.toNat = '\n'.toNat := Utf8.toNat_of_mem_encode hfeed (by decide)
    exact JsonValue.lineFeed_notMem_text _ (fits_encode hm) (Char.toNat_inj.mp hnat ▸ hc)

theorem ofLine?_bytes {m : Message} (hm : m.Sendable) : ofLine? m.bytes = some m := by
  have hend : withoutEnd m.line.toList = m.encode.text.toList := by
    have hlast (cs : List Char) : withoutEnd (cs ++ ['\x7d', '\n']) = cs ++ ['\x7d'] := by
      simp [withoutEnd]
    obtain ⟨fields, hfields⟩ : ∃ fields, m.encode = .object fields := by cases m <;> exact ⟨_, rfl⟩
    rw [line, String.toList_append, hfields, JsonValue.toList_text_object, ← List.cons_append,
      List.append_assoc]
    exact hlast _
  rw [ofLine?, bytes, Utf8.decode_toUTF8]
  simp [hend, decode_encode hm, Except.toOption]

theorem splitLines_bytes {messages : List Message} (hmessages : ∀ m ∈ messages, m.Sendable) :
    splitLines (messages.flatMap bytes) = (messages.map bytes, []) := by
  induction messages
  case nil => rw [List.flatMap_nil, splitLines]; rfl
  case cons m messages ih =>
    obtain ⟨hm, hmessages⟩ := List.forall_mem_cons.mp hmessages
    obtain ⟨line, hline, hfeed⟩ := bytes_eq hm
    rw [List.flatMap_cons, List.map_cons, hline, List.append_assoc, List.singleton_append,
      splitLines_line hfeed, ih hmessages]

end Message

-- Every list of messages is written on as many lines, which say what was meant; and so do a request
-- and a result.
theorem wire_roundTrip :
    (∀ messages : List Message, (∀ m ∈ messages, m.Sendable) →
      ∃ lines, splitLines (messages.flatMap Message.bytes) = (lines, [])
        ∧ lines.map Message.ofLine? = messages.map some)
    ∧ (∀ r : Request, r.Sendable → Request.decode r.encode.text = .ok r)
    ∧ ∀ r : CellResult, r.Sendable → CellResult.recordType.read.read r.encode.text = .ok r := by
  refine ⟨fun messages hmessages => ?_, fun _ => Request.decode_encode,
    fun _ => CellResult.decode_encode⟩
  refine ⟨_, Message.splitLines_bytes hmessages, ?_⟩
  rw [List.map_map]
  exact List.map_congr_left fun m hm => Message.ofLine?_bytes (hmessages m hm)

-- Line breaks, quotes and control characters in all places.
theorem wire_roundTrip_odd :
    (∃ lines, splitLines (List.flatMap Message.bytes [.initialized, .stdout "a\n\r\x01\"\\",
        .executeResult none [("image/png", .string ""), ("text/plain", .string "\n")],
        .inputRequest 18446744073709551615 "c\n" "é", .executeCompleted "" "\t" "\x1f",
        .error (some "\n") "e" "\n\n" ""]) = (lines, [])
      ∧ lines.map Message.ofLine? = List.map some [.initialized, .stdout "a\n\r\x01\"\\",
        .executeResult none [("image/png", .string ""), ("text/plain", .string "\n")],
        .inputRequest 18446744073709551615 "c\n" "é", .executeCompleted "" "\t" "\x1f",
        .error (some "\n") "e" "\n\n" ""])
    ∧ Request.decode (Request.resume 7 "\n").encode.text = .ok (.resume 7 "\n")
    ∧ CellResult.recordType.read.read (CellResult.success (some []) "\"" "\n").encode.text
      = .ok (.success (some []) "\"" "\n") := by
  have hbundle : Bundle.IsText [("image/png", .string ""), ("text/plain", .string "\n")] :=
    ⟨by decide, by simp⟩
  have hword : 7 < wordLimit := by decide
  refine ⟨wire_roundTrip.1 _ ?_, wire_roundTrip.2.1 _ hword, wire_roundTrip.2.2 _ ⟨.nil, by simp⟩⟩
  simp only [List.forall_mem_cons, Message.Sendable]
  exact ⟨trivial, trivial, hbundle, by decide, trivial, trivial, by simp⟩

end NoteCell
