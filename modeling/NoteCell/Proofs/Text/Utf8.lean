import Mathlib
import NoteCell.Text.Utf8

/-!
The bytes of a text are decoded to the text.
-/
namespace NoteCell.Utf8

variable {v index taken least most code missing : Nat} {b : UInt8} {more : List UInt8}

-- The byte of a number that has eight bits.
theorem toNat_byte {n : Nat} (hn : n < 256) : (UInt8.ofNat n).toNat = n := by
  rw [UInt8.toNat_ofNat']
  exact Nat.mod_eq_of_lt hn

theorem tail_cons (hleast : least ≤ b.toNat) (hmost : b.toNat ≤ most) :
    tail index taken least most code (missing + 1) (b :: more)
      = tail index (taken + 1) 0x80 0xbf (code * 64 + b.toNat % 64) missing more := by
  rw [tail, if_pos ⟨hleast, hmost⟩]

-- A byte that follows the second one holds six bits.
theorem tail_last (v : Nat) :
    tail index taken 0x80 0xbf code (missing + 1) (UInt8.ofNat (v % 64 + 128) :: more)
      = tail index (taken + 1) 0x80 0xbf (code * 64 + v % 64) missing more := by
  have hbyte : (UInt8.ofNat (v % 64 + 128)).toNat = v % 64 + 128 := toNat_byte (by omega)
  rw [tail_cons (by omega) (by omega), hbyte]
  congr 1
  omega

theorem first_one (hv : v ≤ 0x7f) : first index (UInt8.ofNat v) more = .ok (v, more) := by
  rw [first, toNat_byte (by omega), head?, if_pos hv]
  rfl

theorem first_two (hleast : 0x7f < v) (hmost : v ≤ 0x7ff) :
    first index (UInt8.ofNat (v / 64 % 32 + 192)) (UInt8.ofNat (v % 64 + 128) :: more)
      = .ok (v, more) := by
  rw [first, toNat_byte (by omega), head?, if_neg (by omega), if_pos (by omega)]
  dsimp only
  rw [tail_last, tail]
  congr 2
  omega

-- The first of three bytes rules out what two bytes hold, and surrogates.
theorem head?_three {n : Nat} (hn : n < 16) : head? (n + 224)
    = some (2, if n = 0 then 0xa0 else 0x80, if n = 13 then 0x9f else 0xbf, n) := by
  have hall : ∀ n < 16, head? (n + 224)
      = some (2, if n = 0 then 0xa0 else 0x80, if n = 13 then 0x9f else 0xbf, n) := by decide
  exact hall n hn

-- The first of four bytes rules out what three bytes hold, and what is no character.
theorem head?_four {n : Nat} (hn : n < 5) : head? (n + 240)
    = some (3, if n = 0 then 0x90 else 0x80, if n = 4 then 0x8f else 0xbf, n) := by
  have hall : ∀ n < 5, head? (n + 240)
      = some (3, if n = 0 then 0x90 else 0x80, if n = 4 then 0x8f else 0xbf, n) := by decide
  exact hall n hn

theorem first_three (hleast : 0x7ff < v) (hmost : v ≤ 0xffff) (hvalid : v < 0xd800 ∨ 0xdfff < v) :
    first index (UInt8.ofNat (v / 4096 % 16 + 224)) (UInt8.ofNat (v / 64 % 64 + 128)
      :: UInt8.ofNat (v % 64 + 128) :: more) = .ok (v, more) := by
  have hsecond : (UInt8.ofNat (v / 64 % 64 + 128)).toNat = v / 64 % 64 + 128 := toNat_byte (by omega)
  have hbits : (v / 4096 % 16 * 64 + (v / 64 % 64 + 128) % 64) * 64 + v % 64 = v := by omega
  rw [first, toNat_byte (by omega), head?_three (by omega)]
  dsimp only
  rw [tail_cons (by split <;> omega) (by split <;> omega), tail_last, tail, hsecond, hbits]

theorem first_four (hleast : 0xffff < v) (hmost : v ≤ 0x10ffff) :
    first index (UInt8.ofNat (v / 262144 % 8 + 240)) (UInt8.ofNat (v / 4096 % 64 + 128)
      :: UInt8.ofNat (v / 64 % 64 + 128) :: UInt8.ofNat (v % 64 + 128) :: more) = .ok (v, more) := by
  have hsecond : (UInt8.ofNat (v / 4096 % 64 + 128)).toNat = v / 4096 % 64 + 128 :=
    toNat_byte (by omega)
  have hbits : ((v / 262144 % 8 * 64 + (v / 4096 % 64 + 128) % 64) * 64 + v / 64 % 64) * 64 + v % 64
      = v := by omega
  rw [first, toNat_byte (by omega), head?_four (by omega)]
  dsimp only
  rw [tail_cons (by split <;> omega) (by split <;> omega), tail_last, tail_last, tail, hsecond,
    hbits]

theorem first_encode (index : Nat) (c : Char) (more : List UInt8) :
    ∃ b bytes, String.utf8EncodeChar c ++ more = b :: bytes
      ∧ first index b bytes = .ok (c.toNat, more) := by
  have hvalid : c.toNat < 0xd800 ∨ 0xdfff < c.toNat ∧ c.toNat < 0x110000 := c.valid
  have hencode := String.utf8EncodeChar.eq_1 c
  rw [show c.val.toNat = c.toNat from rfl] at hencode
  generalize c.toNat = v at hvalid hencode ⊢
  rw [hencode]
  split
  case isTrue hone => exact ⟨_, _, rfl, first_one hone⟩
  split
  case isTrue hone htwo => exact ⟨_, _, rfl, first_two (by omega) htwo⟩
  split
  case isTrue hone htwo hthree => exact ⟨_, _, rfl, first_three (by omega) hthree (by omega)⟩
  case isFalse hthree => exact ⟨_, _, rfl, first_four (by omega) (by omega)⟩

theorem decodeFrom_encode (index : Nat) (cs : List Char) :
    decodeFrom index (cs.flatMap String.utf8EncodeChar) = .ok cs := by
  induction cs generalizing index
  case nil => rw [List.flatMap_nil, decodeFrom]
  case cons c cs ih =>
    obtain ⟨b, bytes, hbytes, hfirst⟩ := first_encode index c (cs.flatMap String.utf8EncodeChar)
    rw [List.flatMap_cons, hbytes, decodeFrom]
    split
    case h_1 h => simp [h] at hfirst
    case h_2 h =>
      cases h.symm.trans hfirst
      rw [ih, Char.ofNat_toNat]
      rfl

theorem toList_toUTF8 (s : String) :
    s.toUTF8.data.toList = s.toList.flatMap String.utf8EncodeChar := by
  rw [String.toUTF8_eq_toByteArray, ← String.utf8Encode_toList, List.utf8Encode]
  simp

theorem decode_toUTF8 (s : String) : decode s.toUTF8.data.toList = .ok s.toList := by
  rw [toList_toUTF8]
  exact decodeFrom_encode 0 s.toList

-- A byte of seven bits stands for itself wherever it occurs.
theorem toNat_of_mem_encode {c : Char} (hb : b ∈ String.utf8EncodeChar c) (hseven : b.toNat < 0x80) :
    c.toNat = b.toNat := by
  have hvalid : c.toNat < 0xd800 ∨ 0xdfff < c.toNat ∧ c.toNat < 0x110000 := c.valid
  rw [String.utf8EncodeChar.eq_1, show c.val.toNat = c.toNat from rfl] at hb
  generalize c.toNat = v at hvalid hb ⊢
  have hbyte {n : Nat} (hleast : 0x80 ≤ n) (hmost : n < 256) : b ≠ UInt8.ofNat n := by
    rintro rfl
    rw [toNat_byte hmost] at hseven
    omega
  split at hb
  case isTrue hone =>
    rw [List.mem_singleton.mp hb, toNat_byte (by omega)]
  split at hb
  case isTrue =>
    simp only [List.mem_cons, List.not_mem_nil, or_false] at hb
    obtain hb | hb := hb <;> exact (hbyte (by omega) (by omega) hb).elim
  split at hb
  case isTrue =>
    simp only [List.mem_cons, List.not_mem_nil, or_false] at hb
    obtain hb | hb | hb := hb <;> exact (hbyte (by omega) (by omega) hb).elim
  case isFalse =>
    simp only [List.mem_cons, List.not_mem_nil, or_false] at hb
    obtain hb | hb | hb | hb := hb <;> exact (hbyte (by omega) (by omega) hb).elim

end NoteCell.Utf8
