/-!
UTF-8. Bytes are decoded from the left and refused at the first that rules a character out; what the
text ends in the middle of is told apart from what no character starts with.
-/
namespace NoteCell

inductive Utf8Fault where
  | invalid (index count : Nat)
  | incomplete (index : Nat)
deriving DecidableEq, Repr

def Utf8Fault.message : Utf8Fault → String
  | invalid index count => s!"invalid utf-8 sequence of {count} bytes from index {index}"
  | incomplete index => s!"incomplete utf-8 byte sequence from index {index}"

namespace Utf8

-- How many bytes follow a first byte, the range of the one after it, and the bits it gives.
def head? (b : Nat) : Option (Nat × Nat × Nat × Nat) :=
  if b ≤ 0x7f then some (0, 0x80, 0xbf, b)
  else if 0xc2 ≤ b ∧ b ≤ 0xdf then some (1, 0x80, 0xbf, b - 0xc0)
  else if b = 0xe0 then some (2, 0xa0, 0xbf, 0)
  else if b = 0xed then some (2, 0x80, 0x9f, 0xd)
  else if 0xe1 ≤ b ∧ b ≤ 0xef then some (2, 0x80, 0xbf, b - 0xe0)
  else if b = 0xf0 then some (3, 0x90, 0xbf, 0)
  else if b = 0xf4 then some (3, 0x80, 0x8f, 4)
  else if 0xf1 ≤ b ∧ b ≤ 0xf3 then some (3, 0x80, 0xbf, b - 0xf0)
  else none

-- Reads the bytes that follow the first one, of which `taken` bytes of the character are known.
def tail (index taken least most code : Nat) :
    Nat → List UInt8 → Except Utf8Fault (Nat × List UInt8)
  | 0, rest => .ok (code, rest)
  | _ + 1, [] => .error (.incomplete index)
  | missing + 1, b :: rest =>
    if least ≤ b.toNat ∧ b.toNat ≤ most then
      tail index (taken + 1) 0x80 0xbf (code * 64 + b.toNat % 64) missing rest
    else .error (.invalid index taken)

def first (index : Nat) (b : UInt8) (rest : List UInt8) : Except Utf8Fault (Nat × List UInt8) :=
  match head? b.toNat with
  | none => .error (.invalid index 1)
  | some (missing, least, most, code) => tail index 1 least most code missing rest

theorem length_of_tail {index taken least most code missing : Nat} {bytes rest : List UInt8}
    {c : Nat} (h : tail index taken least most code missing bytes = .ok (c, rest)) :
    rest.length ≤ bytes.length := by
  induction missing generalizing taken least most code bytes with
  | zero =>
    simp only [tail, Except.ok.injEq, Prod.mk.injEq] at h
    simp [h.2]
  | succ n ih =>
    match bytes with
    | [] => simp [tail] at h
    | b :: bs =>
      simp only [tail] at h
      split at h
      · have := ih h
        simp only [List.length_cons]
        omega
      · simp at h

theorem length_of_first {index : Nat} {b : UInt8} {bytes rest : List UInt8} {c : Nat}
    (h : first index b bytes = .ok (c, rest)) : rest.length ≤ bytes.length := by
  simp only [first] at h
  split at h
  · simp at h
  · exact length_of_tail h

-- The characters of a row of bytes that starts at `index`.
def decodeFrom (index : Nat) : List UInt8 → Except Utf8Fault (List Char)
  | [] => .ok []
  | b :: bytes =>
    match _eq : first index b bytes with
    | .error e => .error e
    | .ok (code, rest) => do
      return Char.ofNat code :: (← decodeFrom (index + 1 + (bytes.length - rest.length)) rest)
termination_by bytes => bytes.length
decreasing_by
  have := length_of_first _eq
  simp only [List.length_cons]
  omega

def decode (bytes : List UInt8) : Except Utf8Fault (List Char) := decodeFrom 0 bytes

end Utf8
end NoteCell
