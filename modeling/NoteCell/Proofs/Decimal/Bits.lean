import Mathlib
import NoteCell.Decimal.Reading
import NoteCell.Decimal.Shortest

/-!
Doubles and their bits. A double is made of its bits again, and the bits of the doubles from zero up
to infinity count them in their order.
-/
namespace NoteCell.Double

open Float.Model Float.Model.UnpackedFloat

/-! ### Packing -/

section

abbrev Bits := BitVec Format.binary64.numBits

variable (b : Bits) (s : Float.Model.UnpackedFloat.Sign)
  {e : BitVec Format.binary64.exponentBits} {m : BitVec Format.binary64.mantissaBitsWithoutImplicit}

theorem toNat_unpackMantissa : (unpackMantissa b).toNat = b.toNat % 2 ^ 52 := by
  simp [unpackMantissa]

theorem toNat_unpackExponent : (unpackExponent b).toNat = b.toNat / 2 ^ 52 % 2 ^ 11 := by
  simp [unpackExponent, Nat.shiftRight_eq_div_pow]

theorem toNat_unpackSign : (unpackSign b).toNat = b.toNat / 2 ^ 63 % 2 := by
  simp [unpackSign, Nat.shiftRight_eq_div_pow]

theorem toNat_packComponents : (packComponents .binary64 s e m).toNat
    = s.toBitVec.toNat * 2 ^ 63 + e.toNat * 2 ^ 52 + m.toNat := by
  unfold packComponents
  rw [BitVec.toNat_append, BitVec.toNat_append, ← Nat.shiftLeft_add_eq_or_of_lt e.isLt,
    ← Nat.shiftLeft_add_eq_or_of_lt m.isLt, Nat.shiftLeft_eq, Nat.shiftLeft_eq]
  change (_ * 2 ^ 11 + _) * 2 ^ 52 + _ = _
  omega

theorem toBitVec_ofBitVec (sign : BitVec 1) : (Sign.ofBitVec sign).toBitVec = sign := by
  revert sign
  decide

theorem packComponents_unpack : packComponents .binary64 (Sign.ofBitVec (unpackSign b))
    (unpackExponent b) (unpackMantissa b) = b := by
  apply BitVec.eq_of_toNat_eq
  rw [toNat_packComponents, toBitVec_ofBitVec, toNat_unpackMantissa, toNat_unpackExponent,
    toNat_unpackSign]
  have : b.toNat < 2 ^ 64 := b.isLt
  omega

theorem pack_subnormal (h : 0 < m.toNat) {exponent : Int} (he : exponent = -1074) :
    UnpackedFloat.pack .binary64 (.finite s m.toNat exponent h)
      = packComponents .binary64 s 0 m := by
  have hm : m.toNat < 2 ^ 52 := m.isLt
  have hlog : m.toNat.log2 < 52 := (Nat.log2_lt (by omega)).mpr hm
  have hbiased : (exponent + Format.binary64.exponentBias
      + Format.binary64.mantissaBitsWithoutImplicit).toNat = 1 := by
    rw [he]
    decide
  have hbits : Format.binary64.mantissaBits = 53 := by decide
  rw [UnpackedFloat.pack]
  simp only [hbiased, hbits]
  rw [if_neg (by decide), if_neg (by omega), BitVec.ofNat_toNat, BitVec.setWidth_eq]
  rfl

-- A normal double drops the leading bit of its mantissa.
theorem pack_normal (h : 0 < (1#1 ++ m).toNat) (hlt : e.toNat < 2047) {exponent : Int}
    (he : exponent = e.toNat - 1075) :
    UnpackedFloat.pack .binary64 (.finite s (1#1 ++ m).toNat exponent h)
      = packComponents .binary64 s e m := by
  have hm : m.toNat < 2 ^ 52 := m.isLt
  have happend : (1#1 ++ m).toNat = 2 ^ 52 + m.toNat := by
    rw [BitVec.toNat_append, ← Nat.shiftLeft_add_eq_or_of_lt m.isLt]
    rfl
  have hlog : (1#1 ++ m).toNat.log2 = 52 := by
    rw [Nat.log2_eq_iff (by omega)]
    omega
  have hbiased : (exponent + Format.binary64.exponentBias
      + Format.binary64.mantissaBitsWithoutImplicit).toNat = e.toNat := by
    change (exponent + (1023 : Nat) + (52 : Nat)).toNat = _
    omega
  have hbits : Format.binary64.mantissaBits = 53 := by decide
  have hmax : 2 ^ Format.binary64.exponentBits = 2048 := rfl
  have hdrop : BitVec.ofNat Format.binary64.mantissaBitsWithoutImplicit (1#1 ++ m).toNat = m := by
    apply BitVec.eq_of_toNat_eq
    rw [BitVec.toNat_ofNat, happend]
    change (2 ^ 52 + m.toNat) % 2 ^ 52 = _
    omega
  rw [UnpackedFloat.pack]
  simp only [hbiased, hbits, hlog, hmax]
  rw [if_neg (by omega), if_pos trivial, hdrop, BitVec.ofNat_toNat, BitVec.setWidth_eq]

theorem pack_unpack {b : Bits} (h : Format.binary64.Valid b) :
    UnpackedFloat.pack .binary64 (UnpackedFloat.unpack .binary64 b) = b := by
  have hparts := packComponents_unpack b
  rw [UnpackedFloat.unpack]
  split
  case isTrue he =>
    split
    case isTrue hm => rw [he, hm] at hparts; exact hparts
    case isFalse hm => exact (h.eq_packedNaN he hm).symm
  case isFalse he =>
    split
    case isTrue hzero =>
      split
      case isTrue hm => rw [hzero, hm] at hparts; exact hparts
      case isFalse hm =>
        rw [hzero] at hparts ⊢
        exact (pack_subnormal _ _ rfl).trans hparts
    case isFalse =>
      have hlt : (unpackExponent b).toNat < 2047 := by
        have hne : (unpackExponent b).toNat ≠ 2047 := fun h => he (BitVec.eq_of_toNat_eq h)
        have : (unpackExponent b).toNat < 2048 := (unpackExponent b).isLt
        omega
      exact (pack_normal _ _ hlt rfl).trans hparts

end

/-! ### Doubles -/

theorem ofBits_toBits (x : Float) : Float.ofBits x.toBits = x := by
  obtain ⟨⟨bits, hvalid⟩⟩ := x
  change Float.ofModel (Float.Model.ofBits bits) = _
  congr 1
  unfold Float.Model.ofBits Float.Model.pack
  congr 1
  rw [pack_unpack hvalid]

-- A double from zero up to infinity.
def IsMagnitude (x : Float) : Prop := x.toBits.toNat ≤ Decimal.infinityBits

-- No magnitude has the bits of a not-a-number.
theorem mantissa_eq_zero {b : Bits} (hb : b.toNat ≤ 2047 * 2 ^ 52)
    (he : unpackExponent b = -1#_) : b.toNat = 2047 * 2 ^ 52 ∧ unpackMantissa b = 0#_ := by
  have hexponent : b.toNat / 2 ^ 52 % 2 ^ 11 = 2047 := by
    rw [← toNat_unpackExponent, he]
    rfl
  have heq : b.toNat = 2047 * 2 ^ 52 := by omega
  refine ⟨heq, BitVec.eq_of_toNat_eq ?_⟩
  rw [toNat_unpackMantissa, heq]
  rfl

theorem toNat_toBits {n : Nat} (h : n ≤ Decimal.infinityBits) :
    (Float.ofBits (UInt64.ofNat n)).toBits.toNat = n := by
  have hn : n ≤ 2047 * 2 ^ 52 := h
  have hb : (UInt64.ofNat n).toBitVec.toNat = n := by
    rw [UInt64.toNat_toBitVec, UInt64.toNat_ofNat_of_lt' (Nat.lt_of_le_of_lt hn (by decide))]
  have hvalid : Format.binary64.Valid (UInt64.ofNat n).toBitVec :=
    ⟨fun he hm => absurd (mantissa_eq_zero (hb.symm ▸ hn) he).2 hm⟩
  change (UnpackedFloat.pack .binary64
    (UnpackedFloat.unpack .binary64 (UInt64.ofNat n).toBitVec)).toNat = n
  rw [pack_unpack hvalid, hb]

section

variable {x : Float} (h : IsMagnitude x)

include h

theorem IsMagnitude.not_isNaN : x.isNaN = false := by
  change (UnpackedFloat.unpack .binary64 x.toBits.toBitVec).isNaN = false
  rw [UnpackedFloat.unpack]
  split
  case isTrue he =>
    rw [if_pos (mantissa_eq_zero h he).2]
    rfl
  case isFalse =>
    split
    case isTrue => split <;> rfl
    case isFalse => rfl

theorem IsMagnitude.isInf_iff : x.isInf ↔ x.toBits.toNat = Decimal.infinityBits := by
  change (UnpackedFloat.unpack .binary64 x.toBits.toBitVec).isInf = true ↔ _
  rw [UnpackedFloat.unpack]
  split
  case isTrue he =>
    have ⟨hbits, hm⟩ := mantissa_eq_zero h he
    rw [if_pos hm]
    exact ⟨fun _ => hbits, fun _ => rfl⟩
  case isFalse he =>
    have hne : x.toBits.toNat ≠ Decimal.infinityBits := by
      refine fun hbits => he (BitVec.eq_of_toNat_eq ?_)
      rw [toNat_unpackExponent, UInt64.toNat_toBitVec, hbits]
      rfl
    refine ⟨fun hinf => ?_, fun hbits => absurd hbits hne⟩
    split at hinf
    case isTrue => split at hinf <;> cases hinf
    case isFalse => cases hinf

theorem IsMagnitude.not_isNegative : isNegative x = false := by
  have : x.toBits.toNat ≤ 2047 * 2 ^ 52 := h
  rw [isNegative, decide_eq_false_iff_not]
  change ¬ 2 ^ 63 ≤ _
  omega

end

-- A finite double from zero on: so many units of the least double above zero, `2 ^ scale` at a
-- time. The leading bit of a mantissa stands unless there is nothing to scale.
structure Finite (x : Float) (m scale : Nat) : Prop where
  bits : x.toBits.toNat = scale * 2 ^ 52 + m
  mantissa : m < 2 ^ 53
  normal : 0 < scale → 2 ^ 52 ≤ m
  scale : scale < 2046

theorem IsMagnitude.finite {x : Float} (h : IsMagnitude x)
    (hfinite : x.toBits.toNat ≠ Decimal.infinityBits) :
    ∃ m scale, Finite x m scale ∧ Dyadic.ofFloat? x = some ⟨false, m, scale - 1074⟩ := by
  have hle : x.toBits.toNat ≤ 2047 * 2 ^ 52 := h
  have hne : x.toBits.toNat ≠ 2047 * 2 ^ 52 := hfinite
  have hnegative : decide (Nat.pow 2 63 ≤ x.toBits.toNat) = false := h.not_isNegative
  rw [Dyadic.ofFloat?]
  simp only [hnegative]
  change ∃ m scale, _ ∧ (if x.toBits.toNat / 2 ^ 52 % 2 ^ 11 = 2047 then _ else
    if x.toBits.toNat / 2 ^ 52 % 2 ^ 11 = 0 then some (Dyadic.mk _ (x.toBits.toNat % 2 ^ 52) _)
    else some ⟨_, x.toBits.toNat % 2 ^ 52 + 2 ^ 52, (x.toBits.toNat / 2 ^ 52 % 2 ^ 11 : Nat) - 1075⟩) = _
  rw [if_neg (by omega)]
  split
  case isTrue hzero =>
    exact ⟨x.toBits.toNat % 2 ^ 52, 0, ⟨by omega, by omega, by omega, by omega⟩, rfl⟩
  case isFalse hpos =>
    refine ⟨x.toBits.toNat % 2 ^ 52 + 2 ^ 52, x.toBits.toNat / 2 ^ 52 - 1,
      ⟨by omega, by omega, by omega, by omega⟩, ?_⟩
    congr 2
    omega

end NoteCell.Double
