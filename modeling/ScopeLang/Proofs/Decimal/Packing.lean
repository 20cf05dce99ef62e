import ScopeLang.Proofs.Decimal.Rounding

/-!
# The bits of a double

The sign, the exponent and the mantissa of a double are packed into one word of bits. What the parts
of the word are read as is what was packed, so a finite double is known by its mantissa and
exponent.

## Main definitions

* `scaleOf` — the exponent as it is stored.

## Main statements

* `unpack_pack_finite` — unpacking undoes packing.
* `eq_ofModel_pack` — a finite double is what is packed of its mantissa and exponent.
-/

namespace ScopeLang.Decimal

open Float.Model (Format UnpackedFloat totalExponent)
open Float.Model.UnpackedFloat

/-! ### Bits as numbers -/

theorem toNat_packComponents (E : BitVec 11) (M : BitVec 52) :
    (packComponents .binary64 .positive E M).toNat = E.toNat * 2 ^ 52 + M.toNat := by
  have hM : M.toNat < 2 ^ 52 := M.isLt
  simp only [packComponents, Sign.toBitVec]
  rw [BitVec.toNat_append, BitVec.toNat_append, ← Nat.shiftLeft_add_eq_or_of_lt hM]
  simp [Nat.shiftLeft_eq]

theorem fraction_eq (b : UInt64) : (b &&& 0xFFFFFFFFFFFFF).toNat = b.toNat % 2 ^ 52 := by
  rw [UInt64.toNat_and]
  exact Nat.and_two_pow_sub_one_eq_mod b.toNat 52

theorem scale_eq (b : UInt64) : (b >>> 52 &&& 0x7FF).toNat = b.toNat / 2 ^ 52 % 2 ^ 11 := by
  rw [UInt64.toNat_and, UInt64.toNat_shiftRight, Nat.shiftRight_eq_div_pow]
  exact Nat.and_two_pow_sub_one_eq_mod _ 11

theorem isNegative_eq (x : Float) : isNegative x = decide (2 ^ 63 ≤ x.toBits.toNat) := by
  have hlt := x.toBits.toNat_lt
  have sign : (x.toBits >>> 63).toNat = x.toBits.toNat / 2 ^ 63 := by
    rw [UInt64.toNat_shiftRight, Nat.shiftRight_eq_div_pow]
    rfl
  rw [isNegative, Bool.eq_iff_iff, beq_iff_eq, decide_eq_true_iff, ← UInt64.toNat_inj, sign]
  simp
  omega

theorem magnitude_eq {x : Float} {scale fraction : Nat} (hs : scale < 2 ^ 11)
    (hf : fraction < 2 ^ 52) (h : x.toBits.toNat = scale * 2 ^ 52 + fraction) :
      magnitude x = if scale = 2047 then if fraction = 0 then .infinite else .undefined
        else if scale = 0 then .finite fraction minExponent
        else .finite (2 ^ 52 + fraction) (scale - 1 + minExponent) := by
  have hfraction : (scale * 2 ^ 52 + fraction) % 2 ^ 52 = fraction := by omega
  have hscale : (scale * 2 ^ 52 + fraction) / 2 ^ 52 % 2 ^ 11 = scale := by omega
  simp only [magnitude, fraction_eq, scale_eq, h, hfraction, hscale]
  rfl

theorem exists_scale_fraction {x : Float} (h : isNegative x = false) :
    ∃ scale fraction, scale < 2 ^ 11 ∧ fraction < 2 ^ 52 ∧
      x.toBits.toNat = scale * 2 ^ 52 + fraction := by
  rw [isNegative_eq, decide_eq_false_iff_not] at h
  exact ⟨x.toBits.toNat / 2 ^ 52, x.toBits.toNat % 2 ^ 52, by omega, by omega, by omega⟩

/-! ### Packing -/

/-- The exponent as it is stored: none for a double without the hidden bit. -/
def scaleOf (m : Nat) (e : Int) : Nat := if 2 ^ 52 ≤ m then (e - minExponent + 1).toNat else 0

variable {m : Nat} {e : Int}

theorem scaleOf_lt (he : e ≤ 971) : scaleOf m e < 2047 := by
  rw [scaleOf]
  split
  · simp only [minExponent]
    omega
  · decide

theorem pack_finite (stored : Stored m e) (he : e ≤ 971) (s : Sign) (hm : 0 < m) :
    pack .binary64 (.finite s m e hm) =
      packComponents .binary64 s (BitVec.ofNat 11 (scaleOf m e)) (BitVec.ofNat 52 m) := by
  have hle : -1074 ≤ e := stored.le
  have bias : Format.binary64.exponentBias = 1023 := rfl
  have finite : ¬ 2 ^ 11 ≤ (e + (1023 : Nat) + (52 : Nat)).toNat + 1 := by omega
  have log : m.log2 + 1 = Format.binary64.mantissaBits ↔ 2 ^ 52 ≤ m := by
    have bits : Format.binary64.mantissaBits = 53 := rfl
    have lower := Nat.le_log2 (k := 52) hm.ne'
    have upper := (Nat.log2_lt hm.ne').2 stored.lt
    rw [bits, ← lower]
    omega
  rw [pack]
  simp only [bias, if_neg finite, log, scaleOf]
  split
  · congr 2
    simp only [minExponent]
    omega
  · rfl

theorem toNat_append_one (M : BitVec 52) : (1#1 ++ M).toNat = 2 ^ 52 + M.toNat := by
  rw [BitVec.toNat_append, ← Nat.shiftLeft_add_eq_or_of_lt M.isLt]
  rfl

theorem unpack_pack_finite (stored : Stored m e) (he : e ≤ 971) (s : Sign) (hm : 0 < m) :
    unpack .binary64 (pack .binary64 (.finite s m e hm)) = .finite s m e hm := by
  have hle : -1074 ≤ e := stored.le
  have hlt := stored.lt
  have bias : Format.binary64.exponentBias = 1023 := rfl
  have scale : (BitVec.ofNat 11 (scaleOf m e)).toNat = scaleOf m e :=
    Nat.mod_eq_of_lt ((scaleOf_lt he).trans (by decide))
  have finite : BitVec.ofNat 11 (scaleOf m e) ≠ -1#11 := fun h => by
    have := congrArg BitVec.toNat h
    rw [scale] at this
    exact absurd this (scaleOf_lt he).ne
  rw [pack_finite stored he, unpack]
  simp only [unpackMantissa_packComponents, unpackExponent_packComponents,
    unpackSign_packComponents, Sign.ofBitVec_toBitVec, if_neg finite, bias]
  by_cases normal : 2 ^ 52 ≤ m
  · have hscale : scaleOf m e = (e - minExponent + 1).toNat := if_pos normal
    have nonzero : BitVec.ofNat 11 (scaleOf m e) ≠ 0#11 := fun h => by
      have := congrArg BitVec.toNat h
      rw [scale, hscale] at this
      simp [minExponent] at this
      omega
    have digits : (1#1 ++ BitVec.ofNat 52 m).toNat = m := by
      rw [toNat_append_one, BitVec.toNat_ofNat]
      omega
    have exponent : (scaleOf m e : Int) - 1075 = e := by
      rw [hscale]
      simp only [minExponent]
      omega
    simp [nonzero, digits, scale, exponent]
  · have hscale : scaleOf m e = 0 := if_neg normal
    have digits : (BitVec.ofNat 52 m).toNat = m := by
      rw [BitVec.toNat_ofNat]
      omega
    have nonzero : BitVec.ofNat 52 m ≠ 0#52 := fun h => by
      have := congrArg BitVec.toNat h
      rw [digits] at this
      exact hm.ne' this
    have least : e = -1074 := by
      by_contra hne
      exact normal (stored.normal (by simp only [minExponent]; omega))
    rw [hscale]
    simp [nonzero, digits, least]

/-- A finite double is what is packed of its mantissa and exponent. -/
theorem eq_ofModel_pack {x : Float} (hx : isNegative x = false) (h : magnitude x = .finite m e) :
    Stored m e ∧ e ≤ 971 ∧ ∀ hm : 0 < m, x = .ofModel (.pack (.finite .positive m e hm)) := by
  obtain ⟨scale, fraction, hscale, hfraction, hbits⟩ := exists_scale_fraction hx
  rw [magnitude_eq hscale hfraction hbits] at h
  have stored : Stored m e ∧ e ≤ 971 ∧ scale = scaleOf m e ∧ fraction = m % 2 ^ 52 := by
    split at h
    · split at h <;> cases h
    · split at h
      · cases h
        refine ⟨⟨by omega, le_rfl, fun hlt => absurd hlt (lt_irrefl _)⟩, by simp [minExponent], ?_,
          by omega⟩
        rw [scaleOf, if_neg (by omega)]
        assumption
      · cases h
        refine ⟨⟨by omega, ?_, by omega⟩, ?_, ?_, by omega⟩
        · omega
        · simp only [minExponent]
          omega
        · rw [scaleOf, if_pos (by omega)]
          omega
  obtain ⟨stored, he, rfl, rfl⟩ := stored
  refine ⟨stored, he, fun hm => Float.toBits_inj.1 ?_⟩
  have packed : (Float.ofModel (.pack (.finite .positive m e hm))).toBits.toNat =
      (pack .binary64 (.finite .positive m e hm)).toNat := rfl
  rw [← UInt64.toNat_inj, hbits, packed, pack_finite stored he, toNat_packComponents,
    BitVec.toNat_ofNat, BitVec.toNat_ofNat, Nat.mod_eq_of_lt hscale]

theorem toBits_eq_zero {x : Float} (hx : isNegative x = false) (h : magnitude x = .finite 0 e) :
    x.toBits = 0 := by
  obtain ⟨scale, fraction, hscale, hfraction, hbits⟩ := exists_scale_fraction hx
  rw [magnitude_eq hscale hfraction hbits] at h
  have zero : scale = 0 ∧ fraction = 0 := by
    split at h
    · split at h <;> cases h
    · split at h
      · cases h
        exact ⟨‹_›, rfl⟩
      · rw [Magnitude.finite.injEq] at h
        omega
  rw [← UInt64.toNat_inj, hbits, zero.1, zero.2]
  rfl

end ScopeLang.Decimal
