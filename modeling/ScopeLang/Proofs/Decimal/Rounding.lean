import Mathlib
import ScopeLang.Decimal.Shortest

/-!
# Rounding to doubles

A fraction is brought to the digits of a mantissa, with two residual bits for what is cut off, and
the bits decide how the mantissa is rounded. So a fraction is rounded to the double in whose
interval it lies: the interval reaches half way to the next doubles, and its ends belong to it if
the mantissa is even.

## Main definitions

* `Truncates` — the whole part of a fraction with its residual bits.
* `Stored`, `Scaled` — the mantissas of doubles, and the fractions with as many digits.
* `RoundsTo` — the interval of a double.

## Main statements

* `Truncates.roundedMantissa_eq` — the residual bits decide as the fraction would.
* `roundWithAccuracy_eq` — a fraction is rounded to the double in whose interval it lies.
-/

namespace ScopeLang.Decimal

open Float.Model (Format UnpackedFloat totalExponent)
open Float.Model.UnpackedFloat

/-- The mantissa is the whole part of the fraction `a / b`, and the residual bits tell its rest. -/
structure Truncates (em : ExtendedMantissa) (a b : Nat) : Prop where
  mantissa : em.mantissa = a / b
  roundBit : em.roundBit = decide (b ≤ 2 * (a % b))
  stickyBit : em.stickyBit = decide (2 * (a % b) ≠ 0 ∧ 2 * (a % b) ≠ b)

namespace Truncates

variable {em : ExtendedMantissa} {a b : Nat}

theorem ofFraction (a : Nat) (hb : 0 < b) :
    Truncates (.ofMantissaAndAccuracy (a / b) (accuracyOfFraction (a % b) b)) a b := by
  unfold accuracyOfFraction
  split
  · rename_i h
    refine ⟨rfl, ?_, ?_⟩ <;> simp [ExtendedMantissa.ofMantissaAndAccuracy, h]
    omega
  · rename_i h
    have hr := Nat.mod_lt a hb
    rcases hc : compare (2 * (a % b)) b with _ | _ | _
    · rw [Nat.compare_eq_lt] at hc
      refine ⟨rfl, ?_, ?_⟩ <;> simp [ExtendedMantissa.ofMantissaAndAccuracy] <;> omega
    · rw [Nat.compare_eq_eq] at hc
      refine ⟨rfl, ?_, ?_⟩ <;> simp [ExtendedMantissa.ofMantissaAndAccuracy] <;> omega
    · rw [Nat.compare_eq_gt] at hc
      refine ⟨rfl, ?_, ?_⟩ <;> simp [ExtendedMantissa.ofMantissaAndAccuracy] <;> omega

theorem shiftRightOne (h : Truncates em a b) (hb : 0 < b) :
    Truncates em.shiftRightOne a (b * 2) := by
  have rest : a % (b * 2) = a % b + b * (a / b % 2) := Nat.mod_mul
  have hr := Nat.mod_lt a hb
  refine ⟨?_, ?_, ?_⟩
  · rw [ExtendedMantissa.shiftRightOne, h.mantissa, Nat.div_div_eq_div_mul]
  · rw [ExtendedMantissa.shiftRightOne, h.mantissa, rest]
    rcases Nat.mod_two_eq_zero_or_one (a / b) with h2 | h2 <;> simp [h2] <;> omega
  · simp only [ExtendedMantissa.shiftRightOne, h.roundBit, h.stickyBit, rest]
    rcases Nat.mod_two_eq_zero_or_one (a / b) with h2 | h2 <;> rw [h2] <;>
      rw [Bool.eq_iff_iff] <;> simp only [Bool.or_eq_true, decide_eq_true_eq] <;> omega

theorem shiftRight (h : Truncates em a b) (hb : 0 < b) (n : Nat) :
    Truncates (em >>> n) a (b * 2 ^ n) := by
  induction n with
  | zero =>
    rw [Nat.pow_zero, Nat.mul_one]
    exact h
  | succ n ih =>
    rw [Nat.pow_succ, ← Nat.mul_assoc]
    exact ih.shiftRightOne (by positivity)

/-- Whole numbers no further than a half from `w + r / b`. -/
theorem eq_or_eq_succ_of_half {w r b m : Nat} (hr : r < b) (low : 2 * (m * b) ≤ 2 * (w * b + r) + b)
    (high : 2 * (w * b + r) ≤ 2 * (m * b) + b) : w = m ∨ m = w + 1 := by
  rcases Nat.lt_trichotomy m w with hm | hm | hm
  · have := Nat.mul_le_mul_right b (Nat.succ_le_of_lt hm)
    rw [Nat.succ_mul] at this
    omega
  · exact .inl hm.symm
  · refine .inr (Nat.le_antisymm (Nat.le_of_not_lt fun hm' => ?_) hm)
    have := Nat.mul_le_mul_right b (Nat.succ_le_of_lt hm')
    rw [Nat.succ_mul, Nat.succ_mul] at this
    omega

/-- The mantissa is rounded to the nearest whole number, a tie going to the even one. -/
theorem roundedMantissa_eq (h : Truncates em a b) (hb : 0 < b) {m : Nat}
    (low : 2 * (m * b) ≤ 2 * a + b) (high : 2 * a ≤ 2 * (m * b) + b)
    (even : 2 * (m * b) = 2 * a + b ∨ 2 * a = 2 * (m * b) + b → m % 2 = 0) :
    em.roundedMantissa = m := by
  obtain ⟨w, roundBit, stickyBit⟩ := em
  obtain ⟨rfl, rfl, rfl⟩ := h
  have whole : a = a / b * b + a % b := (Nat.div_add_mod' a b).symm
  have hr := Nat.mod_lt a hb
  generalize a / b = w at whole ⊢
  generalize a % b = r at whole hr ⊢
  subst whole
  have rounds (up tie : Bool) (hup : decide (b ≤ 2 * r) = up)
      (htie : decide (2 * r ≠ 0 ∧ 2 * r ≠ b) = tie)
      (hm : (ExtendedMantissa.accuracy ⟨w, up, tie⟩).roundToNearestEven w = m) :
      ExtendedMantissa.roundedMantissa
        ⟨w, decide (b ≤ 2 * r), decide (2 * r ≠ 0 ∧ 2 * r ≠ b)⟩ = m := by
    rw [hup, htie]
    exact hm
  rcases eq_or_eq_succ_of_half hr low high with rfl | rfl
  · rcases Nat.lt_or_ge (2 * r) b with hlt | hge
    · by_cases hzero : r = 0
      · exact rounds false false (by simp; omega) (by simp [hzero]) rfl
      · exact rounds false true (by simp; omega) (by simp; omega) rfl
    · have tie : 2 * r = b := by omega
      refine rounds true false (by simp; omega) (by simp; omega) ?_
      simp [ExtendedMantissa.accuracy, Accuracy.roundToNearestEven, even (.inr (by omega))]
  · rw [Nat.add_one_mul w b] at low high even
    by_cases htie : 2 * r = b
    · refine rounds true false (by simp; omega) (by simp; omega) ?_
      have := even (.inl (by omega))
      simp only [ExtendedMantissa.accuracy, Accuracy.roundToNearestEven]
      omega
    · exact rounds true true (by simp; omega) (by simp; omega) rfl

end Truncates

/-! ### Exponents -/

theorem targetExponent_eq (E : Int) :
    Format.binary64.targetExponent E = max (E - 53) minExponent := by
  simp [Format.targetExponent, Format.mantissaBits, Format.minExponent, minExponent]

/-- The mantissa and the exponent of a double. -/
structure Stored (m : Nat) (e : Int) : Prop where
  lt : m < 2 ^ 53
  le : minExponent ≤ e
  normal : minExponent < e → 2 ^ 52 ≤ m

/-- The fraction `a / b` has as many digits before the point as a mantissa has. -/
structure Scaled (a b : Nat) (t : Int) : Prop where
  pos : 0 < b
  lt : a < 2 ^ 53 * b
  le : minExponent ≤ t
  normal : minExponent < t → 2 ^ 52 * b ≤ a

theorem shiftToTargetExponent_eq {a b : Nat} {e : Int} (hb : 0 < b)
    (he : e ≤ Format.binary64.targetExponent (totalExponent (a / b) e)) :
    ∃ em t, shiftToTargetExponent .binary64 (a / b) e (accuracyOfFraction (a % b) b) = (em, t) ∧
      ∃ c, Truncates em a c ∧ Scaled a c t ∧ (a / b : ℚ) * 2 ^ e = a / c * 2 ^ t := by
  rw [targetExponent_eq, totalExponent] at he
  generalize ht : max ((a / b).log2 + 1 + e - 53 : Int) minExponent = t at he
  obtain ⟨n, rfl⟩ : ∃ n : Nat, t = e + n := ⟨(t - e).toNat, by omega⟩
  have shifted : shiftToTargetExponent .binary64 (a / b) e (accuracyOfFraction (a % b) b) =
      (ExtendedMantissa.ofMantissaAndAccuracy (a / b)
        (accuracyOfFraction (a % b) b) >>> n, e + n) := by
    have amount : (e + n - e).toNat = n := by omega
    simp only [shiftToTargetExponent, shiftToExponent, targetExponent_eq, totalExponent, ht, amount]
  refine ⟨_, _, shifted, b * 2 ^ n, (Truncates.ofFraction a hb).shiftRight hb n, ?_, ?_⟩
  · have below : a < 2 ^ ((a / b).log2 + 1) * b := Nat.lt_mul_of_div_lt Nat.lt_log2_self hb
    have above : a / b * b ≤ a := Nat.div_mul_le_self a b
    generalize a / b = w at ht below above
    refine ⟨by positivity, ?_, by omega, fun hlt => ?_⟩
    · calc a < 2 ^ (w.log2 + 1) * b := below
        _ ≤ 2 ^ (53 + n) * b := Nat.mul_le_mul_right b (Nat.pow_le_pow_right (by decide) (by omega))
        _ = 2 ^ 53 * (b * 2 ^ n) := by ring
    · have hlog : w.log2 = 52 + n := by omega
      have hw : w ≠ 0 := by
        rintro rfl
        have : Nat.log2 0 = 0 := by decide
        omega
      calc 2 ^ 52 * (b * 2 ^ n) = 2 ^ w.log2 * b := by rw [hlog]; ring
        _ ≤ w * b := Nat.mul_le_mul_right b (Nat.log2_self_le hw)
        _ ≤ a := above
  · rw [zpow_add₀ (by norm_num), zpow_natCast]
    push_cast
    field_simp

/-- How far below a double the reals are rounded to it, in units of its last digit. Below a power of
two the doubles lie twice as dense. -/
def reachBelow (m : Nat) (e : Int) : ℚ := if m = 2 ^ 52 ∧ e ≠ minExponent then 1 / 4 else 1 / 2

/-- The real lies in the interval that is rounded to `m * 2 ^ e`: no further than half way to the
next doubles, and at the ends only if the mantissa is even. -/
structure RoundsTo (q : ℚ) (m : Nat) (e : Int) : Prop where
  low : (m - reachBelow m e) * 2 ^ e ≤ q
  high : q ≤ (m + 1 / 2) * 2 ^ e
  even : q = (m - reachBelow m e) * 2 ^ e ∨ q = (m + 1 / 2) * 2 ^ e → m % 2 = 0

variable {m a b : Nat} {e t : Int}

theorem reachBelow_le (m : Nat) (e : Int) : reachBelow m e ≤ 1 / 2 := by
  unfold reachBelow
  split <;> norm_num

theorem two_zpow_succ (e : Int) : (2 : ℚ) ^ (e + 1) = 2 * 2 ^ e := by
  rw [zpow_add_one₀ (by norm_num), mul_comm]

/-- A real has the exponent of the double that it is rounded to, except right below a power of
two. -/
theorem Scaled.exponent_eq (scaled : Scaled a b t) (stored : Stored m e)
    (h : RoundsTo (a / b * 2 ^ t) m e) : t = e ∨ t + 1 = e ∧ m = 2 ^ 52 := by
  have hb : (0 : ℚ) < b := by exact_mod_cast scaled.pos
  have hreach := reachBelow_le m e
  have hlow := h.low
  have hhigh := h.high
  have below : (a / b : ℚ) < 2 ^ 53 := by
    rw [div_lt_iff₀ hb]
    exact_mod_cast scaled.lt
  have hm : (m : ℚ) + 1 ≤ 2 ^ 53 := by exact_mod_cast stored.lt
  have ht : (0 : ℚ) < 2 ^ t := by positivity
  have he : (0 : ℚ) < 2 ^ e := by positivity
  rcases lt_trichotomy t e with hlt | heq | hgt
  · right
    have normal : (2 ^ 52 : ℚ) ≤ m := by exact_mod_cast stored.normal (scaled.le.trans_lt hlt)
    have hq : (a / b * 2 ^ t : ℚ) < 2 ^ 53 * 2 ^ t := by gcongr
    have hexp : t + 1 = e := by
      by_contra hne
      have hpow : (2 : ℚ) ^ (t + 1 + 1) ≤ 2 ^ e := zpow_le_zpow_right₀ (by norm_num) (by omega)
      rw [two_zpow_succ, two_zpow_succ] at hpow
      nlinarith
    refine ⟨hexp, ?_⟩
    by_contra hne
    have hm' : (2 ^ 52 + 1 : ℚ) ≤ m := by
      have : 2 ^ 52 ≤ m := by exact_mod_cast normal
      exact_mod_cast (show 2 ^ 52 + 1 ≤ m by omega)
    subst hexp
    rw [two_zpow_succ] at hlow
    have : (2 ^ 52 + 1 / 2 : ℚ) * (2 * 2 ^ t) ≤ (m - reachBelow m (t + 1)) * (2 * 2 ^ t) := by
      gcongr
      linarith
    linarith
  · exact .inl heq
  · exfalso
    have normal : (2 ^ 52 : ℚ) ≤ a / b := by
      rw [le_div_iff₀ hb]
      exact_mod_cast scaled.normal (stored.le.trans_lt hgt)
    have hpow : (2 : ℚ) ^ (e + 1) ≤ 2 ^ t := zpow_le_zpow_right₀ (by norm_num) (by omega)
    rw [two_zpow_succ] at hpow
    have : (2 ^ 52 * 2 ^ t : ℚ) ≤ a / b * 2 ^ t := by gcongr
    nlinarith

/-- A mantissa that needs no more digits stays, and one that has got a further digit loses it
again. -/
theorem shiftToTargetExponent_exact (stored : Stored m e) :
    shiftToTargetExponent .binary64 m e .exact = (⟨m, false, false⟩, e) := by
  have hlog : m.log2 ≤ 52 := by
    have := stored.lt
    by_cases hm : m = 0
    · subst hm
      decide
    · have := (Nat.log2_lt hm).2 this
      omega
  have hle := stored.le
  have amount : (max ((m.log2 : Int) + 1 + e - 53) minExponent - e).toNat = 0 := by omega
  simp only [shiftToTargetExponent, shiftToExponent, targetExponent_eq, totalExponent, amount]
  exact congrArg (Prod.mk _) (Int.add_zero e)

theorem shiftToTargetExponent_overflow (he : minExponent ≤ e) :
    shiftToTargetExponent .binary64 (2 ^ 53) e .exact = (⟨2 ^ 52, false, false⟩, e + 1) := by
  have hlog : Nat.log2 (2 ^ 53) = 53 := by decide
  have amount : (max (53 + 1 + e - 53) minExponent - e).toNat = 1 := by omega
  simp only [shiftToTargetExponent, shiftToExponent, targetExponent_eq, totalExponent, hlog,
    Nat.cast_ofNat, amount]
  rfl

/-- The fraction is rounded to the mantissa of the double. -/
theorem Truncates.roundedMantissa_of_roundsTo {em : ExtendedMantissa} (truncates : Truncates em a b)
    (hb : 0 < b) (h : RoundsTo (a / b * 2 ^ e) m e) : em.roundedMantissa = m := by
  have hb' : (0 : ℚ) < b := by exact_mod_cast hb
  have he : (0 : ℚ) < 2 ^ e := by positivity
  have hreach := reachBelow_le m e
  have low : m - reachBelow m e ≤ (a / b : ℚ) := le_of_mul_le_mul_right h.low he
  have high : (a / b : ℚ) ≤ m + 1 / 2 := le_of_mul_le_mul_right h.high he
  refine truncates.roundedMantissa_eq hb ?_ ?_ fun htie => h.even ?_
  · have : (m - 1 / 2 : ℚ) ≤ a / b := by linarith
    rw [le_div_iff₀ hb'] at this
    have : (2 * (m * b) : ℚ) ≤ 2 * a + b := by linarith
    exact_mod_cast this
  · rw [div_le_iff₀ hb'] at high
    have : (2 * a : ℚ) ≤ 2 * (m * b) + b := by linarith
    exact_mod_cast this
  · rcases htie with htie | htie
    · have htie' : (2 * (m * b) : ℚ) = 2 * a + b := by exact_mod_cast htie
      have hq : (a / b : ℚ) = m - 1 / 2 := by
        rw [div_eq_iff hb'.ne']
        linarith
      have : reachBelow m e = 1 / 2 := le_antisymm hreach (by linarith)
      exact .inl (by rw [hq, this])
    · have htie' : (2 * a : ℚ) = 2 * (m * b) + b := by exact_mod_cast htie
      have hq : (a / b : ℚ) = m + 1 / 2 := by
        rw [div_eq_iff hb'.ne']
        linarith
      exact .inr (by rw [hq])

/-- Right below a power of two the fraction is rounded up to it. -/
theorem Truncates.roundedMantissa_of_roundsTo_pow {em : ExtendedMantissa}
    (truncates : Truncates em a b) (scaled : Scaled a b t)
    (h : RoundsTo (a / b * 2 ^ t) (2 ^ 52) (t + 1)) : em.roundedMantissa = 2 ^ 53 := by
  have hb : (0 : ℚ) < b := by exact_mod_cast scaled.pos
  have ht : (0 : ℚ) < 2 ^ t := by positivity
  have hreach : reachBelow (2 ^ 52) (t + 1) = 1 / 4 := by
    have := scaled.le
    exact if_pos ⟨rfl, by omega⟩
  have hlow := h.low
  rw [hreach, two_zpow_succ, ← mul_assoc] at hlow
  have low := le_of_mul_le_mul_right hlow ht
  rw [le_div_iff₀ hb] at low
  have hlt := scaled.lt
  refine truncates.roundedMantissa_eq scaled.pos ?_ (by omega) fun _ => rfl
  have : (2 * (2 ^ 53 * b) : ℚ) ≤ 2 * a + b := by
    push_cast at low
    linarith
  exact_mod_cast this

/-- A fraction is rounded to the double in whose interval it lies. -/
theorem roundWithAccuracy_eq (s : Sign) (hb : 0 < b)
    (ht : t ≤ Format.binary64.targetExponent (totalExponent (a / b) t)) (stored : Stored m e)
    (hm : 0 < m) (h : RoundsTo (a / b * 2 ^ t) m e) :
    roundWithAccuracy .binary64 s (a / b) t (accuracyOfFraction (a % b) b) = .finite s m e hm := by
  obtain ⟨em, t', shifted, c, truncates, scaled, same⟩ := shiftToTargetExponent_eq hb ht
  rw [same] at h
  have rounded : shiftToTargetExponent .binary64 em.roundedMantissa t' .exact =
      (⟨m, false, false⟩, e) := by
    rcases scaled.exponent_eq stored h with rfl | ⟨rfl, rfl⟩
    · rw [truncates.roundedMantissa_of_roundsTo scaled.pos h]
      exact shiftToTargetExponent_exact stored
    · rw [truncates.roundedMantissa_of_roundsTo_pow scaled h]
      exact shiftToTargetExponent_overflow scaled.le
  simp only [roundWithAccuracy, shifted, rounded]
  rw [dif_neg hm.ne']

end ScopeLang.Decimal
