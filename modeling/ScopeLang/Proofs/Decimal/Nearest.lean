import ScopeLang.Decimal.Reader
import ScopeLang.Proofs.Decimal.Packing

/-!
# Digits are read as the nearest double

A decimal is read by a division of doubles where its digits and the power of ten are doubles
themselves, and by a division of whole numbers elsewhere. Either way it is read as the double to
which its value is rounded.

## Main definitions

* `Rounds` — the result of an operation is the double to which a real is rounded.

## Main statements

* `rounds_div` — division rounds the quotient.
* `exists_rounds_ofScientific` — a decimal is read as the double to which it is rounded.
* `isNonneg_ofDigits`, `ofDigits_eq` — and so are digits.
-/

namespace ScopeLang.Decimal

open Float.Model (Format UnpackedFloat totalExponent)
open Float.Model.UnpackedFloat

variable {m a b N k : Nat} {e t : Int} {q : ℚ} {u : UnpackedFloat}

/-! ### Rounded results -/

theorem RoundsTo.pos (h : RoundsTo q m e) (hm : 0 < m) : 0 < q := by
  have hreach := reachBelow_le m e
  have hm' : (1 : ℚ) ≤ m := by exact_mod_cast hm
  have he : (0 : ℚ) < 2 ^ e := by positivity
  have : (0 : ℚ) < (m - reachBelow m e) * 2 ^ e := mul_pos (by linarith) he
  exact this.trans_le h.low

theorem roundWithAccuracy_exact (stored : Stored m e) (s : Sign) (hm : 0 < m) :
    roundWithAccuracy .binary64 s m e .exact = .finite s m e hm := by
  have same : ExtendedMantissa.roundedMantissa ⟨m, false, false⟩ = m := rfl
  simp only [roundWithAccuracy, shiftToTargetExponent_exact stored, same]
  rw [dif_neg hm.ne']

/-- The result of an operation is nonnegative, and it is the double that the real is rounded to. -/
structure Rounds (q : ℚ) (u : UnpackedFloat) : Prop where
  positive : u = .infinity .positive ∨ u = .zero .positive ∨ ∃ m e hm, u = .finite .positive m e hm
  nearest : ∀ m e (hm : 0 < m), Stored m e → RoundsTo q m e → u = .finite .positive m e hm

theorem rounds_zero : Rounds 0 (.zero .positive) :=
  ⟨.inr (.inl rfl), fun _ _ hm _ h => absurd (h.pos hm) (lt_irrefl 0)⟩

theorem rounds_roundWithAccuracy (hb : 0 < b)
    (ht : t ≤ Format.binary64.targetExponent (totalExponent (a / b) t)) :
    Rounds (a / b * 2 ^ t)
      (roundWithAccuracy .binary64 .positive (a / b) t (accuracyOfFraction (a % b) b)) := by
  refine ⟨.inr ?_, fun m e hm stored h => roundWithAccuracy_eq .positive hb ht stored hm h⟩
  simp only [roundWithAccuracy]
  split
  · exact .inl rfl
  · rename_i h
    exact .inr ⟨_, _, Nat.pos_of_ne_zero h, rfl⟩

/-- The quotient of the mantissas has at least as many digits as it is to have. -/
theorem totalExponent_div {m₁ m₂ : Nat} (e₁ e₂ : Int) (h₁ : 0 < m₁) (h₂ : 0 < m₂) (n : Nat) :
    totalExponent m₁ e₁ - totalExponent m₂ e₂ ≤
      totalExponent (m₁ <<< n / m₂) (e₁ - e₂ - n) := by
  have above : m₁ <<< n < 2 ^ ((m₁ <<< n / m₂).log2 + 1) * m₂ :=
    Nat.lt_mul_of_div_lt Nat.lt_log2_self h₂
  have below : 2 ^ (m₁.log2 + n) ≤ m₁ <<< n := by
    rw [Nat.shiftLeft_eq, pow_add]
    exact Nat.mul_le_mul_right _ (Nat.log2_self_le h₁.ne')
  have digits : m₁.log2 + n < (m₁ <<< n / m₂).log2 + 1 + (m₂.log2 + 1) := by
    refine (Nat.pow_lt_pow_iff_right (by decide : 1 < 2)).1 ?_
    calc 2 ^ (m₁.log2 + n) < 2 ^ ((m₁ <<< n / m₂).log2 + 1) * m₂ := below.trans_lt above
      _ ≤ 2 ^ ((m₁ <<< n / m₂).log2 + 1) * 2 ^ (m₂.log2 + 1) :=
        Nat.mul_le_mul_left _ Nat.lt_log2_self.le
      _ = _ := (pow_add ..).symm
  simp only [totalExponent]
  omega

theorem rounds_div {m₁ m₂ : Nat} (e₁ e₂ : Int) (h₁ : 0 < m₁) (h₂ : 0 < m₂) :
    Rounds (m₁ * 2 ^ e₁ / (m₂ * 2 ^ e₂))
      (div .binary64 (.finite .positive m₁ e₁ h₁) (.finite .positive m₂ e₂ h₂)) := by
  simp only [div, divCore]
  generalize ht : min (e₁ - e₂) (Format.binary64.targetExponent
    (totalExponent m₁ e₁ - totalExponent m₂ e₂)) = t
  obtain ⟨n, rfl⟩ : ∃ n : Nat, t = e₁ - e₂ - n := ⟨(e₁ - e₂ - t).toNat, by omega⟩
  have amount : (e₁ - e₂ - (e₁ - e₂ - n)).toNat = n := by omega
  have enough : e₁ - e₂ - n ≤
      Format.binary64.targetExponent (totalExponent (m₁ <<< n / m₂) (e₁ - e₂ - n)) := by
    have := totalExponent_div e₁ e₂ h₁ h₂ n
    rw [targetExponent_eq] at ht ⊢
    omega
  have value : (m₁ * 2 ^ e₁ / (m₂ * 2 ^ e₂) : ℚ) =
      (m₁ <<< n : Nat) / m₂ * 2 ^ (e₁ - e₂ - n) := by
    rw [Nat.shiftLeft_eq, zpow_sub₀ (by norm_num), zpow_sub₀ (by norm_num), zpow_natCast]
    push_cast
    field_simp
  rw [amount, value]
  exact rounds_roundWithAccuracy h₂ enough

theorem rounds_exact (ht : t ≤ Format.binary64.targetExponent (totalExponent a t)) :
    Rounds (a * 2 ^ t) (roundWithAccuracy .binary64 .positive a t .exact) := by
  have exact : accuracyOfFraction (a % 1) 1 = .exact := by simp [accuracyOfFraction, Nat.mod_one]
  have rounds := rounds_roundWithAccuracy (a := a) Nat.one_pos (by rwa [Nat.div_one])
  rwa [exact, Nat.div_one, Nat.cast_one, div_one] at rounds

/-- A decimal with so many digits behind the point lies below all doubles. -/
theorem not_roundsTo_of_small {n : Nat} (h : 2 ^ 11 + n.log2 < k) (hm : 0 < m)
    (stored : Stored m e) : ¬ RoundsTo (n / 10 ^ k) m e := fun hq => by
  have hreach := reachBelow_le m e
  have hm' : (1 : ℚ) ≤ m := by exact_mod_cast hm
  have hle : -1074 ≤ e := stored.le
  have large : (1 / 2 * 2 ^ e : ℚ) ≤ n / 10 ^ k := by
    refine le_trans ?_ hq.low
    gcongr
    linarith
  have small : (n / 10 ^ k : ℚ) < 1 / 2 * 2 ^ e := by
    rw [div_lt_iff₀ (by positivity)]
    calc (n : ℚ) < 2 ^ (n.log2 + 1) := by exact_mod_cast Nat.lt_log2_self
      _ = 1 / 2 * 2 ^ (n.log2 + 2) := by ring
      _ ≤ 1 / 2 * (2 ^ e * 2 ^ k) := by
        rw [← zpow_natCast, ← zpow_natCast, ← zpow_add₀ (by norm_num)]
        gcongr
        · norm_num
        · push_cast
          omega
      _ ≤ 1 / 2 * 2 ^ e * 10 ^ k := by
        rw [← mul_assoc]
        gcongr
        norm_num
  exact absurd large (not_le.2 small)

/-- Without digits behind the point, the number is multiplied by one. -/
theorem rounds_whole {n : Nat} (hn : 0 < n <<< 53) : Rounds n (mul .binary64
    (.finite .positive (n <<< 53) (-53) hn) (.finite .positive (10 ^ 0) 0 (by decide))) := by
  have enough : (-53 : Int) ≤ Format.binary64.targetExponent (totalExponent (n <<< 53) (-53)) := by
    have digits : 53 ≤ (n <<< 53).log2 := by
      rw [Nat.le_log2 hn.ne']
      rw [Nat.shiftLeft_eq] at hn ⊢
      omega
    rw [targetExponent_eq, totalExponent]
    omega
  have value : ((n <<< 53 : Nat) * 2 ^ (-53 : Int) : ℚ) = n := by
    rw [Nat.shiftLeft_eq, zpow_neg]
    push_cast
    exact mul_inv_cancel_right₀ (by positivity) _
  have product : mul .binary64 (.finite .positive (n <<< 53) (-53) hn)
      (.finite .positive (10 ^ 0) 0 (by decide)) =
        roundWithAccuracy .binary64 .positive (n <<< 53 * 10 ^ 0) (-53 + 0) .exact := rfl
  have rounds := rounds_exact enough
  rw [value] at rounds
  rw [product]
  simpa using rounds

theorem rounds_ofScientific (n k : Nat) :
    Rounds (n / 10 ^ k) (ofScientific .binary64 n (Int.negOfNat k)) := by
  have negative : Int.negOfNat k = -(k : Int) := by cases k <;> rfl
  rw [negative, ofScientific]
  split
  · rename_i hn
    simpa [hn] using rounds_zero
  · rename_i hn
    have bound : (0 : Int) < 2 ^ Format.binary64.exponentBits := by decide
    rw [if_neg (by omega)]
    split
    · rename_i hk
      have small : 2 ^ 11 + n.log2 < k := by
        have : (Format.binary64.exponentBits : Nat) = 11 := rfl
        rw [this] at hk
        omega
      refine ⟨.inr (.inl rfl), fun _ _ hm stored h => ?_⟩
      exact absurd h (not_roundsTo_of_small small hm stored)
    · split
      · obtain rfl : k = 0 := by omega
        rw [pow_zero, div_one]
        exact rounds_whole (by simpa [Nat.pos_iff_ne_zero] using hn)
      · have value : (n * 2 ^ (0 : Int) / ((10 ^ k : Nat) * 2 ^ (0 : Int)) : ℚ) = n / 10 ^ k := by
          simp
        have rounds := rounds_div 0 0 (Nat.pos_of_ne_zero hn)
          (Nat.pow_pos (n := k) (by decide : 0 < 10))
        rw [value] at rounds
        simpa using rounds

/-! ### Operands that are doubles -/

/-- A whole number below `2 ^ 53` is a double. -/
theorem ofNat_eq {n : Nat} (hn : 0 < n) (hlt : n < 2 ^ 53) :
    ∃ (m : Nat) (e : Int) (hm : 0 < m), Stored m e ∧ e ≤ 0 ∧ (m * 2 ^ e : ℚ) = n ∧
      UnpackedFloat.ofNat .binary64 n = .finite .positive m e hm := by
  have hlog : n.log2 ≤ 52 := by
    have := (Nat.log2_lt hn.ne').2 hlt
    omega
  obtain ⟨s, hs⟩ : ∃ s : Nat, n.log2 + s = 52 := ⟨52 - n.log2, by omega⟩
  have low : 2 ^ n.log2 * 2 ^ s ≤ n * 2 ^ s := Nat.mul_le_mul_right _ (Nat.log2_self_le hn.ne')
  have high : n * 2 ^ s < 2 ^ (n.log2 + 1) * 2 ^ s :=
    Nat.mul_lt_mul_of_pos_right Nat.lt_log2_self (by positivity)
  rw [← pow_add, hs] at low
  rw [← pow_add, show n.log2 + 1 + s = 53 by omega] at high
  have hm : 0 < n * 2 ^ s := by positivity
  have stored : Stored (n * 2 ^ s) (-s) := ⟨high, by simp only [minExponent]; omega, fun _ => low⟩
  refine ⟨n * 2 ^ s, -s, hm, stored, by omega, ?_, ?_⟩
  · rw [zpow_neg, zpow_natCast]
    push_cast
    exact mul_inv_cancel_right₀ (by positivity) _
  · have positive : compare (n : Int) 0 = .gt := by
      rw [Int.compare_eq_gt]
      omega
    have target : max ((n.log2 : Int) + 1 + 0 - 53) minExponent = -s := by
      simp only [minExponent]
      omega
    have amount : (- -(s : Int)).toNat = s := by omega
    simp only [UnpackedFloat.ofNat, ofInt, UnpackedFloat.normalize, positive, UnpackedFloat.round,
      decreaseExponent, targetExponent_eq, totalExponent, Int.toNat_natCast, target, amount,
      Nat.shiftLeft_eq, zero_sub]
    exact roundWithAccuracy_exact stored .positive hm

theorem unpack_ofModel_pack (stored : Stored m e) (he : e ≤ 971) (hm : 0 < m) :
    (Float.ofModel (.pack (.finite .positive m e hm))).toModel.unpack = .finite .positive m e hm :=
  unpack_pack_finite stored he .positive hm

/-- The double is this power of ten. -/
def isPowerOfTen (k : Nat) (x : Float) : Bool :=
  !isNegative x && match magnitude x with
    | .finite m e => decide (-52 ≤ e) && m * 2 ^ (e + 52).toNat == 10 ^ k * 2 ^ 52
    | .infinite | .undefined => false

theorem isPowerOfTen_table : ∀ k : Fin 23,
    isPowerOfTen k Float.exactlyRepresentablePowersOfTen[k] = true := by
  decide +kernel

theorem unpack_of_isPowerOfTen {x : Float} (h : isPowerOfTen k x = true) :
    ∃ (m : Nat) (e : Int) (hm : 0 < m), (m * 2 ^ e : ℚ) = 10 ^ k ∧
      x.toModel.unpack = .finite .positive m e hm := by
  rw [isPowerOfTen, Bool.and_eq_true, Bool.not_eq_true'] at h
  obtain ⟨sign, h⟩ := h
  split at h
  · rename_i m e hmagnitude
    simp only [Bool.and_eq_true, decide_eq_true_eq, beq_iff_eq] at h
    obtain ⟨he, hvalue⟩ := h
    have hm : 0 < m := Nat.pos_of_ne_zero fun hm => by simp [hm] at hvalue
    obtain ⟨stored, hle, hx⟩ := eq_ofModel_pack sign hmagnitude
    refine ⟨m, e, hm, ?_, by rw [hx hm, unpack_ofModel_pack stored hle hm]⟩
    obtain ⟨n, rfl⟩ : ∃ n : Nat, e = n - 52 := ⟨(e + 52).toNat, by omega⟩
    rw [Int.sub_add_cancel, Int.toNat_natCast] at hvalue
    have hvalue' : (m * 2 ^ n : ℚ) = 10 ^ k * 2 ^ 52 := by exact_mod_cast hvalue
    rw [zpow_sub₀ (by norm_num), zpow_natCast, ← mul_div_assoc, hvalue']
    exact mul_div_cancel_right₀ _ (by positivity)
  · cases h
  · cases h

/-! ### Decimals -/

/-- A decimal is read as the double that it is rounded to. -/
theorem exists_rounds_ofScientific (n k : Nat) :
    ∃ u, Rounds (n / 10 ^ k) u ∧ Float.ofScientific n true k = .ofModel (.pack u) := by
  rw [Float.ofScientific]
  split
  · rename_i h
    have power := isPowerOfTen_table ⟨k, by omega⟩
    obtain ⟨p, f, hp, hpower, hunpack⟩ := unpack_of_isPowerOfTen power
    refine ⟨div .binary64 n.toUInt64.toFloat.toModel.unpack
      (Float.exactlyRepresentablePowersOfTen[(⟨k, by omega⟩ : Fin 23)]).toModel.unpack, ?_, rfl⟩
    have whole : n.toUInt64.toFloat.toModel.unpack =
        unpack .binary64 (pack .binary64 (UnpackedFloat.ofNat .binary64 n)) := by
      have : n.toUInt64.toNat = n := by simp; omega
      conv => rhs; rw [← this]
      rfl
    rw [whole, hunpack]
    by_cases hn : n = 0
    · subst hn
      have zero : unpack .binary64 (pack .binary64 (UnpackedFloat.ofNat .binary64 0)) =
          .zero .positive := rfl
      have quotient : div .binary64 (.zero .positive) (.finite .positive p f hp) =
          .zero .positive := rfl
      rw [zero, quotient]
      simpa using rounds_zero
    · obtain ⟨m, e, hm, stored, he, hvalue, hpack⟩ := ofNat_eq (Nat.pos_of_ne_zero hn) h.1
      have rounds := rounds_div e f hm hp
      rw [hvalue, hpower] at rounds
      rwa [hpack, unpack_pack_finite stored (by omega)]
  · exact ⟨_, rounds_ofScientific n k, rfl⟩

/-- What is packed of a nonnegative result is no negative number and no undefined one. -/
theorem Rounds.isNonneg (h : Rounds q u) : isNegative (.ofModel (.pack u)) = false ∧
    magnitude (.ofModel (.pack u)) ≠ .undefined := by
  obtain ⟨E, M, hpack, hM⟩ : ∃ E M, pack .binary64 u = packComponents .binary64 .positive E M ∧
      (E.toNat = 2047 → M.toNat = 0) := by
    obtain rfl | rfl | ⟨m, e, hm, rfl⟩ := h.positive
    · exact ⟨_, _, rfl, fun _ => rfl⟩
    · exact ⟨_, _, rfl, fun _ => rfl⟩
    · rw [pack]
      dsimp only
      split
      · exact ⟨_, _, rfl, fun _ => rfl⟩
      · rename_i hfinite
        split
        · refine ⟨_, _, rfl, fun hE => absurd hE ?_⟩
          generalize (e + _ + _ : Int).toNat = biased at hfinite ⊢
          rw [BitVec.toNat_ofNat]
          omega
        · exact ⟨_, _, rfl, fun hE => by cases hE⟩
  have bits : (Float.ofModel (.pack u)).toBits.toNat = E.toNat * 2 ^ 52 + M.toNat := by
    rw [← toNat_packComponents, ← hpack]
    rfl
  have hE : E.toNat < 2 ^ 11 := E.isLt
  have hM' : M.toNat < 2 ^ 52 := M.isLt
  rw [isNegative_eq, magnitude_eq hE hM' bits, bits]
  refine ⟨decide_eq_false (by omega), ?_⟩
  split
  · rename_i hscale
    rw [if_pos (hM hscale)]
    nofun
  · split <;> nofun

/-- What digits are read as is no negative number and no undefined one. -/
theorem isNonneg_ofDigits (whole fraction : List Char) :
    isNegative (ofDigits whole fraction) = false ∧
      magnitude (ofDigits whole fraction) ≠ .undefined := by
  obtain ⟨u, hu, hread⟩ :=
    exists_rounds_ofScientific (digitsValue (whole ++ fraction)) fraction.length
  rw [ofDigits, hread]
  exact hu.isNonneg

/-- Digits are read as the double in whose interval their value lies. -/
theorem ofDigits_eq {x : Float} {whole fraction : List Char} (hx : isNegative x = false)
    (hmagnitude : magnitude x = .finite m e) (hm : 0 < m)
    (h : RoundsTo (digitsValue (whole ++ fraction) / 10 ^ fraction.length) m e) :
    ofDigits whole fraction = x := by
  obtain ⟨stored, -, hpack⟩ := eq_ofModel_pack hx hmagnitude
  obtain ⟨u, hu, hread⟩ :=
    exists_rounds_ofScientific (digitsValue (whole ++ fraction)) fraction.length
  rw [ofDigits, hread, hu.nearest m e hm stored h, hpack hm]

end ScopeLang.Decimal
