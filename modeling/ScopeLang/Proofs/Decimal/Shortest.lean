import ScopeLang.Decimal.Shortest
import ScopeLang.Proofs.Decimal.Rounding

/-!
# The shortest decimal of a double

The search for the shortest decimal goes through finer and finer grids until one of their points
lies in the interval of the double. It begins no further than one digit above the value and has
eighteen grids to go through, and on the last one the point below the value lies in the interval
already.

## Main definitions

* `Scientific.value` — the value of a decimal.

## Main statements

* `Interval.contains_iff` — the interval of the search is that of the double.
* `Interval.roundsTo_search` — a point of the interval is found if the last grid is fine enough.
* `roundsTo_shortest` — the shortest decimal is rounded to the double.
-/

namespace ScopeLang.Decimal

variable {m n d k : Nat} {e : Int}

namespace Scientific

def value (d : Scientific) : ℚ := d.digits * 10 ^ d.exponent

theorem value_trim (fuel : Nat) (d : Scientific) : (d.trim fuel).value = d.value := by
  induction fuel generalizing d with
  | zero => rfl
  | succ fuel ih =>
    rw [trim]
    split
    · rename_i h
      rw [ih]
      have digits : d.digits = 10 * (d.digits / 10) := by omega
      conv => rhs; rw [value, digits]
      rw [value, zpow_add_one₀ (by norm_num)]
      push_cast
      ring
    · rfl

end Scientific

namespace Interval

/-- The ends of the interval, in units of its denominator. -/
theorem ofMagnitude_eq (hm : 0 < m) (e : Int) :
    let i := ofMagnitude m e
    0 < i.denominator ∧ (i.value : ℚ) = m * 2 ^ e * i.denominator ∧
      (i.low : ℚ) = (m - reachBelow m e) * 2 ^ e * i.denominator ∧
      (i.high : ℚ) = (m + 1 / 2) * 2 ^ e * i.denominator ∧ (i.closed = true ↔ m % 2 = 0) := by
  intro i
  have scale : ((Nat.pow 2 (e - 2).toNat : Nat) : ℚ) = 2 ^ e * (1 / 4) * i.denominator := by
    have exponent : (((e - 2).toNat : Nat) : Int) = e + -2 + ((2 - e).toNat : Nat) := by omega
    have quarter : (2 : ℚ) ^ (-2 : Int) = 1 / 4 := by norm_num
    simp only [i, ofMagnitude, Nat.pow_eq]
    push_cast
    rw [← zpow_natCast, exponent, zpow_add₀ (by norm_num), zpow_add₀ (by norm_num), quarter,
      zpow_natCast]
  have below : ((4 * m - if m = Nat.pow 2 52 ∧ e ≠ minExponent then 1 else 2 : Nat) : ℚ) =
      4 * (m - reachBelow m e) := by
    rw [reachBelow, Nat.cast_sub (by split <;> omega)]
    simp only [Nat.pow_eq]
    split <;> push_cast <;> ring
  refine ⟨Nat.pow_pos (by decide), ?_, ?_, ?_, decide_eq_true_iff⟩
  · rw [show i.value = 4 * m * Nat.pow 2 (e - 2).toNat from rfl, Nat.cast_mul, scale]
    push_cast
    ring
  · rw [show i.low = _ * Nat.pow 2 (e - 2).toNat from rfl, Nat.cast_mul, scale, below]
    ring
  · rw [show i.high = (4 * m + 2) * Nat.pow 2 (e - 2).toNat from rfl, Nat.cast_mul, scale]
    push_cast
    ring

/-- Over a common denominator, fractions are compared by products of whole numbers. -/
theorem le_ratio_iff {a b n d : Nat} {l : ℚ} (hb : 0 < b) (hd : 0 < d) (ha : (a : ℚ) = l * b) :
    (a * d ≤ n * b ↔ l ≤ n / d) ∧ (n * b ≤ a * d ↔ n / d ≤ l) := by
  have hb' : (0 : ℚ) < b := by exact_mod_cast hb
  have hd' : (0 : ℚ) < d := by exact_mod_cast hd
  rw [← Nat.cast_le (α := ℚ), ← Nat.cast_le (α := ℚ), le_div_iff₀ hd', div_le_iff₀ hd']
  push_cast
  rw [ha, mul_right_comm, mul_le_mul_iff_of_pos_right hb', mul_le_mul_iff_of_pos_right hb']
  exact ⟨Iff.rfl, Iff.rfl⟩

theorem contains_iff (hm : 0 < m) (hd : 0 < d) :
    (ofMagnitude m e).contains n d = true ↔ RoundsTo (n / d) m e := by
  obtain ⟨hpos, -, hlow, hhigh, hclosed⟩ := ofMagnitude_eq hm e
  generalize ofMagnitude m e = i at hpos hlow hhigh hclosed ⊢
  obtain ⟨low_le, le_low⟩ := le_ratio_iff (n := n) hpos hd hlow
  obtain ⟨high_le, le_high⟩ := le_ratio_iff (n := n) hpos hd hhigh
  rw [contains]
  split
  · rename_i hc
    rw [Bool.and_eq_true, decide_eq_true_iff, decide_eq_true_iff, low_le, le_high]
    exact ⟨fun h => ⟨h.1, h.2, fun _ => hclosed.1 hc⟩, fun h => ⟨h.low, h.high⟩⟩
  · rename_i hc
    rw [Bool.and_eq_true, decide_eq_true_iff, decide_eq_true_iff,
      lt_iff_lt_of_le_iff_le le_low, lt_iff_lt_of_le_iff_le high_le]
    refine ⟨fun h => ⟨h.1.le, h.2.le, fun hq => ?_⟩, fun h => ?_⟩
    · rcases hq with hq | hq
      · exact absurd hq h.1.ne'
      · exact absurd hq h.2.ne
    · have odd : ¬ m % 2 = 0 := fun hm => hc (hclosed.2 hm)
      exact ⟨lt_of_le_of_ne h.low fun hq => odd (h.even (.inl hq.symm)),
        lt_of_le_of_ne h.high fun hq => odd (h.even (.inr hq))⟩

/-- A grid point as a fraction of whole numbers. -/
theorem value_eq_ratio (n : Nat) (E : Int) : Scientific.value ⟨n, E⟩ =
    ((n * Nat.pow 10 E.toNat : Nat) : ℚ) / (Nat.pow 10 (-E).toNat : Nat) := by
  have exponent : E = (E.toNat : Int) - ((-E).toNat : Int) := by omega
  simp only [Scientific.value, Nat.pow_eq]
  conv => lhs; rw [exponent]
  rw [zpow_sub₀ (by norm_num), zpow_natCast, zpow_natCast]
  push_cast
  ring

theorem contains_grid_iff (hm : 0 < m) {E : Int} :
    (ofMagnitude m e).contains (n * Nat.pow 10 E.toNat) (Nat.pow 10 (-E).toNat) = true ↔
      RoundsTo (Scientific.value ⟨n, E⟩) m e := by
  have pos : 0 < Nat.pow 10 (-E).toNat := Nat.pow_pos (by decide)
  rw [contains_iff hm pos, value_eq_ratio]

/-- A grid point that is found lies in the interval. -/
theorem roundsTo_of_nearest? (hm : 0 < m) {E : Int} {s : Scientific}
    (h : (ofMagnitude m e).nearest? E = some s) : RoundsTo s.value m e := by
  simp only [nearest?] at h
  split at h
  · rename_i hcond
    cases h
    rw [Bool.and_eq_true] at hcond
    exact (contains_grid_iff hm).1 hcond.1
  · split at h
    · cases h
      exact (contains_grid_iff hm).1 ‹_›
    · cases h

theorem pow_length_repr_le {n : Nat} (hn : 0 < n) : 10 ^ ((Nat.repr n).length - 1) ≤ n := by
  by_cases hone : (Nat.repr n).length - 1 = 0
  · rw [hone]
    exact hn
  · rw [← not_lt, ← Nat.length_repr_le_iff (Nat.pos_of_ne_zero hone)]
    have := Nat.length_repr_pos (n := n)
    omega

theorem lt_pow_length_repr (n : Nat) : n < 10 ^ (Nat.repr n).length :=
  (Nat.length_repr_le_iff Nat.length_repr_pos).1 le_rfl

/-- The search begins no further than one digit above the value. -/
theorem ten_pow_tenAbove_le (i : Interval) (hvalue : 0 < i.value) (hpos : 0 < i.denominator) :
    (10 : ℚ) ^ (i.tenAbove - 1) ≤ i.value / i.denominator := by
  have hpos' : (0 : ℚ) < i.denominator := by exact_mod_cast hpos
  rw [tenAbove, le_div_iff₀ hpos']
  split
  · rename_i hle
    have whole := pow_length_repr_le (Nat.div_pos hle hpos)
    have length := Nat.length_repr_pos (n := i.value / i.denominator)
    rw [Nat.le_div_iff_mul_le hpos] at whole
    rw [show ((Nat.repr (i.value / i.denominator)).length - 1 : Int) =
      ((Nat.repr (i.value / i.denominator)).length - 1 : Nat) by omega, zpow_natCast]
    exact_mod_cast whole
  · have part := Nat.lt_mul_of_div_lt (lt_pow_length_repr (i.denominator / i.value)) hvalue
    rw [show (1 - (Nat.repr (i.denominator / i.value)).length - 1 : Int) =
      -((Nat.repr (i.denominator / i.value)).length : Nat) by omega, zpow_neg, zpow_natCast,
      inv_mul_le_iff₀ (by positivity)]
    exact_mod_cast part.le

/-- On a grid this fine the point below the value lies in the interval, so a point is found. -/
theorem exists_nearest? (hm : 0 < m) {E : Int} (fine : (10 : ℚ) ^ E < 1 / 4 * 2 ^ e) :
    ∃ s, (ofMagnitude m e).nearest? E = some s := by
  obtain ⟨hpos, hvalue, -⟩ := ofMagnitude_eq hm e
  have hpos' : (0 : ℚ) < (ofMagnitude m e).denominator := by exact_mod_cast hpos
  generalize hfloor : (ofMagnitude m e).value * Nat.pow 10 (-E).toNat /
    ((ofMagnitude m e).denominator * Nat.pow 10 E.toNat) = floor
  have ratio : (((ofMagnitude m e).value * Nat.pow 10 (-E).toNat : Nat) : ℚ) /
      ((ofMagnitude m e).denominator * Nat.pow 10 E.toNat : Nat) = m * 2 ^ e / 10 ^ E := by
    have one := value_eq_ratio 1 E
    rw [Scientific.value, Nat.cast_one, one_mul, Nat.one_mul] at one
    rw [one]
    push_cast
    rw [hvalue]
    field_simp
  have hfloor' : ⌊(m * 2 ^ e / 10 ^ E : ℚ)⌋₊ = floor := by
    rw [← ratio, Nat.floor_div_eq_div, hfloor]
  -- the point below the value is off by less than the reach of the interval
  have floor_le : (floor : ℚ) * 10 ^ E ≤ m * 2 ^ e := by
    have := Nat.floor_le (a := (m * 2 ^ e / 10 ^ E : ℚ)) (by positivity)
    rwa [hfloor', le_div_iff₀ (by positivity)] at this
  have lt_next : (m * 2 ^ e : ℚ) < (floor + 1) * 10 ^ E := by
    have := Nat.lt_floor_add_one (m * 2 ^ e / 10 ^ E : ℚ)
    rwa [hfloor', div_lt_iff₀ (by positivity)] at this
  have below : (ofMagnitude m e).contains (floor * Nat.pow 10 E.toNat) (Nat.pow 10 (-E).toNat) =
      true := by
    have he : (0 : ℚ) < 2 ^ e := by positivity
    have low : (m - reachBelow m e) * 2 ^ e < (floor * 10 ^ E : ℚ) := by
      have : 1 / 4 * 2 ^ e ≤ reachBelow m e * 2 ^ e :=
        mul_le_mul_of_nonneg_right (by unfold reachBelow; split <;> norm_num) he.le
      linarith
    have high : (floor * 10 ^ E : ℚ) < (m + 1 / 2) * 2 ^ e := by linarith
    exact (contains_grid_iff hm).2 ⟨low.le, high.le, fun h => h.elim (absurd · low.ne')
      (absurd · high.ne)⟩
  simp only [nearest?, hfloor, below]
  split
  · exact ⟨_, rfl⟩
  · exact ⟨_, rfl⟩

/-- The search succeeds if the last grid is fine enough. -/
theorem roundsTo_search (hm : 0 < m) {tries : Nat} {E : Int} (htries : 0 < tries)
    (fine : (10 : ℚ) ^ (E + 1 - tries) < 1 / 4 * 2 ^ e) :
    RoundsTo ((ofMagnitude m e).search tries E).value m e := by
  induction tries generalizing E with
  | zero => cases htries
  | succ tries ih =>
    rw [search]
    split
    · exact roundsTo_of_nearest? hm ‹_›
    · rename_i hnone
      have more : 0 < tries := Nat.pos_of_ne_zero fun h => by
        subst h
        obtain ⟨s, hs⟩ := exists_nearest? hm (E := E) (by simpa using fine)
        rw [hnone] at hs
        cases hs
      refine ih more ?_
      rwa [show E - 1 + 1 - (tries : Int) = E + 1 - (tries + 1 : Nat) by push_cast; ring]

end Interval

/-- The shortest decimal lies in the interval of the double. -/
theorem roundsTo_shortest (stored : Stored m e) (hm : 0 < m) :
    RoundsTo (shortest m e).value m e := by
  obtain ⟨hpos, hvalue, -⟩ := Interval.ofMagnitude_eq hm e
  have hpos' : (0 : ℚ) < (Interval.ofMagnitude m e).denominator := by exact_mod_cast hpos
  have hvalue' : 0 < (Interval.ofMagnitude m e).value := by
    have : (0 : ℚ) < (Interval.ofMagnitude m e).value := by
      rw [hvalue]
      positivity
    exact_mod_cast this
  have above := Interval.ten_pow_tenAbove_le _ hvalue' hpos
  rw [hvalue, mul_div_cancel_right₀ _ hpos'.ne'] at above
  rw [shortest, if_neg hm.ne', Scientific.value_trim]
  refine Interval.roundsTo_search hm (by decide) ?_
  -- eighteen digits are more than a mantissa has
  have hm53 : (m : ℚ) < 2 ^ 53 := by exact_mod_cast stored.lt
  have he : (0 : ℚ) < 2 ^ e := by positivity
  calc (10 : ℚ) ^ ((Interval.ofMagnitude m e).tenAbove - 1 + 1 - (18 : Nat))
      = 10 ^ ((Interval.ofMagnitude m e).tenAbove - 1) * 10 ^ (-17 : Int) := by
        rw [← zpow_add₀ (by norm_num)]
        congr 1
        push_cast
        ring
    _ ≤ m * 2 ^ e * 10 ^ (-17 : Int) := by gcongr
    _ < 2 ^ 53 * 2 ^ e * 10 ^ (-17 : Int) := by gcongr
    _ = 2 ^ 53 * 10 ^ (-17 : Int) * 2 ^ e := by ring
    _ ≤ 1 / 4 * 2 ^ e := by
        gcongr
        norm_num

end ScopeLang.Decimal
