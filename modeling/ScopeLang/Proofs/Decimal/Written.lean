import ScopeLang.Decimal.Style
import ScopeLang.Proofs.Decimal.Nearest
import ScopeLang.Proofs.Decimal.Shortest
import ScopeLang.Proofs.Token.Lexeme

/-!
# What is written of a double is read as this double

A finite double is written with the digits of its shortest decimal, positionally. These digits have
the value of the decimal, which lies in the interval of the double, so the double is what they are
read as.

## Main definitions

* `Writes` — a text is a number with this value.

## Main statements

* `Scientific.writes_positionalText` — a decimal is written as a number that has its value.
* `lexeme_plain` — the text of a finite double is read as this double.
-/

namespace ScopeLang.Decimal

variable {x : Float} {m : Nat} {e : Int}

/-- The double is finite and has no minus sign. -/
def isFiniteNonneg (x : Float) : Bool :=
  !isNegative x && (match magnitude x with
    | .finite _ _ => true
    | .infinite | .undefined => false)

theorem digitsValue_eq (l : List Char) : digitsValue l = Nat.ofDigitChars 10 l 0 :=
  Nat.ofDigitChars_eq_foldl.symm

theorem isDigit_of_mem_toDigits {n : Nat} {c : Char} (hc : c ∈ Nat.toDigits 10 n) :
    isDigit c = true := by
  have := Nat.isDigit_of_mem_toDigits (by decide) (by decide) hc
  simp only [Char.isDigit, Bool.and_eq_true, decide_eq_true_eq] at this
  simp only [isDigit, Bool.and_eq_true, decide_eq_true_eq]
  exact this

/-! ### Positional texts -/

/-- The text is a number, and its digits have this value. -/
def Writes (text : List Char) (q : ℚ) : Prop := ∃ whole fraction,
  Lexeme text (.number (ofDigits whole fraction)) ∧
    digitsValue (whole ++ fraction) / 10 ^ fraction.length = q

theorem isDigit_of_mem_zeros {n : Nat} : ∀ c ∈ List.replicate n '0', isDigit c = true := by
  intro c hc
  rw [List.eq_of_mem_replicate hc]
  decide

section

variable {l : List Char} (hl : ∀ c ∈ l, isDigit c = true) (n : Nat)

include hl

/-- Zeros behind the digits. -/
theorem writes_append_zeros (hne : l ≠ []) :
    Writes (l ++ List.replicate n '0') ((digitsValue l : ℚ) * 10 ^ n) := by
  have digits := List.forall_mem_append.2 ⟨hl, isDigit_of_mem_zeros (n := n)⟩
  refine ⟨_, [], .whole (by simp [hne]) digits, ?_⟩
  rw [List.append_nil, List.length_nil, pow_zero, div_one, digitsValue_eq,
    Nat.ofDigitChars_append, Nat.ofDigitChars_replicate_zero, ← digitsValue_eq]
  push_cast
  ring

/-- The point among the digits. -/
theorem writes_point (hn : n < l.length) : Writes
    (l.take (l.length - n) ++ '.' :: l.drop (l.length - n)) ((digitsValue l : ℚ) / 10 ^ n) := by
  have some : l.take (l.length - n) ≠ [] :=
    List.ne_nil_of_length_pos (by rw [List.length_take]; omega)
  refine ⟨_, _, .decimal some (fun c hc => hl c (List.mem_of_mem_take hc))
    fun c hc => hl c (List.mem_of_mem_drop hc), ?_⟩
  rw [List.take_append_drop, List.length_drop]
  congr 2
  omega

/-- The point and zeros in front of the digits. -/
theorem writes_zeros_append (hn : l.length ≤ n) : Writes
    (['0'] ++ '.' :: (List.replicate (n - l.length) '0' ++ l)) ((digitsValue l : ℚ) / 10 ^ n) := by
  have digits := List.forall_mem_append.2 ⟨isDigit_of_mem_zeros (n := n - l.length), hl⟩
  refine ⟨_, _, .decimal (by simp) (isDigit_of_mem_zeros (n := 1)) digits, ?_⟩
  have zero : Nat.ofDigitChars 10 ['0'] 0 = 0 := rfl
  rw [digitsValue_eq, Nat.ofDigitChars_append, zero, Nat.ofDigitChars_append,
    Nat.ofDigitChars_replicate_zero, Nat.mul_zero, ← digitsValue_eq, List.length_append,
    List.length_replicate]
  congr 2
  omega

end

/-- A decimal is written with digits, possibly with a point among them, that have its value. -/
theorem Scientific.writes_positionalText (d : Scientific) :
    Writes (d.positionalText plainStyle).toList d.value := by
  have digits : d.digitText.toList = Nat.toDigits 10 d.digits := Nat.toList_repr
  have hne : d.digitText.toList ≠ [] := digits ▸ Nat.toDigits_ne_nil
  have hl : ∀ c ∈ d.digitText.toList, isDigit c = true := fun c hc =>
    isDigit_of_mem_toDigits (digits ▸ hc)
  have value : d.value = digitsValue d.digitText.toList * 10 ^ d.exponent := by
    rw [digitsValue_eq, digits, Nat.ofDigitChars_ten_toDigits, Scientific.value]
  rw [value]
  simp only [positionalText, plainStyle, zeros]
  generalize d.digitText = text at hne hl
  have length : text.length = text.toList.length := String.length_toList.symm
  split
  · obtain ⟨n, hn⟩ : ∃ n : Nat, d.exponent = n := ⟨d.exponent.toNat, by omega⟩
    simpa [hn] using writes_append_zeros hl n hne
  · rename_i hplaces
    obtain ⟨n, hn⟩ : ∃ n : Nat, d.exponent = -n := ⟨(-d.exponent).toNat, by omega⟩
    have places : (-d.exponent).toNat = n := by omega
    rw [places] at hplaces ⊢
    rw [hn, zpow_neg, zpow_natCast, ← div_eq_mul_inv]
    split
    · rename_i hlt
      simpa [length] using writes_point hl n (length ▸ hlt)
    · rename_i hge
      simpa [length] using writes_zeros_append hl n (length ▸ Nat.le_of_not_lt hge)

/-! ### Doubles -/

theorem plain_eq (hx : isNegative x = false) (h : magnitude x = .finite m e) :
    plain x = (shortest m e).positionalText plainStyle := by
  simp [plain, render, hx, h, plainStyle]

theorem toBits_ofDigits_zero : (ofDigits ['0'] []).toBits = 0 := by decide +kernel

/-- The text of a finite double without a sign is read as this double. -/
theorem lexeme_plain (hx : isFiniteNonneg x = true) : Lexeme (plain x).toList (.number x) := by
  rw [isFiniteNonneg, Bool.and_eq_true, Bool.not_eq_true'] at hx
  obtain ⟨sign, hx⟩ := hx
  split at hx
  · rename_i m e hmagnitude
    rw [plain_eq sign hmagnitude]
    rcases Nat.eq_zero_or_pos m with rfl | hm
    · have text : ((shortest 0 e).positionalText plainStyle).toList = ['0'] := by
        rw [shortest, if_pos rfl]
        decide
      have same : x = ofDigits ['0'] [] :=
        Float.toBits_inj.1 ((toBits_eq_zero sign hmagnitude).trans toBits_ofDigits_zero.symm)
      rw [text, same]
      exact .whole (by decide) (isDigit_of_mem_zeros (n := 1))
    · obtain ⟨stored, -, -⟩ := eq_ofModel_pack sign hmagnitude
      obtain ⟨whole, fraction, lexeme, hvalue⟩ := (shortest m e).writes_positionalText
      rwa [← ofDigits_eq sign hmagnitude hm (hvalue ▸ roundsTo_shortest stored hm)]
  · cases hx
  · cases hx

end ScopeLang.Decimal
