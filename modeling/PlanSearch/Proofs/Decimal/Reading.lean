import Mathlib
import PlanSearch.Decimal

/-!
# Reading decimal text

Positional text reads back as the number it was written for: the digits before the point and after it make one number, and
each digit after the point divides it by ten. So decimals of different value are written differently. Text of a decimal has
nothing in it but digits and a point.

    read d.positional.toList = d.value                                                              (read_positional)
-/

namespace PlanSearch

namespace Decimal

/-- The number that a decimal stands for. -/
def value (d : Decimal) : ℚ := d.digits * (10 : ℚ) ^ d.exponent

/-- The number that positional text stands for. -/
def read (cs : List Char) : ℚ :=
  Nat.ofDigitChars 10 (cs.takeWhile (· ≠ '.') ++ (cs.dropWhile (· ≠ '.')).drop 1) 0 /
    10 ^ ((cs.dropWhile (· ≠ '.')).drop 1).length

/-- Dropping zeros at the end of the digits changes nothing. -/
theorem value_stripZeros (n : ℕ) (d : Decimal) : (stripZeros n d).value = d.value := by
  induction n generalizing d with
  | zero => rfl
  | succ n ih =>
    rw [stripZeros]
    split
    · next h =>
      have hdigits : (d.digits : ℚ) = (d.digits / 10 : ℕ) * 10 := by
        exact_mod_cast (Nat.div_mul_cancel (Nat.dvd_of_mod_eq_zero h.2)).symm
      rw [ih, value, value, hdigits, zpow_add₀ (by norm_num)]
      ring
    · rfl

theorem isDigit_of_mem_digits {n : ℕ} {c : Char} (h : c ∈ Nat.toDigits 10 n) : c.isDigit = true :=
  Nat.isDigit_of_mem_toDigits (by decide) (by decide) h

/-- The characters of digits with zeros put before or after them. -/
theorem isDigit_of_mem_padded {n k : ℕ} {c : Char}
    (h : c ∈ Nat.toDigits 10 n ∨ c ∈ List.replicate k '0') : c.isDigit = true := by
  rcases h with h | h
  · exact isDigit_of_mem_digits h
  · rw [(List.mem_replicate.1 h).2]
    rfl

/-- Text is either whole, with zeros where digits are missing, or has a point before its last digits. -/
theorem positional_cases (d : Decimal) :
    (0 ≤ d.exponent ∧ d.positional.toList = Nat.toDigits 10 d.digits ++ List.replicate d.exponent.toNat '0') ∨
    d.exponent < 0 ∧ ∃ whole fraction, d.positional.toList = whole ++ '.' :: fraction ∧
      fraction.length = (-d.exponent).toNat ∧
      ∃ k, whole ++ fraction = List.replicate k '0' ++ Nat.toDigits 10 d.digits := by
  unfold positional
  dsimp only
  rw [Nat.toString_eq_repr, Nat.toList_repr]
  split
  · next h => exact .inl ⟨h, String.toList_ofList⟩
  · next h =>
    refine .inr ⟨Int.not_le.1 h, _, _, String.toList_ofList, ?_, _, List.take_append_drop _ _⟩
    rw [List.length_drop, List.length_append, List.length_replicate]
    omega

theorem mem_positional {d : Decimal} {c : Char} (h : c ∈ d.positional.toList) : c.isDigit = true ∨ c = '.' := by
  rcases d.positional_cases with ⟨-, htext⟩ | ⟨-, whole, fraction, htext, -, k, hdigits⟩
  · rw [htext, List.mem_append] at h
    exact .inl (isDigit_of_mem_padded h)
  · rw [htext, List.mem_append, List.mem_cons] at h
    have hpart : c ∈ whole ++ fraction → c.isDigit = true := fun hc => by
      rw [hdigits, List.mem_append] at hc
      exact isDigit_of_mem_padded hc.symm
    rcases h with h | h | h
    · exact .inl (hpart (List.mem_append_left _ h))
    · exact .inr h
    · exact .inl (hpart (List.mem_append_right _ h))

theorem ne_point_of_isDigit {c : Char} (h : c.isDigit = true) : (c ≠ '.') := by
  rintro rfl
  cases h

/-- Positional text reads back as the number it was written for. -/
theorem read_positional (d : Decimal) : read d.positional.toList = d.value := by
  rcases d.positional_cases with ⟨hexp, htext⟩ | ⟨hexp, whole, fraction, htext, hplaces, k, hdigits⟩
  · have hall : ∀ c ∈ d.positional.toList, decide (c ≠ '.') = true := by
      rw [htext]
      exact fun c hc => decide_eq_true (ne_point_of_isDigit (isDigit_of_mem_padded (List.mem_append.1 hc)))
    rw [read, List.takeWhile_eq_self_iff.2 hall, List.dropWhile_eq_nil_iff.2 hall, htext, value, List.drop_nil,
      List.append_nil, Nat.ofDigitChars_append, Nat.ofDigitChars_ten_toDigits, Nat.ofDigitChars_replicate_zero]
    obtain ⟨e, he⟩ := Int.eq_ofNat_of_zero_le hexp
    rw [he]
    push_cast
    simp [mul_comm]
  · have hwhole : ∀ c ∈ whole, decide (c ≠ '.') = true := by
      refine fun c hc => decide_eq_true (ne_point_of_isDigit (isDigit_of_mem_padded (k := k) (n := d.digits) ?_))
      exact (List.mem_append.1 (hdigits ▸ List.mem_append_left fraction hc)).symm
    have htake : (whole ++ '.' :: fraction).takeWhile (· ≠ '.') = whole := by
      rw [List.takeWhile_append_of_pos hwhole, List.takeWhile_cons_of_neg (by simp), List.append_nil]
    have hdrop : (whole ++ '.' :: fraction).dropWhile (· ≠ '.') = '.' :: fraction := by
      rw [List.dropWhile_append_of_pos hwhole, List.dropWhile_cons_of_neg (by simp)]
    obtain ⟨e, he⟩ : ∃ e : ℕ, d.exponent = -e := ⟨(-d.exponent).toNat, by omega⟩
    rw [read, htext, htake, hdrop, List.drop_one, List.tail_cons, hdigits, hplaces, value, Nat.ofDigitChars_append,
      Nat.ofDigitChars_replicate_zero, Nat.mul_zero, Nat.ofDigitChars_ten_toDigits, he, neg_neg, Int.toNat_natCast, zpow_neg,
      zpow_natCast, div_eq_mul_inv]

end Decimal

end PlanSearch
