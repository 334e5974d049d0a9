import PlanSearch.Proofs.Decimal.Neighbours

/-!
# The shortest text of a floating point number

The interval of what rounds to a number is wider than the spacing of the decimals with seventeen digits, so one of these is
in it and the search for the fewest digits finds something. What it finds rounds to the number and to no other, so that
numbers that are written alike are the same, but for those that are none at all.

    0 < a.rank → a.interval.Contains a.shortest.value                                              (contains_shortest)
    a.text = b.text ↔ a = b ∨ a.isNaN ∧ b.isNaN                                                         (text_eq_iff)
-/

namespace PlanSearch

namespace Binary64

namespace Interval

variable {i : Interval} {d : Decimal} {e : ℤ}

/-! ## Tests in exact arithmetic -/

theorem value_eq_div (d : Decimal) :
    d.value = ((d.digits * powerOf 10 d.exponent : ℕ) : ℚ) / (powerOf 10 (-d.exponent) : ℕ) := by
  rw [Decimal.value, ← Nat.cast_ofNat (R := ℚ) (n := 10), ← powerOf_div 10 (by norm_num)]
  push_cast
  ring

theorem holds_iff (hden : 0 < i.den) : i.holds d = true ↔ i.Contains d.value := by
  have hden' : (0 : ℚ) < i.den := by exact_mod_cast hden
  have hten : (0 : ℚ) < (powerOf 10 (-d.exponent) : ℕ) := by exact_mod_cast powerOf_pos (by norm_num) _
  unfold holds Contains lowEnd highEnd
  rw [value_eq_div, div_le_div_iff₀ hden' hten, div_le_div_iff₀ hten hden', div_lt_div_iff₀ hden' hten,
    div_lt_div_iff₀ hten hden']
  dsimp only
  split
  · rw [Bool.and_eq_true, decide_eq_true_eq, decide_eq_true_eq]
    norm_cast
  · rw [Bool.and_eq_true, decide_eq_true_eq, decide_eq_true_eq]
    norm_cast

/-- The number of the grid point below the center. -/
def floorOn (i : Interval) (e : ℤ) : ℕ := i.value * powerOf 10 (-e) / (i.den * powerOf 10 e)

/-- The center is between two neighbours on a grid. -/
theorem floorOn_spec (hden : 0 < i.den) (e : ℤ) : (i.floorOn e : ℚ) * (10 : ℚ) ^ e ≤ i.center ∧
    i.center < (i.floorOn e + 1) * (10 : ℚ) ^ e := by
  have hpos : (0 : ℚ) < (10 : ℚ) ^ e := by positivity
  have hgrid : ((i.value * powerOf 10 (-e) : ℕ) : ℚ) / ((i.den * powerOf 10 e : ℕ) : ℚ) = i.center / (10 : ℚ) ^ e := by
    rw [center, ← Nat.cast_ofNat (R := ℚ) (n := 10), ← powerOf_div 10 (by norm_num)]
    have hden' : (i.den : ℚ) ≠ 0 := by exact_mod_cast hden.ne'
    have hup : ((powerOf 10 e : ℕ) : ℚ) ≠ 0 := by exact_mod_cast (powerOf_pos (by norm_num) e).ne'
    have hdown : ((powerOf 10 (-e) : ℕ) : ℚ) ≠ 0 := by exact_mod_cast (powerOf_pos (by norm_num) (-e)).ne'
    push_cast
    field_simp
  have hfloor : i.floorOn e = ⌊i.center / (10 : ℚ) ^ e⌋₊ := by
    rw [← hgrid, Nat.floor_div_eq_div]
    rfl
  have hcenter : 0 ≤ i.center / (10 : ℚ) ^ e := by
    unfold center
    positivity
  rw [hfloor, ← le_div_iff₀ hpos, ← div_lt_iff₀ hpos]
  exact ⟨Nat.floor_le hcenter, Nat.lt_floor_add_one _⟩

/-! ## The search -/

theorem holds_of_onGrid (h : i.onGrid e = some d) : i.holds d = true := by
  unfold onGrid at h
  dsimp only at h
  split at h
  · next hlower hupper =>
    cases h
    split
    · exact hlower
    · exact hupper
  · next hlower _ => cases h; exact hlower
  · next _ hupper => cases h; exact hupper
  · cases h

/-- A grid that is finer than the interval is wide has a point in it. -/
theorem onGrid_ne_none (hden : 0 < i.den) (hlow : i.lowEnd < i.center) (hhigh : i.center < i.highEnd)
    (hfine : (10 : ℚ) ^ e < i.highEnd - i.lowEnd) : i.onGrid e ≠ none := by
  obtain ⟨hbelow, habove⟩ := floorOn_spec hden e
  intro hnone
  have hneither : i.holds ⟨i.floorOn e, e⟩ = false ∧ i.holds ⟨i.floorOn e + 1, e⟩ = false := by
    unfold onGrid at hnone
    dsimp only at hnone
    split at hnone
    · cases hnone
    · cases hnone
    · cases hnone
    · next hlower hupper => exact ⟨hlower, hupper⟩
  have houtside : ∀ x : ℚ, ¬ i.Contains x → x ≤ i.lowEnd ∨ i.highEnd ≤ x := by
    intro x hx
    by_contra hinside
    push Not at hinside
    unfold Contains at hx
    split at hx
    · exact hx ⟨hinside.1.le, hinside.2.le⟩
    · exact hx hinside
  have hlower := houtside _ fun h => Bool.eq_false_iff.1 hneither.1 ((holds_iff hden).2 h)
  have hupper := houtside _ fun h => Bool.eq_false_iff.1 hneither.2 ((holds_iff hden).2 h)
  simp only [Decimal.value] at hlower hupper
  push_cast at hupper
  rcases hlower with hlower | hlower
  · rcases hupper with hupper | hupper
    · linarith
    · linarith
  · linarith

/-- A point on one of the grids that are searched is enough. -/
theorem holds_firstHit {n k : ℕ} (hk : k < n) (h : i.onGrid (e - k) ≠ none) : i.holds (i.firstHit n e) = true := by
  induction n generalizing e k with
  | zero => exact absurd hk (Nat.not_lt_zero k)
  | succ n ih =>
    rw [firstHit]
    split
    · next d hd => exact holds_of_onGrid hd
    · next hnone =>
      cases k with
      | zero => exact absurd hnone (by simpa using h)
      | succ k =>
        refine ih (Nat.lt_of_succ_lt_succ hk) ?_
        rwa [show e - 1 - k = e - (k + 1 : ℕ) by push_cast; ring]

/-- The power of ten below the one that is found is not above the center, unless that was the first one tried. -/
theorem magnitude_cases (hden : 0 < i.den) (n : ℕ) (k : ℤ) :
    i.magnitude n k = k ∨ (10 : ℚ) ^ (i.magnitude n k - 1) ≤ i.center := by
  induction n generalizing k with
  | zero => exact .inl rfl
  | succ n ih =>
    rw [magnitude]
    split
    · exact .inl rfl
    · next hnot =>
      have hden' : (0 : ℚ) < i.den := by exact_mod_cast hden
      have hdown : (0 : ℚ) < (powerOf 10 (-k) : ℕ) := by exact_mod_cast powerOf_pos (by norm_num) _
      have hk : (10 : ℚ) ^ k ≤ i.center := by
        rw [center, ← Nat.cast_ofNat (R := ℚ) (n := 10), ← powerOf_div 10 (by norm_num), div_le_div_iff₀ hdown hden']
        exact_mod_cast not_lt.1 hnot
      rcases ih (k + 1) with heq | hle
      · rw [heq, add_sub_cancel_right]
        exact .inr hk
      · exact .inr hle

end Interval

/-! ## Seventeen digits -/

variable {a b : Binary64}

theorem mantissaAt_lt (n : ℕ) : mantissaAt n < 2 ^ 53 := by
  unfold mantissaAt
  split <;> omega

theorem scaleAt_ge (n : ℕ) : -1074 ≤ scaleAt n := by
  unfold scaleAt
  split
  · exact le_refl _
  · next h =>
    have hdiv : 1 ≤ n / 2 ^ 52 := by omega
    omega

/-- The interval reaches half a unit of the last place up, and as much down, or half of that if the magnitude is the first one
on its scale. -/
theorem width (h : 0 < a.rank) : a.interval.lowEnd < a.interval.center ∧ a.interval.center < a.interval.highEnd ∧
    ∃ m : ℚ, a.interval.center = m * (2 : ℚ) ^ (scaleAt a.rank - 2) ∧
      ((3 : ℚ) * (2 : ℚ) ^ (scaleAt a.rank - 2) ≤ a.interval.highEnd - a.interval.lowEnd ∧ m ≤ 2 ^ 54 ∨
        (4 : ℚ) * (2 : ℚ) ^ (scaleAt a.rank - 2) ≤ a.interval.highEnd - a.interval.lowEnd ∧ m ≤ 2 ^ 55) := by
  obtain ⟨n, hn⟩ : ∃ n, a.rank = n + 1 := ⟨a.rank - 1, by omega⟩
  have hbound : ((mantissaAt (n + 1) : ℕ) : ℚ) ≤ 2 ^ 53 := by exact_mod_cast (mantissaAt_lt (n + 1)).le
  rw [lowEnd_eq h, highEnd_eq, center_eq, hn, Nat.add_sub_cancel]
  unfold edge
  have hunit : ∀ s : ℤ, (2 : ℚ) ^ s = 4 * (2 : ℚ) ^ (s - 2) ∧ (2 : ℚ) ^ (s - 1) = 2 * (2 : ℚ) ^ (s - 2) := by
    intro s
    have htwo : (2 : ℚ) ^ (s - 1) = (2 : ℚ) ^ (s - 2) * 2 := by
      rw [← zpow_add_one₀ (by norm_num)]
      congr 1
      ring
    have hfour : (2 : ℚ) ^ s = (2 : ℚ) ^ (s - 1) * 2 := by
      rw [← zpow_add_one₀ (by norm_num)]
      congr 1
      ring
    constructor <;> linarith
  obtain ⟨hone, htwo⟩ := hunit (scaleAt (n + 1))
  have hpos : (0 : ℚ) < (2 : ℚ) ^ (scaleAt (n + 1) - 2) := by positivity
  rcases succ_cases n with ⟨hmantissa, hscale⟩ | ⟨hlast, hmantissa, hscale⟩
  · rw [← hscale, hone, htwo]
    rw [hmantissa] at hbound ⊢
    push_cast at hbound ⊢
    refine ⟨by nlinarith, by nlinarith, 4 * (mantissaAt n + 1), by ring, .inr ⟨by nlinarith, by linarith⟩⟩
  · rw [hlast, hmantissa, show scaleAt n - 1 = scaleAt (n + 1) - 2 by rw [hscale]; ring, hone, htwo]
    push_cast
    refine ⟨by nlinarith, by nlinarith, 4 * 2 ^ 52, by ring, .inl ⟨by nlinarith, by norm_num⟩⟩

/-- The decimals with seventeen digits are closer to each other than the interval is wide. -/
theorem seventeen_digits (h : 0 < a.rank) :
    (10 : ℚ) ^ (a.interval.magnitude 640 (-324) - 1 - (16 : ℕ)) < a.interval.highEnd - a.interval.lowEnd := by
  obtain ⟨-, -, m, hcenter, hwidth⟩ := width h
  have hpos : (0 : ℚ) < (2 : ℚ) ^ (scaleAt a.rank - 2) := by positivity
  rcases Interval.magnitude_cases a.interval_den_pos 640 (-324) with hfirst | hbelow
  · -- the grid is finer than any interval
    have hleast : (2 : ℚ) ^ (-1076 : ℤ) ≤ (2 : ℚ) ^ (scaleAt a.rank - 2) :=
      zpow_le_zpow_right₀ (by norm_num) (by linarith [scaleAt_ge a.rank])
    have hpowers : (2 : ℚ) ^ 1076 < 10 ^ 341 :=
      calc (2 : ℚ) ^ 1076 ≤ 2 ^ (13 * 83) := pow_le_pow_right₀ (by norm_num) (by norm_num)
        _ = (2 ^ 13) ^ 83 := pow_mul _ _ _
        _ ≤ (10 ^ 4) ^ 83 := pow_le_pow_left₀ (by norm_num) (by norm_num) _
        _ = 10 ^ (4 * 83) := (pow_mul _ _ _).symm
        _ < 10 ^ 341 := pow_lt_pow_right₀ (by norm_num) (by norm_num)
    have hgrid : (10 : ℚ) ^ (-324 - 1 - ((16 : ℕ) : ℤ)) < (2 : ℚ) ^ (-1076 : ℤ) := by
      rw [show (-324 - 1 - ((16 : ℕ) : ℤ)) = -((341 : ℕ) : ℤ) by norm_num,
        show (-1076 : ℤ) = -((1076 : ℕ) : ℤ) by norm_num, zpow_neg, zpow_neg, zpow_natCast, zpow_natCast]
      exact inv_strictAnti₀ (by positivity) hpowers
    rw [hfirst]
    rcases hwidth with ⟨hwidth, -⟩ | ⟨hwidth, -⟩ <;> linarith
  · have hgrid : (10 : ℚ) ^ (a.interval.magnitude 640 (-324) - 1 - ((16 : ℕ) : ℤ)) * 10 ^ 16 ≤ a.interval.center := by
      rw [zpow_sub₀ (by norm_num), zpow_natCast, div_mul_cancel₀ _ (by norm_num)]
      exact hbelow
    rw [hcenter] at hgrid
    rcases hwidth with ⟨hwidth, hm⟩ | ⟨hwidth, hm⟩ <;> nlinarith

/-- What is written rounds to the number. -/
theorem contains_shortest (h : 0 < a.rank) : a.interval.Contains a.shortest.value := by
  obtain ⟨hlow, hhigh, -⟩ := width h
  have hfound : a.interval.onGrid (a.interval.magnitude 640 (-324) - 1 - (16 : ℕ)) ≠ none :=
    Interval.onGrid_ne_none a.interval_den_pos hlow hhigh (seventeen_digits h)
  have hholds := Interval.holds_firstHit (by norm_num : 16 < 17) hfound
  rw [Interval.holds_iff a.interval_den_pos] at hholds
  rw [shortest, Decimal.value_stripZeros]
  exact hholds

/-! ## Texts -/

theorem isZero_iff : a.isZero = true ↔ a.rank = 0 := by
  rw [isZero, Bool.and_eq_true, beq_iff_eq, beq_iff_eq, rank]
  omega

theorem value_shortest_pos (h : 0 < a.rank) : 0 < a.shortest.value := by
  have hlow := (contains_shortest h).bounds.1
  rw [lowEnd_eq h] at hlow
  exact lt_of_lt_of_le (edge_pos _) hlow

/-- The text without the sign. -/
def unsignedText (a : Binary64) : String :=
  if a.biasedExponent = 2047 then "inf" else if a.isZero then "0" else a.shortest.positional

theorem text_of_isNaN (h : a.isNaN = true) : a.text = "NaN" := by
  rw [text, if_pos h]

theorem text_of_not_isNaN (h : a.isNaN = false) : a.text = (if a.isNegative then "-" else "") ++ a.unsignedText := by
  rw [text, if_neg (by simp [h]), unsignedText]
  dsimp only
  split
  · rfl
  · split <;> rfl

/-- Text without a sign is that of what has no end, or holds nothing but digits and a point. -/
theorem unsignedText_cases (a : Binary64) : a.biasedExponent = 2047 ∧ a.unsignedText.toList = ['i', 'n', 'f'] ∨
    a.biasedExponent ≠ 2047 ∧ a.unsignedText.toList ≠ [] ∧ ∀ c ∈ a.unsignedText.toList, c.isDigit = true ∨ c = '.' := by
  unfold unsignedText
  split
  · next h => exact .inl ⟨h, rfl⟩
  · next h =>
    refine .inr ⟨h, ?_⟩
    split
    · rw [show "0".toList = ['0'] from rfl]
      exact ⟨List.cons_ne_nil _ _, fun c hc => .inl (List.mem_singleton.1 hc ▸ rfl)⟩
    · refine ⟨fun hnil => ?_, fun c => Decimal.mem_positional⟩
      rcases a.shortest.positional_cases with ⟨-, htext⟩ | ⟨-, whole, fraction, htext, -⟩
      · rw [htext] at hnil
        exact Nat.toDigits_ne_nil (List.append_eq_nil_iff.1 hnil).1
      · rw [htext] at hnil
        cases (List.append_eq_nil_iff.1 hnil).2

/-- What is finite reads back as what rounds to it. -/
theorem read_unsignedText (h : a.biasedExponent ≠ 2047) : a.rank = 0 ∧ Decimal.read a.unsignedText.toList = 0 ∨
    0 < a.rank ∧ Decimal.read a.unsignedText.toList = a.shortest.value := by
  rw [unsignedText, if_neg h]
  split
  · next hzero =>
    have hread := Decimal.read_positional ⟨0, 0⟩
    rw [show (⟨0, 0⟩ : Decimal).positional = "0" by decide, Decimal.value, Nat.cast_zero, zero_mul] at hread
    exact .inl ⟨isZero_iff.1 hzero, hread⟩
  · next hzero =>
    rw [isZero_iff] at hzero
    exact .inr ⟨Nat.pos_of_ne_zero hzero, Decimal.read_positional _⟩

/-- Text without a sign tells the magnitude. -/
theorem rank_eq_of_unsignedText_eq (ha : a.isNaN = false) (hb : b.isNaN = false) (h : a.unsignedText = b.unsignedText) :
    a.rank = b.rank := by
  have hfraction : ∀ {a : Binary64}, a.isNaN = false → a.biasedExponent = 2047 → a.fraction = 0 := by
    intro a hnan hexp
    rw [isNaN, hexp] at hnan
    simpa using hnan
  rcases a.unsignedText_cases with ⟨hexp, htext⟩ | ⟨hexp, -, hall⟩ <;>
    rcases b.unsignedText_cases with ⟨hexp', htext'⟩ | ⟨hexp', -, hother⟩
  · rw [rank, rank, hexp, hexp', hfraction ha hexp, hfraction hb hexp']
  · rw [← h, htext] at hother
    exact absurd (hother 'i' List.mem_cons_self) (by decide)
  · rw [h, htext'] at hall
    exact absurd (hall 'i' List.mem_cons_self) (by decide)
  · rcases read_unsignedText hexp with ⟨hrank, hread⟩ | ⟨hrank, hread⟩ <;>
      rcases read_unsignedText hexp' with ⟨hrank', hread'⟩ | ⟨hrank', hread'⟩
    · rw [hrank, hrank']
    · rw [← h, hread] at hread'
      exact absurd hread' (value_shortest_pos hrank').ne
    · rw [h, hread'] at hread
      exact absurd hread (value_shortest_pos hrank).ne
    · rw [h, hread'] at hread
      exact rank_eq_of_contains hrank hrank' (contains_shortest hrank) (hread ▸ contains_shortest hrank')

/-- In what a text of a number consists of there is no parenthesis, and it starts with none of the characters that other
values start with. -/
theorem text_chars (a : Binary64) : '(' ∉ a.text.toList ∧
    ∃ c cs, a.text.toList = c :: cs ∧ (c.isDigit = true ∨ c ∈ ['.', '-', 'i', 'N']) := by
  cases hnan : a.isNaN with
  | true =>
    rw [text_of_isNaN hnan]
    exact ⟨by decide, 'N', ['a', 'N'], rfl, .inr (by decide)⟩
  | false =>
    have hunsigned : '(' ∉ a.unsignedText.toList ∧
        ∃ c cs, a.unsignedText.toList = c :: cs ∧ (c.isDigit = true ∨ c ∈ ['.', '-', 'i', 'N']) := by
      rcases a.unsignedText_cases with ⟨-, htext⟩ | ⟨-, hne, hall⟩
      · rw [htext]
        exact ⟨by decide, 'i', ['n', 'f'], rfl, .inr (by decide)⟩
      · refine ⟨fun hmem => absurd (hall '(' hmem) (by decide), ?_⟩
        obtain ⟨c, cs, hcons⟩ := List.exists_cons_of_ne_nil hne
        refine ⟨c, cs, hcons, (hall c (hcons ▸ List.mem_cons_self)).imp_right ?_⟩
        rintro rfl
        exact List.mem_cons_self
    rw [text_of_not_isNaN hnan, String.toList_append]
    cases a.isNegative with
    | false => exact hunsigned
    | true => exact ⟨by simpa using hunsigned.1, '-', a.unsignedText.toList, rfl, .inr (by decide)⟩

/-- A sign is seen from the text. -/
theorem minus_mem_text_iff (h : a.isNaN = false) : '-' ∈ a.text.toList ↔ a.isNegative = true := by
  have hnone : '-' ∉ a.unsignedText.toList := by
    rcases a.unsignedText_cases with ⟨-, htext⟩ | ⟨-, -, hall⟩
    · rw [htext]
      decide
    · exact fun hmem => absurd (hall '-' hmem) (by decide)
  rw [text_of_not_isNaN h, String.toList_append]
  cases a.isNegative with
  | false => simpa using hnone
  | true => simp

theorem capital_mem_text_iff : 'N' ∈ a.text.toList ↔ a.isNaN = true := by
  cases h : a.isNaN with
  | true =>
    rw [text_of_isNaN h]
    decide
  | false =>
    have hnone : 'N' ∉ a.unsignedText.toList := by
      rcases a.unsignedText_cases with ⟨-, htext⟩ | ⟨-, -, hall⟩
      · rw [htext]
        decide
      · exact fun hmem => absurd (hall 'N' hmem) (by decide)
    rw [text_of_not_isNaN h, String.toList_append]
    cases a.isNegative <;> simpa using hnone

/-- Numbers are written alike only if they are the same, or if they are none. -/
theorem text_eq_iff : a.text = b.text ↔ a = b ∨ a.isNaN = true ∧ b.isNaN = true := by
  constructor
  · intro h
    have hnan : a.isNaN = b.isNaN := by
      rw [Bool.eq_iff_iff, ← capital_mem_text_iff, ← capital_mem_text_iff, h]
    cases ha : a.isNaN with
    | true => exact .inr ⟨rfl, hnan ▸ ha⟩
    | false =>
      have hb : b.isNaN = false := hnan ▸ ha
      have hsign : a.isNegative = b.isNegative := by
        rw [Bool.eq_iff_iff, ← minus_mem_text_iff ha, ← minus_mem_text_iff hb, h]
      rw [text_of_not_isNaN ha, text_of_not_isNaN hb, hsign] at h
      exact .inl (eq_of_rank_eq hsign (rank_eq_of_unsignedText_eq ha hb (String.append_right_inj _ |>.1 h)))
  · rintro (rfl | ⟨ha, hb⟩)
    · rfl
    · rw [text_of_isNaN ha, text_of_isNaN hb]

/-- A number that is not a negative zero is its own key. -/
theorem canon_eq_self (hnan : a.isNaN = false) (hsign : a.isZero = true → a.isNegative = false) : a.canon = a := by
  rw [canon, hnan, if_neg Bool.false_ne_true]
  split
  · rename_i hzero
    refine eq_of_rank_eq (hsign hzero).symm (Eq.symm ?_)
    rw [isZero_iff.1 hzero]
    rfl
  · rfl

end Binary64

end PlanSearch
