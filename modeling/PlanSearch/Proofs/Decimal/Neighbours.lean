import PlanSearch.Proofs.Decimal.Reading

/-!
# Neighbouring floating point numbers

The finite magnitudes are numbered in order, and between each and the next lies an edge. What rounds to a magnitude is what
lies between the edges below and above it, and the edges themselves if its number is even, so that no two magnitudes with the
same sign share a real number that rounds to both.

    a.interval.Contains x → b.interval.Contains x → a.rank = b.rank                          (rank_eq_of_contains)
-/

namespace PlanSearch

namespace Binary64

/-! ## Bits -/

theorem fraction_eq (a : Binary64) : a.fraction = a.bits.toNat % 2 ^ 52 := by
  rw [fraction, UInt64.toNat_and]
  exact Nat.and_two_pow_sub_one_eq_mod _ 52

theorem biasedExponent_eq (a : Binary64) : a.biasedExponent = a.bits.toNat / 2 ^ 52 % 2 ^ 11 := by
  rw [biasedExponent, UInt64.toNat_and, UInt64.toNat_shiftRight]
  rw [show ((0x7FF : UInt64).toNat) = 2 ^ 11 - 1 from rfl, Nat.and_two_pow_sub_one_eq_mod, Nat.shiftRight_eq_div_pow]
  rfl

theorem isNegative_eq (a : Binary64) : a.isNegative = decide (2 ^ 63 ≤ a.bits.toNat) := by
  rw [isNegative, beq_eq_decide, decide_eq_decide, ← UInt64.toNat_inj, UInt64.toNat_shiftRight, Nat.shiftRight_eq_div_pow]
  have hbound := a.bits.toNat_lt
  show a.bits.toNat / 2 ^ 63 = 1 ↔ _
  omega

/-- The magnitudes are numbered by their bits but the sign. -/
def rank (a : Binary64) : ℕ := a.biasedExponent * 2 ^ 52 + a.fraction

theorem rank_eq (a : Binary64) : a.rank = a.bits.toNat % 2 ^ 63 := by
  rw [rank, fraction_eq, biasedExponent_eq]
  omega

/-- The sign and the magnitude make the number. -/
theorem eq_of_rank_eq {a b : Binary64} (hsign : a.isNegative = b.isNegative) (hrank : a.rank = b.rank) : a = b := by
  have ha := a.bits.toNat_lt
  have hb := b.bits.toNat_lt
  rw [isNegative_eq, isNegative_eq, decide_eq_decide] at hsign
  rw [rank_eq, rank_eq] at hrank
  have hbits : a.bits.toNat = b.bits.toNat := by omega
  exact congrArg Binary64.mk (UInt64.toNat_inj.1 hbits)

/-! ## Edges -/

/-- The integer that a magnitude is scaled from, by its number. -/
def mantissaAt (n : ℕ) : ℕ := if n < 2 ^ 52 then n else 2 ^ 52 + n % 2 ^ 52

/-- The power of two that a magnitude is scaled by, by its number. -/
def scaleAt (n : ℕ) : ℤ := if n < 2 ^ 52 then -1074 else (n / 2 ^ 52 : ℕ) - 1075

/-- What lies half-way between a magnitude and the next. -/
def edge (n : ℕ) : ℚ := (2 * mantissaAt n + 1) * (2 : ℚ) ^ (scaleAt n - 1)

theorem parts_eq (a : Binary64) : a.parts = (mantissaAt a.rank, scaleAt a.rank) := by
  have hfraction : a.fraction < 2 ^ 52 := by rw [fraction_eq]; exact Nat.mod_lt _ (by norm_num)
  unfold parts mantissaAt scaleAt rank
  split
  · next h => rw [h, Nat.zero_mul, Nat.zero_add, if_pos hfraction, if_pos hfraction]
  · next h =>
    have hlarge : ¬ a.biasedExponent * 2 ^ 52 + a.fraction < 2 ^ 52 := by omega
    have hmod : (a.biasedExponent * 2 ^ 52 + a.fraction) % 2 ^ 52 = a.fraction := by omega
    have hdiv : (a.biasedExponent * 2 ^ 52 + a.fraction) / 2 ^ 52 = a.biasedExponent := by omega
    rw [if_neg hlarge, if_neg hlarge, hmod, hdiv]
    norm_num

/-- One magnitude after the other: on the same scale, or first on the next one. -/
theorem succ_cases (n : ℕ) :
    (mantissaAt (n + 1) = mantissaAt n + 1 ∧ scaleAt (n + 1) = scaleAt n) ∨
    mantissaAt n = 2 ^ 53 - 1 ∧ mantissaAt (n + 1) = 2 ^ 52 ∧ scaleAt (n + 1) = scaleAt n + 1 := by
  unfold mantissaAt scaleAt
  by_cases hsmall : n < 2 ^ 52
  · refine .inl ?_
    rw [if_pos hsmall, if_pos hsmall]
    by_cases hlast : n + 1 < 2 ^ 52
    · rw [if_pos hlast, if_pos hlast]
      exact ⟨rfl, rfl⟩
    · rw [if_neg hlast, if_neg hlast]
      omega
  · have hsucc : ¬ n + 1 < 2 ^ 52 := by omega
    rw [if_neg hsmall, if_neg hsmall, if_neg hsucc, if_neg hsucc]
    omega

theorem edge_strictMono : StrictMono edge := by
  refine strictMono_nat_of_lt_succ fun n => ?_
  unfold edge
  rcases succ_cases n with ⟨hmantissa, hscale⟩ | ⟨hlast, hmantissa, hscale⟩
  · rw [hmantissa, hscale]
    push_cast
    gcongr
    linarith
  · rw [hlast, hmantissa, hscale, show scaleAt n + 1 - 1 = scaleAt n - 1 + 1 by ring, zpow_add_one₀ (by norm_num)]
    have hpos : (0 : ℚ) < (2 : ℚ) ^ (scaleAt n - 1) := by positivity
    push_cast
    nlinarith

theorem edge_pos (n : ℕ) : 0 < edge n := by
  unfold edge
  positivity

/-- The mantissa tells whether the number is even. -/
theorem mantissaAt_mod_two (n : ℕ) : mantissaAt n % 2 = n % 2 := by
  unfold mantissaAt
  split <;> omega

/-! ## Intervals -/

theorem powerOf_div (b : ℕ) (hb : 0 < b) (e : ℤ) : (powerOf b e : ℚ) / powerOf b (-e) = (b : ℚ) ^ e := by
  have hb' : (b : ℚ) ≠ 0 := by exact_mod_cast hb.ne'
  unfold powerOf
  show ((b ^ e.toNat : ℕ) : ℚ) / ((b ^ (-e).toNat : ℕ) : ℚ) = _
  push_cast
  rw [← zpow_natCast, ← zpow_natCast, ← zpow_sub₀ hb']
  congr 1
  omega

theorem powerOf_pos {b : ℕ} (hb : 0 < b) (e : ℤ) : 0 < powerOf b e := Nat.pow_pos hb

namespace Interval

variable (i : Interval)

/-- The lower end. -/
def lowEnd : ℚ := i.low / i.den

/-- The number that the interval is about. -/
def center : ℚ := i.value / i.den

/-- The upper end. -/
def highEnd : ℚ := i.high / i.den

/-- The number lies between the ends, or at one of them if they belong to the interval. -/
def Contains (x : ℚ) : Prop :=
  if i.closed then i.lowEnd ≤ x ∧ x ≤ i.highEnd else i.lowEnd < x ∧ x < i.highEnd

variable {i}

theorem Contains.bounds {x : ℚ} (h : i.Contains x) : i.lowEnd ≤ x ∧ x ≤ i.highEnd := by
  unfold Contains at h
  split at h
  · exact h
  · exact ⟨h.1.le, h.2.le⟩

theorem Contains.closed_of_eq {x : ℚ} (h : i.Contains x) (hend : x = i.lowEnd ∨ x = i.highEnd) : i.closed = true := by
  unfold Contains at h
  split at h
  · next hc => exact hc
  · rcases hend with rfl | rfl
    · exact absurd h.1 (lt_irrefl _)
    · exact absurd h.2 (lt_irrefl _)

end Interval

theorem interval_den_pos (a : Binary64) : 0 < a.interval.den := powerOf_pos (by norm_num) _

/-- What is counted in quarters of the last place. -/
theorem quarters (a : Binary64) (n : ℕ) :
    ((n * powerOf 2 (a.parts.2 - 2) : ℕ) : ℚ) / a.interval.den = n * (2 : ℚ) ^ (a.parts.2 - 2) := by
  have hden : a.interval.den = powerOf 2 (-(a.parts.2 - 2)) := by rw [neg_sub]; rfl
  rw [hden, ← Nat.cast_ofNat (R := ℚ) (n := 2), ← powerOf_div 2 (by norm_num)]
  push_cast
  ring

theorem center_eq (a : Binary64) : a.interval.center = mantissaAt a.rank * (2 : ℚ) ^ scaleAt a.rank := by
  have h := a.quarters (4 * a.parts.1)
  rw [Interval.center, show a.interval.value = 4 * a.parts.1 * powerOf 2 (a.parts.2 - 2) from rfl, h, parts_eq,
    zpow_sub₀ (by norm_num)]
  push_cast
  ring

/-- The upper end is the edge above. -/
theorem highEnd_eq (a : Binary64) : a.interval.highEnd = edge a.rank := by
  have h := a.quarters (4 * a.parts.1 + 2)
  rw [Interval.highEnd, show a.interval.high = (4 * a.parts.1 + 2) * powerOf 2 (a.parts.2 - 2) from rfl, h, parts_eq, edge,
    show scaleAt a.rank - 2 = scaleAt a.rank - 1 - 1 by ring, zpow_sub_one₀ (by norm_num)]
  push_cast
  ring

/-- The lower end is the edge below. -/
theorem lowEnd_eq {a : Binary64} (h : 0 < a.rank) : a.interval.lowEnd = edge (a.rank - 1) := by
  obtain ⟨n, hn⟩ : ∃ n, a.rank = n + 1 := ⟨a.rank - 1, by omega⟩
  have hlow : a.interval.lowEnd =
      ((4 * a.parts.1 - if a.fraction = 0 ∧ 1 < a.biasedExponent then 1 else 2 : ℕ) : ℚ) * (2 : ℚ) ^ (a.parts.2 - 2) :=
    a.quarters _
  have hfraction : a.fraction < 2 ^ 52 := by rw [fraction_eq]; exact Nat.mod_lt _ (by norm_num)
  have hrank : a.rank = a.biasedExponent * 2 ^ 52 + a.fraction := rfl
  rw [hlow, parts_eq, hn, Nat.add_sub_cancel, edge]
  rcases succ_cases n with ⟨hmantissa, hscale⟩ | ⟨hlast, hmantissa, hscale⟩
  · -- the magnitude below is on the same scale
    have hbelow : ¬ (a.fraction = 0 ∧ 1 < a.biasedExponent) := by
      rintro ⟨hzero, hexp⟩
      have hfirst : n % 2 ^ 52 = 2 ^ 52 - 1 := by omega
      have hmantissaAt : mantissaAt n = 2 ^ 53 - 1 := by
        rw [mantissaAt, if_neg (by omega), hfirst]
        norm_num
      have hnext : mantissaAt (n + 1) = 2 ^ 52 := by
        rw [mantissaAt, if_neg (by omega)]
        omega
      omega
    rw [if_neg hbelow, hmantissa, hscale, show scaleAt n - 2 = scaleAt n - 1 - 1 by ring, zpow_sub_one₀ (by norm_num),
      show 4 * (mantissaAt n + 1) - 2 = 4 * mantissaAt n + 2 by omega]
    push_cast
    ring
  · -- the magnitude below is the last one on the scale below
    have hbelow : a.fraction = 0 ∧ 1 < a.biasedExponent := by
      have hlarge : ¬ n < 2 ^ 52 := fun hsmall => by
        rw [mantissaAt, if_pos hsmall] at hlast
        omega
      rw [mantissaAt, if_neg hlarge] at hlast
      omega
    rw [if_pos hbelow, hmantissa, hscale, hlast, show scaleAt n + 1 - 2 = scaleAt n - 1 by ring]
    norm_num

theorem closed_eq (a : Binary64) : a.interval.closed = (a.rank % 2 == 0) := by
  rw [show a.interval.closed = (a.parts.1 % 2 == 0) from rfl, parts_eq, mantissaAt_mod_two]

/-- No number rounds to two magnitudes. -/
theorem rank_eq_of_contains {a b : Binary64} (ha : 0 < a.rank) (hb : 0 < b.rank) {x : ℚ} (hxa : a.interval.Contains x)
    (hxb : b.interval.Contains x) : a.rank = b.rank := by
  have hnot : ∀ {a b : Binary64}, 0 < b.rank → a.interval.Contains x → b.interval.Contains x → ¬ a.rank < b.rank := by
    intro a b hb hxa hxb hlt
    have hhigh : x ≤ edge a.rank := highEnd_eq a ▸ hxa.bounds.2
    have hlow : edge (b.rank - 1) ≤ x := lowEnd_eq hb ▸ hxb.bounds.1
    have hmono : edge a.rank ≤ edge (b.rank - 1) := edge_strictMono.monotone (by omega)
    have hnext : a.rank = b.rank - 1 := edge_strictMono.injective (le_antisymm hmono (hlow.trans hhigh))
    -- the edge that they share belongs to the even one of them only
    have hevena := hxa.closed_of_eq (.inr (highEnd_eq a ▸ le_antisymm hhigh (hmono.trans hlow)))
    have hevenb := hxb.closed_of_eq (.inl (lowEnd_eq hb ▸ le_antisymm (hhigh.trans hmono) hlow))
    rw [closed_eq, beq_iff_eq] at hevena hevenb
    omega
  exact le_antisymm (not_lt.1 (hnot ha hxb hxa)) (not_lt.1 (hnot hb hxa hxb))

end Binary64

end PlanSearch
