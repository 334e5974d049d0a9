/-!
# Decimal text of 64-bit floating point numbers

A number is kept as its 64 bits, so that equality of numbers is decidable and a zero keeps its sign.
It is written with the fewest decimal digits that read back as the same number, always in
positional notation, without a point when it is whole. The digits are found in exact arithmetic:
on the grids of one digit, two digits and so on, the two neighbours of the number are tested against
the interval of reals that round to it. The first grid with a hit wins; of two hits the nearer, and
of two equally near ones the greater.

    (a.canon).canon = a.canon        (Binary64.canon_canon)
-/

namespace PlanSearch

/-- The number `digits * 10 ^ exponent`. -/
structure Decimal where
  digits : Nat
  exponent : Int
deriving DecidableEq

namespace Decimal

/-- Drops up to `n` zeros at the end of the digits. -/
def stripZeros : Nat → Decimal → Decimal
  | 0, d => d
  | n + 1, d =>
    if d.digits ≠ 0 ∧ d.digits % 10 = 0 then stripZeros n ⟨d.digits / 10, d.exponent + 1⟩ else d

/-- The digits with a point in its place and zeros where digits are missing. -/
def positional (d : Decimal) : String :=
  let ds := (toString d.digits).toList
  if 0 ≤ d.exponent then
    String.ofList (ds ++ List.replicate d.exponent.toNat '0')
  else
    let places := (-d.exponent).toNat
    let padded := List.replicate (places + 1 - ds.length) '0' ++ ds
    let whole := padded.length - places
    String.ofList (padded.take whole ++ '.' :: padded.drop whole)

end Decimal

/-- The bits of a floating point number: sign, eleven bits of exponent, 52 bits of fraction. -/
structure Binary64 where
  bits : UInt64
deriving DecidableEq

namespace Binary64

/-- The bits of a number. -/
def ofFloat (x : Float) : Binary64 := ⟨x.toBits⟩

/-- The number with these bits. -/
def toFloat (a : Binary64) : Float := Float.ofBits a.bits

/-- Whether the sign bit is set. -/
def isNegative (a : Binary64) : Bool := a.bits >>> 63 == 1

/-- The eleven bits of the exponent. -/
def biasedExponent (a : Binary64) : Nat := (a.bits >>> 52 &&& 0x7FF).toNat

/-- The 52 bits of the fraction. -/
def fraction (a : Binary64) : Nat := (a.bits &&& 0xFFFFFFFFFFFFF).toNat

/-- Whether the bits stand for no number. -/
def isNaN (a : Binary64) : Bool := a.biasedExponent == 2047 && a.fraction != 0

/-- Whether the number is a zero of either sign. -/
def isZero (a : Binary64) : Bool := a.biasedExponent == 0 && a.fraction == 0

/-- The number as a key: the two zeros are one, and so are all values that are not numbers. -/
def canon (a : Binary64) : Binary64 :=
  if a.isNaN then ⟨0x7FF8000000000000⟩ else if a.isZero then ⟨0⟩ else a

/-- The integer `m` and the exponent `q` with `a = m * 2 ^ q` up to sign, for a finite number. -/
def parts (a : Binary64) : Nat × Int :=
  if a.biasedExponent = 0 then (a.fraction, -1074)
  else (0x10000000000000 + a.fraction, (a.biasedExponent : Int) - 1075)

/-! ## The fewest digits -/

/-- The power of a base, or one where the exponent is negative: a scale is a quotient of two of
them, to an exponent and to its negative. -/
def powerOf (base : Nat) (exponent : Int) : Nat := Nat.pow base exponent.toNat

/-- Four times a finite magnitude, with the ends of the interval of reals that round to it, as
numerators over one denominator. The ends belong to the interval iff `closed`. -/
structure Interval where
  low : Nat
  value : Nat
  high : Nat
  den : Nat
  closed : Bool

/-- The neighbour below is nearer at the powers of two, where the spacing changes. -/
def interval (a : Binary64) : Interval :=
  let (m, q) := a.parts
  let below := if a.fraction = 0 ∧ 1 < a.biasedExponent then 1 else 2
  let up := powerOf 2 (q - 2)
  { low := (4 * m - below) * up
    value := 4 * m * up
    high := (4 * m + 2) * up
    den := powerOf 2 (2 - q)
    closed := m % 2 == 0 }

namespace Interval

/-- Whether `digits * 10 ^ exponent` rounds to the number. -/
def holds (i : Interval) (d : Decimal) : Bool :=
  let num := d.digits * powerOf 10 d.exponent * i.den
  let ten := powerOf 10 (-d.exponent)
  if i.closed then i.low * ten ≤ num && num ≤ i.high * ten
  else i.low * ten < num && num < i.high * ten

/-- The least exponent from `k` on, within `n` steps, whose power of ten is above the number. -/
def magnitude (i : Interval) : Nat → Int → Int
  | 0, k => k
  | n + 1, k =>
    if i.value * powerOf 10 (-k) < powerOf 10 k * i.den then k else magnitude i n (k + 1)

/-- The better of the two neighbours of the number on the grid of spacing `10 ^ e`. -/
def onGrid (i : Interval) (e : Int) : Option Decimal :=
  let num := i.value * powerOf 10 (-e)
  let den := i.den * powerOf 10 e
  let floor := num / den
  let lower : Decimal := ⟨floor, e⟩
  let upper : Decimal := ⟨floor + 1, e⟩
  match i.holds lower, i.holds upper with
  | true, true => some (if 2 * (num % den) < den then lower else upper)
  | true, false => some lower
  | false, true => some upper
  | false, false => none

/-- The first hit on the grids of `10 ^ e`, `10 ^ (e - 1)` and so on. -/
def firstHit (i : Interval) : Nat → Int → Decimal
  | 0, e => ⟨0, e⟩
  | n + 1, e =>
    match i.onGrid e with
    | some d => d
    | none => firstHit i n (e - 1)

end Interval

/-- The shortest decimal that reads back as the magnitude of a finite number other than zero.
Seventeen digits always suffice, and no magnitude lies outside `10 ^ -324` to `10 ^ 309`. -/
def shortest (a : Binary64) : Decimal :=
  let i := a.interval
  let k := i.magnitude 640 (-324)
  (i.firstHit 17 (k - 1)).stripZeros 17

/-- The text of a number. -/
def text (a : Binary64) : String :=
  if a.isNaN then "NaN"
  else
    let sign := if a.isNegative then "-" else ""
    if a.biasedExponent = 2047 then sign ++ "inf"
    else if a.isZero then sign ++ "0"
    else sign ++ a.shortest.positional

/-! ## Lemmas -/

theorem isNaN_canon (a : Binary64) : a.canon.isNaN = a.isNaN := by
  unfold canon
  split
  · next h => rw [h]; decide
  · split
    · next h1 h2 =>
      have : a.isNaN = false := by simpa using h1
      rw [this]; decide
    · rfl

theorem canon_canon (a : Binary64) : a.canon.canon = a.canon := by
  unfold canon
  split
  · decide
  · split
    · decide
    · next h1 h2 => simp [*]

end Binary64

end PlanSearch
