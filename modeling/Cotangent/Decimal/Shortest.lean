/-!
The shortest decimal that reads back as a given binary number. The number is `m * 2 ^ q`, and every
real between the midpoints to its neighbours reads back as it, both midpoints included when `m` is
even. `shortest` goes through the grids of 1, 2, 3, … significant digits and takes the first grid
with a point in that interval: of two such points the nearer, of two equally near the upper.
-/

namespace Cotangent.Decimal

/-- The decimal `digits * 10 ^ exponent`. -/
structure Digits where
  /-- The significant digits, read as one number. -/
  digits : Nat
  /-- The power of ten of the last digit. -/
  exponent : Int
  deriving DecidableEq, Repr

/-- The number of decimal digits of a number. -/
def digitCount (n : Nat) : Nat := (Nat.toDigits 10 n).length

/-- A positive binary number together with the reals that read back as it. -/
structure Interval where
  /-- The value as a multiple of `unit`. -/
  value : Nat
  /-- The lower midpoint as a multiple of `unit`. -/
  lower : Nat
  /-- The upper midpoint as a multiple of `unit`. -/
  upper : Nat
  /-- The midpoints themselves read back as the value. -/
  closed : Bool
  /-- The denominator: the interval is measured in units of `1 / scale`. -/
  scale : Nat

/-- The interval of `m * 2 ^ q`. The lower neighbour of a power of two is at half the distance. -/
def Interval.ofBinary (m : Nat) (q : Int) (powerOfTwo : Bool) : Interval :=
  let raise := 1 <<< (q - 2).toNat
  { value := 4 * m * raise
    lower := (if powerOfTwo then 4 * m - 1 else 4 * m - 2) * raise
    upper := (4 * m + 2) * raise
    closed := m % 2 = 0
    scale := 1 <<< (2 - q).toNat }

/-- The power of ten of the first digit of the value. -/
def Interval.leading (v : Interval) : Int :=
  if v.scale ≤ v.value then (digitCount (v.value / v.scale) : Int) - 1
  else -(digitCount (v.scale / v.value) : Int)

/-- The point of the grid of multiples of `10 ^ t` to print, if one reads back as the value. -/
def Interval.onGrid (v : Interval) (t : Int) : Option Digits :=
  let step := v.scale * Nat.pow 10 t.toNat
  let raise := Nat.pow 10 (-t).toNat
  let below := v.value * raise / step
  let inside (x : Nat) : Bool :=
    if v.closed then v.lower * raise ≤ x && x ≤ v.upper * raise
    else v.lower * raise < x && x < v.upper * raise
  let rest := v.value * raise % step
  match inside (below * step), inside ((below + 1) * step) with
  | true, true => some ⟨if 2 * rest < step then below else below + 1, t⟩
  | true, false => some ⟨below, t⟩
  | false, true => some ⟨below + 1, t⟩
  | false, false => none

/-- The first grid from `10 ^ t` downwards with a point that reads back, `fuel` grids at most. -/
def Interval.firstGrid (v : Interval) : Nat → Int → Digits
  | 0, t => ⟨v.value * Nat.pow 10 (-t).toNat / (v.scale * Nat.pow 10 t.toNat), t⟩
  | fuel + 1, t => (v.onGrid t).getD (v.firstGrid fuel (t - 1))

/-- Trailing zeros moved into the exponent. -/
def Digits.trim : Nat → Digits → Digits
  | 0, d => d
  | fuel + 1, d =>
    if d.digits ≠ 0 ∧ d.digits % 10 = 0 then trim fuel ⟨d.digits / 10, d.exponent + 1⟩ else d

/-- The shortest decimal that reads back as `m * 2 ^ q`, for a positive `m` below `2 ^ 53`. -/
def shortest (m : Nat) (q : Int) (powerOfTwo : Bool) : Digits :=
  let v := Interval.ofBinary m q powerOfTwo
  (v.firstGrid 17 v.leading).trim 17

end Cotangent.Decimal
