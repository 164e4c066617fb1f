import LetLang.Binary64

/-!
# Shortest decimals

Every finite positive number owns the interval of reals that round to it. `shortest` finds the
coarsest power-of-ten grid with a point in that interval and takes the point nearest to the number,
the upper one when both are equally near.
-/

namespace LetLang

/-- The number `digits * 10 ^ exponent`. -/
structure Decimal where
  digits : Nat
  exponent : Int
deriving DecidableEq

namespace Decimal

/-- The reals that round to `significand * 2 ^ exponent`, in quarters of its last place:
from `4 * significand - below` to `4 * significand + 2`. -/
structure Interval where
  significand : Nat
  exponent : Int
  below : Nat
  closed : Bool

namespace Interval

/-- A power of two above the smallest normal number has a nearer neighbour below. -/
def ofBinary64 (x : Binary64) : Interval where
  significand := x.significand
  exponent := x.exponent
  below := if x.significand = Binary64.hidden ∧ -1074 < x.exponent then 1 else 2
  closed := x.significand % 2 = 0

def within (i : Interval) (a b : Nat) : Bool := if i.closed then a ≤ b else a < b

/-- A quarter of the last place is `(i.scale j).1 / (i.scale j).2` steps of the grid `10 ^ j`. -/
def scale (i : Interval) (j : Int) : Nat × Nat :=
  (Nat.pow 2 (i.exponent - 2).toNat * Nat.pow 10 (-j).toNat,
    Nat.pow 2 (2 - i.exponent).toNat * Nat.pow 10 j.toNat)

/-- The nearest multiple of `10 ^ j` among the two around the number that lie in the interval. -/
def pointOn (i : Interval) (j : Int) : Option Decimal :=
  let (unit, step) := i.scale j
  let value := 4 * i.significand * unit
  let d := value / step
  let down := i.within ((4 * i.significand - i.below) * unit) (d * step)
  let up := i.within ((d + 1) * step) ((4 * i.significand + 2) * unit)
  if up && (!down || decide (step ≤ 2 * (value % step))) then some ⟨d + 1, j⟩
  else if down then some ⟨d, j⟩
  else none

/-- No grid below this one is needed: the number itself is a multiple of its step. -/
def finest (i : Interval) : Int := min i.exponent 0

def coarsest (i : Interval) : Int :=
  ((4 * i.significand).log2 + i.exponent) * 30103 / 100000 + 2

def exact (i : Interval) : Decimal where
  digits := i.significand * Nat.pow 2 i.exponent.toNat * Nat.pow 5 (-i.exponent).toNat
  exponent := i.finest

/-- The first hit among the `n` grids from `10 ^ (i.finest + n)` down. -/
def search (i : Interval) : Nat → Decimal
  | 0 => i.exact
  | n + 1 => (i.pointOn (i.finest + (n + 1))).getD (search i n)

end Interval

/-- The decimal of fewest digits that rounds to the absolute value of `x`, and of those the nearest. -/
def shortest (x : Binary64) : Decimal :=
  let i := Interval.ofBinary64 x
  i.search (i.coarsest - i.finest).toNat

end Decimal

end LetLang
