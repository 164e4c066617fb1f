import Mathlib.Algebra.Order.Field.Power
import Mathlib.Data.List.TakeWhile
import Mathlib.Data.Rat.Cast.Order
import Mathlib.Tactic.FieldSimp
import Mathlib.Tactic.Linarith
import Mathlib.Tactic.LinearCombination
import Mathlib.Tactic.Ring
import LetLang.Proofs.Reading.Digits

/-!
# Numbers from their texts

The text of a number denotes a point of its rounding interval. The intervals of two numbers meet at
most in an end between neighbours, which belongs to the one with an even significand.
-/

namespace LetLang

namespace Decimal

def value (d : Decimal) : ℚ := d.digits * 10 ^ d.exponent

namespace Interval

def quarter (i : Interval) : ℚ := 2 ^ (i.exponent - 2)

def lower (i : Interval) : ℚ := (4 * i.significand - i.below) * i.quarter

def upper (i : Interval) : ℚ := (4 * i.significand + 2) * i.quarter

structure Contains (i : Interval) (q : ℚ) : Prop where
  above : i.lower ≤ q
  beneath : q ≤ i.upper
  inner : i.closed = false → i.lower < q ∧ q < i.upper

theorem quarter_pos (i : Interval) : 0 < i.quarter := zpow_pos (by norm_num) _

/-- The interval of the numbers with the given bits below the sign. -/
def ofMagnitude (m : Nat) : Interval :=
  let significand := if m < Binary64.hidden then m else m % Binary64.hidden + Binary64.hidden
  let exponent : Int := max (m / Binary64.hidden) 1 - 1075
  { significand, exponent
    below := if significand = Binary64.hidden ∧ -1074 < exponent then 1 else 2
    closed := significand % 2 = 0 }

theorem ofBinary64_eq (x : Binary64) : ofBinary64 x = ofMagnitude x.magnitude := rfl

theorem significand_ofMagnitude (m : Nat) : (ofMagnitude m).significand =
    if m < 0x10000000000000 then m else m % 0x10000000000000 + 0x10000000000000 := rfl

theorem exponent_ofMagnitude (m : Nat) :
    (ofMagnitude m).exponent = max (m / 0x10000000000000) 1 - 1075 := rfl

theorem below_ofMagnitude (m : Nat) : (ofMagnitude m).below =
    if (ofMagnitude m).significand = 0x10000000000000 ∧ -1074 < (ofMagnitude m).exponent then 1
    else 2 := rfl

theorem below_pos (m : Nat) : 0 < (ofMagnitude m).below := by
  rw [below_ofMagnitude]
  split <;> decide

theorem closed_ofMagnitude (m : Nat) : (ofMagnitude m).closed = true ↔ m % 2 = 0 := by
  refine decide_eq_true_iff.trans ?_
  show (ofMagnitude m).significand % 2 = 0 ↔ _
  rw [significand_ofMagnitude]
  split <;> omega

theorem ofMagnitude_succ (m : Nat) :
    ((ofMagnitude (m + 1)).exponent = (ofMagnitude m).exponent ∧
      (ofMagnitude (m + 1)).significand = (ofMagnitude m).significand + 1 ∧
      (ofMagnitude (m + 1)).below = 2) ∨
    ((ofMagnitude (m + 1)).exponent = (ofMagnitude m).exponent + 1 ∧
      2 * (ofMagnitude (m + 1)).significand = (ofMagnitude m).significand + 1 ∧
      (ofMagnitude (m + 1)).below = 1) := by
  rw [below_ofMagnitude, significand_ofMagnitude, significand_ofMagnitude, exponent_ofMagnitude,
    exponent_ofMagnitude]
  split_ifs <;> omega

theorem upper_eq_lower (m : Nat) : (ofMagnitude m).upper = (ofMagnitude (m + 1)).lower := by
  rcases ofMagnitude_succ m with ⟨exponent, significand, below⟩ | ⟨exponent, significand, below⟩
  · rw [upper, lower, quarter, quarter, exponent, significand, below]
    push_cast
    ring
  · have twice : (2 : ℚ) * (ofMagnitude (m + 1)).significand = (ofMagnitude m).significand + 1 := by
      exact_mod_cast significand
    have step : (ofMagnitude m).exponent + 1 - 2 = (ofMagnitude m).exponent - 2 + 1 := by ring
    rw [upper, lower, quarter, quarter, exponent, below, step, zpow_add_one₀ two_ne_zero]
    push_cast
    linear_combination (-4) * (2 : ℚ) ^ ((ofMagnitude m).exponent - 2) * twice

theorem lower_lt_upper (m : Nat) : (ofMagnitude m).lower < (ofMagnitude m).upper := by
  have below : (0 : ℚ) < (ofMagnitude m).below := by exact_mod_cast below_pos m
  unfold lower upper
  exact mul_lt_mul_of_pos_right (by linarith) (quarter_pos _)

theorem lower_strictMono : StrictMono fun m => (ofMagnitude m).lower :=
  strictMono_nat_of_lt_succ fun m => upper_eq_lower m ▸ lower_lt_upper m

/-- Only neighbours have an end in common, and just one of them is closed. -/
theorem Contains.unique_of_le {m n : Nat} {q : ℚ} (first : (ofMagnitude m).Contains q)
    (second : (ofMagnitude n).Contains q) (order : m ≤ n) : m = n := by
  rcases order.eq_or_lt with same | less
  · exact same
  have chain : (ofMagnitude (m + 1)).lower ≤ (ofMagnitude n).lower := lower_strictMono.monotone less
  have beneath := first.beneath
  rw [upper_eq_lower] at beneath
  have meet := le_antisymm (beneath.trans chain) second.above
  have next : m + 1 = n := lower_strictMono.injective (le_antisymm chain (second.above.trans beneath))
  have firstClosed : (ofMagnitude m).closed = true := by
    by_contra opened
    have strict := (first.inner (Bool.eq_false_iff.mpr opened)).2
    rw [upper_eq_lower, next, ← meet] at strict
    exact lt_irrefl q strict
  have secondClosed : (ofMagnitude n).closed = true := by
    by_contra opened
    have strict := (second.inner (Bool.eq_false_iff.mpr opened)).1
    rw [← meet] at strict
    exact lt_irrefl q strict
  rw [closed_ofMagnitude] at firstClosed secondClosed
  omega

theorem Contains.unique {m n : Nat} {q : ℚ} (first : (ofMagnitude m).Contains q)
    (second : (ofMagnitude n).Contains q) : m = n := by
  rcases le_total m n with order | order
  · exact first.unique_of_le second order
  · exact (second.unique_of_le first order).symm

/-! ### The shortest decimal lies in the interval -/

theorem pow_toNat {b : ℚ} (nonzero : b ≠ 0) (k : ℤ) : b ^ k.toNat = b ^ k * b ^ (-k).toNat := by
  have powers : (k.toNat : ℤ) = k + (-k).toNat := by omega
  rw [← zpow_natCast, ← zpow_natCast, powers, zpow_add₀ nonzero]

variable {i : Interval} {j : ℤ} {a b : Nat}

theorem le_of_within (h : i.within a b = true) : a ≤ b := by
  unfold within at h
  split at h
  · exact of_decide_eq_true h
  · exact Nat.le_of_lt (of_decide_eq_true h)

theorem lt_of_within (opened : i.closed = false) (h : i.within a b = true) : a < b := by
  rw [within, opened] at h
  exact of_decide_eq_true h

theorem step_pos (i : Interval) (j : ℤ) : 0 < (i.scale j).2 :=
  Nat.mul_pos (Nat.pow_pos (by decide)) (Nat.pow_pos (by decide))

theorem unit_pos (i : Interval) (j : ℤ) : 0 < (i.scale j).1 :=
  Nat.mul_pos (Nat.pow_pos (by decide)) (Nat.pow_pos (by decide))

theorem scale_eq (i : Interval) (j : ℤ) : ∃ c : ℚ, 0 < c ∧
    (((i.scale j).1 : ℕ) : ℚ) = c * i.quarter ∧ (((i.scale j).2 : ℕ) : ℚ) = c * 10 ^ j := by
  have two := pow_toNat (two_ne_zero (α := ℚ)) (i.exponent - 2)
  have ten := pow_toNat (show (10 : ℚ) ≠ 0 by norm_num) j
  rw [neg_sub] at two
  refine ⟨2 ^ (2 - i.exponent).toNat * 10 ^ (-j).toNat, by positivity, ?_, ?_⟩
  · unfold scale quarter
    push_cast [Nat.pow_eq]
    rw [two]
    ring
  · unfold scale
    push_cast [Nat.pow_eq]
    rw [ten]
    ring

section

variable {c u s q t x y : ℚ} (positive : 0 < c) (first : u = c * q) (second : s = c * t)

include positive first second

theorem le_of_scaled (h : x * u ≤ y * s) : x * q ≤ y * t := by
  refine le_of_mul_le_mul_left ?_ positive
  calc c * (x * q) = x * u := by rw [first]; ring
    _ ≤ y * s := h
    _ = c * (y * t) := by rw [second]; ring

theorem lt_of_scaled (h : x * u < y * s) : x * q < y * t := by
  refine lt_of_mul_lt_mul_left ?_ positive.le
  calc c * (x * q) = x * u := by rw [first]; ring
    _ < y * s := h
    _ = c * (y * t) := by rw [second]; ring

end

theorem contains_down {d : Nat} (down : i.within ((4 * i.significand - i.below) * (i.scale j).1)
      (d * (i.scale j).2) = true)
    (beneath : d * (i.scale j).2 ≤ 4 * i.significand * (i.scale j).1) :
    i.Contains (value ⟨d, j⟩) := by
  obtain ⟨c, positive, unit, step⟩ := i.scale_eq j
  have truncated : 4 * (i.significand : ℚ) - i.below ≤ ((4 * i.significand - i.below : ℕ) : ℚ) := by
    have whole : 4 * i.significand ≤ 4 * i.significand - i.below + i.below := by omega
    rw [sub_le_iff_le_add]
    exact_mod_cast whole
  have shortened := mul_le_mul_of_nonneg_right truncated i.quarter_pos.le
  have strict : value ⟨d, j⟩ < i.upper := by
    have more : d * (i.scale j).2 < (4 * i.significand + 2) * (i.scale j).1 := by
      have unit := i.unit_pos j
      linarith
    exact lt_of_scaled positive step unit (by exact_mod_cast more)
  refine ⟨shortened.trans (le_of_scaled positive unit step ?_), strict.le, fun opened =>
    ⟨shortened.trans_lt (lt_of_scaled positive unit step ?_), strict⟩⟩
  · exact_mod_cast le_of_within down
  · exact_mod_cast lt_of_within opened down

theorem contains_up {d : Nat}
    (up : i.within (d * (i.scale j).2) ((4 * i.significand + 2) * (i.scale j).1) = true)
    (above : 4 * i.significand * (i.scale j).1 < d * (i.scale j).2) : i.Contains (value ⟨d, j⟩) := by
  obtain ⟨c, positive, unit, step⟩ := i.scale_eq j
  have strict : i.lower < value ⟨d, j⟩ := by
    have quarters : i.lower ≤ 4 * i.significand * i.quarter :=
      mul_le_mul_of_nonneg_right (sub_le_self _ (Nat.cast_nonneg _)) i.quarter_pos.le
    exact quarters.trans_lt (lt_of_scaled positive unit step (by exact_mod_cast above))
  refine ⟨strict.le, le_of_scaled positive step unit ?_, fun opened =>
    ⟨strict, lt_of_scaled positive step unit ?_⟩⟩
  · exact_mod_cast le_of_within up
  · exact_mod_cast lt_of_within opened up

theorem contains_pointOn {p : Decimal} (found : i.pointOn j = some p) : i.Contains p.value := by
  have beneath := Nat.div_mul_le_self (4 * i.significand * (i.scale j).1) (i.scale j).2
  have above := Nat.lt_mul_of_div_lt (Nat.lt_succ_self (4 * i.significand * (i.scale j).1 / (i.scale j).2))
    (i.step_pos j)
  unfold pointOn at found
  dsimp only at found
  split at found
  next chosen =>
    cases found
    exact contains_up (Bool.and_eq_true_iff.mp chosen).1 above
  next =>
    split at found
    next down =>
      cases found
      exact contains_down down beneath
    next => cases found

theorem value_exact (i : Interval) : i.exact.value = 4 * i.significand * i.quarter := by
  have power : (2 : ℚ) ^ i.exponent.toNat * 5 ^ (-i.exponent).toNat * 10 ^ i.finest =
      2 ^ i.exponent := by
    rcases le_total 0 i.exponent with nonneg | nonpos
    · have whole : (-i.exponent).toNat = 0 := by omega
      rw [finest, min_eq_right nonneg, whole, pow_zero, zpow_zero, mul_one, mul_one, ← zpow_natCast,
        Int.toNat_of_nonneg nonneg]
    · have ten : (10 : ℚ) = 2 * 5 := by norm_num
      have places : ((-i.exponent).toNat : ℤ) = -i.exponent := Int.toNat_of_nonneg (by omega)
      rw [finest, min_eq_left nonpos, Int.toNat_of_nonpos nonpos, pow_zero, one_mul, ten, mul_zpow,
        ← zpow_natCast, places, mul_left_comm, ← zpow_add₀ (by norm_num), neg_add_cancel, zpow_zero,
        mul_one]
  have quarters : (2 : ℚ) ^ i.exponent = 4 * i.quarter := by
    rw [quarter, zpow_sub₀ two_ne_zero]
    norm_num
    ring
  calc i.exact.value
      = i.significand * (2 ^ i.exponent.toNat * 5 ^ (-i.exponent).toNat * 10 ^ i.finest) := by
        rw [value, exact]
        push_cast [Nat.pow_eq]
        ring
    _ = 4 * i.significand * i.quarter := by
        rw [power, quarters]
        ring

theorem contains_exact (i : Interval) (positive : 0 < i.below) : i.Contains i.exact.value := by
  have below : (0 : ℚ) < i.below := by exact_mod_cast positive
  have above : i.lower < i.exact.value := by
    rw [value_exact]
    exact mul_lt_mul_of_pos_right (by linarith) i.quarter_pos
  have beneath : i.exact.value < i.upper := by
    rw [value_exact]
    exact mul_lt_mul_of_pos_right (by linarith) i.quarter_pos
  exact ⟨above.le, beneath.le, fun _ => ⟨above, beneath⟩⟩

theorem contains_search (i : Interval) (positive : 0 < i.below) (n : Nat) :
    i.Contains (i.search n).value := by
  induction n with
  | zero => exact contains_exact i positive
  | succ n ih =>
    unfold search
    cases found : i.pointOn (i.finest + (n + 1)) with
    | some p => exact contains_pointOn found
    | none => exact ih

end Interval

theorem contains_shortest (x : Binary64) :
    (Interval.ofMagnitude x.magnitude).Contains (shortest x).value :=
  Interval.contains_search _ (Interval.below_pos _) _

def read (cs : List Char) : ℚ :=
  let whole := cs.takeWhile (· ≠ '.')
  let fraction := (cs.dropWhile (· ≠ '.')).drop 1
  Nat.ofDigitChars 10 (whole ++ fraction) 0 * 10 ^ (-fraction.length : ℤ)

theorem not_point {cs : List Char} (digits : ∀ c ∈ cs, c.isDigit = true) :
    ∀ c ∈ cs, decide (c ≠ '.') = true := by
  intro c member
  rw [decide_eq_true_eq]
  rintro rfl
  exact absurd (digits '.' member) (by decide)

theorem read_whole {cs : List Char} (digits : ∀ c ∈ cs, c.isDigit = true) :
    read cs = Nat.ofDigitChars 10 cs 0 := by
  have plain := not_point digits
  rw [read, List.takeWhile_eq_self_iff.mpr plain, List.dropWhile_eq_nil_iff.mpr plain]
  simp

theorem read_point {whole : List Char} (digits : ∀ c ∈ whole, c.isDigit = true)
    (fraction : List Char) : read (whole ++ '.' :: fraction) =
      Nat.ofDigitChars 10 (whole ++ fraction) 0 * 10 ^ (-fraction.length : ℤ) := by
  have plain := not_point digits
  rw [read, List.takeWhile_append_of_pos plain, List.dropWhile_append_of_pos plain]
  simp

theorem read_positional (d : Decimal) : read d.positional = d.value := by
  have digits : Nat.ofDigitChars 10 (Nat.toDigits 10 d.digits) 0 = d.digits :=
    Nat.ofDigitChars_toDigits (by decide) (by decide)
  by_cases nonneg : 0 ≤ d.exponent
  · rw [positional_of_nonneg nonneg,
      read_whole (List.forall_mem_append.mpr ⟨isDigit_toDigits _, isDigit_zeros _⟩),
      Nat.ofDigitChars_append, Nat.ofDigitChars_replicate_zero, digits, value]
    have power : (10 : ℚ) ^ d.exponent = 10 ^ d.exponent.toNat := by
      rw [← zpow_natCast, Int.toNat_of_nonneg nonneg]
    rw [power]
    push_cast
    ring
  · have length := d.length_padded
    have places : (((d.padded.drop (d.padded.length - (-d.exponent).toNat)).length : ℕ) : ℤ) =
        -d.exponent := by
      rw [List.length_drop]
      omega
    rw [positional_of_negative nonneg,
      read_point fun c member => d.isDigit_padded c (List.mem_of_mem_take member),
      List.take_append_drop, places, neg_neg, padded, Nat.ofDigitChars_append,
      Nat.ofDigitChars_replicate_zero, Nat.mul_zero, digits, value]

end Decimal

namespace Binary64

theorem unsigned_congr {x y : Binary64} (same : x.magnitude = y.magnitude) :
    x.unsigned = y.unsigned := by
  have interval : Decimal.Interval.ofBinary64 x = Decimal.Interval.ofBinary64 y := by
    rw [Decimal.Interval.ofBinary64_eq, Decimal.Interval.ofBinary64_eq, same]
  unfold unsigned isInfinite isZero Decimal.shortest
  rw [interval, same]

theorem contains_shown (x : Binary64) :
    (Decimal.Interval.ofMagnitude x.magnitude).Contains x.shown.value := by
  unfold shown
  split
  next zero =>
    have exact := Decimal.Interval.contains_exact _ (Decimal.Interval.below_pos 0)
    have none : (Decimal.Interval.ofMagnitude 0).significand = 0 := rfl
    rw [Decimal.Interval.value_exact, none, Nat.cast_zero, mul_zero, zero_mul] at exact
    rw [show x.magnitude = 0 from of_decide_eq_true zero, Decimal.value, Nat.cast_zero, zero_mul]
    exact exact
  next => exact Decimal.contains_shortest x

theorem magnitude_eq {x y : Binary64} (finite : x.isFinite = true) (finite' : y.isFinite = true)
    (same : x.unsigned = y.unsigned) : x.magnitude = y.magnitude := by
  rw [unsigned_eq finite, unsigned_eq finite'] at same
  have values := congrArg Decimal.read same
  rw [Decimal.read_positional, Decimal.read_positional] at values
  exact x.contains_shown.unique (values ▸ y.contains_shown)

end Binary64

end LetLang
