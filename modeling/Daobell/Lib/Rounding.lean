import Mathlib.Data.Int.Log
import Mathlib.Data.Rat.Floor
import Mathlib.Tactic.Linarith
import Mathlib.Tactic.Ring

/-!
Binary floating point with `p` significant digits and no bound on the exponent: a
number is rounded to the nearest multiple of its unit in the last place, and a tie goes
to the even multiple. What is proved is what a comparison of rounded numbers needs:
rounding passes over no number that is itself on the grid, and moves none by more than
half a unit.
-/

namespace Daobell.Lib

/-- The nearest integer, the even one of two. -/
def roundEven (q : ℚ) : ℤ :=
  if q - ⌊q⌋ < 1 / 2 ∨ q - ⌊q⌋ = 1 / 2 ∧ Even ⌊q⌋ then ⌊q⌋ else ⌊q⌋ + 1

/-- The exponent of the unit in the last place. -/
def ulpExponent (p : ℕ) (x : ℚ) : ℤ := Int.log 2 |x| + 1 - p

def roundNearest (p : ℕ) (x : ℚ) : ℚ :=
  roundEven (x / 2 ^ ulpExponent p x) * 2 ^ ulpExponent p x

/-! ### Integers -/

theorem roundEven_le {q : ℚ} {m : ℤ} (h : q ≤ m) : roundEven q ≤ m := by
  have hfloor : ⌊q⌋ ≤ m := Int.floor_le_iff.mpr (h.trans_lt (lt_add_one _))
  rw [roundEven]
  split_ifs with hdown
  · exact hfloor
  · -- a number that is rounded up is no integer
    refine Int.add_one_le_of_lt (hfloor.lt_of_ne fun heq => hdown (.inl ?_))
    rw [heq]
    linarith

theorem le_roundEven {q : ℚ} {m : ℤ} (h : m ≤ q) : m ≤ roundEven q := by
  have hfloor : m ≤ ⌊q⌋ := Int.le_floor.mpr h
  rw [roundEven]
  split_ifs
  · exact hfloor
  · exact hfloor.trans (Int.le_add_one le_rfl)

theorem roundEven_le_add_half (q : ℚ) : (roundEven q : ℚ) ≤ q + 1 / 2 := by
  rw [roundEven]
  split_ifs with hdown
  · have hfloor := Int.floor_le q
    linarith
  · rw [not_or, not_lt] at hdown
    push_cast
    linarith [hdown.1]

/-! ### Rounding -/

section

variable {p : ℕ} {x : ℚ} {j m : ℤ}

/-- A number on a grid that is coarser than the units, as a multiple of a unit. -/
theorem exists_mul_ulp (hj : ulpExponent p x ≤ j) (m : ℤ) :
    ∃ k : ℤ, (m : ℚ) * 2 ^ j = k * 2 ^ ulpExponent p x := by
  obtain ⟨d, hd⟩ := Int.le.dest hj
  refine ⟨m * 2 ^ d, ?_⟩
  rw [← hd, zpow_add₀ two_ne_zero, zpow_natCast]
  push_cast
  ring

theorem roundNearest_le (hj : ulpExponent p x ≤ j) (h : x ≤ m * 2 ^ j) :
    roundNearest p x ≤ m * 2 ^ j := by
  have hpos : (0 : ℚ) < 2 ^ ulpExponent p x := zpow_pos two_pos _
  obtain ⟨k, hk⟩ := exists_mul_ulp hj m
  rw [hk] at h ⊢
  have hround := roundEven_le ((div_le_iff₀ hpos).mpr h)
  exact mul_le_mul_of_nonneg_right (by exact_mod_cast hround) hpos.le

theorem le_roundNearest (hj : ulpExponent p x ≤ j) (h : m * 2 ^ j ≤ x) :
    m * 2 ^ j ≤ roundNearest p x := by
  have hpos : (0 : ℚ) < 2 ^ ulpExponent p x := zpow_pos two_pos _
  obtain ⟨k, hk⟩ := exists_mul_ulp hj m
  rw [hk] at h ⊢
  have hround := le_roundEven ((le_div_iff₀ hpos).mpr h)
  exact mul_le_mul_of_nonneg_right (by exact_mod_cast hround) hpos.le

theorem roundNearest_eq (hj : ulpExponent p x ≤ j) (h : x = m * 2 ^ j) : roundNearest p x = x := by
  refine le_antisymm ?_ ?_
  · exact (roundNearest_le hj h.le).trans h.ge
  · exact h.le.trans (le_roundNearest hj h.ge)

theorem roundNearest_le_add_half :
    roundNearest p x ≤ x + 2 ^ ulpExponent p x / 2 := by
  have hpos : (0 : ℚ) < 2 ^ ulpExponent p x := zpow_pos two_pos _
  have hround := mul_le_mul_of_nonneg_right
    (roundEven_le_add_half (x / 2 ^ ulpExponent p x)) hpos.le
  rw [add_mul, div_mul_cancel₀ _ hpos.ne'] at hround
  rw [roundNearest]
  linarith

theorem ulpExponent_le (hx : 0 < x) (h : x < 2 ^ j) : ulpExponent p x ≤ j - p := by
  have hlog : Int.log 2 |x| < j := by
    rw [abs_of_pos hx]
    exact (Int.lt_zpow_iff_log_lt one_lt_two hx).mp (by exact_mod_cast h)
  rw [ulpExponent]
  omega

/-- A natural number that has no more than `p` digits is left as it is. -/
theorem roundNearest_natCast (hp : 0 < p) {n : ℕ} (h : n ≤ 2 ^ p) : roundNearest p n = n := by
  rcases Nat.eq_zero_or_pos n with rfl | hpos
  · simp [roundNearest, roundEven]
  have hpos' : (0 : ℚ) < n := by exact_mod_cast hpos
  rcases h.eq_or_lt with rfl | hlt
  · refine roundNearest_eq (j := p) (m := 1) ?_ (by push_cast; rw [one_mul, zpow_natCast])
    refine (ulpExponent_le (j := p + 1) hpos' ?_).trans (by omega)
    have htwo : (0 : ℚ) < 2 ^ p := pow_pos two_pos p
    push_cast
    rw [zpow_add₀ two_ne_zero, zpow_natCast, zpow_one]
    linarith
  · refine roundNearest_eq (j := 0) (m := n) ?_ (by rw [zpow_zero, mul_one, Int.cast_natCast])
    refine (ulpExponent_le (j := p) hpos' ?_).trans (by omega)
    rw [zpow_natCast]
    exact_mod_cast hlt

end

end Daobell.Lib
