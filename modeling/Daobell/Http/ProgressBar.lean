import Daobell.Cxx
import Daobell.Lib.Rounding

/-!
The end of a download in `progress_bar.h`. The bar is counted with floating point
numbers, and a download is over when it comes to 50 or the sizes agree. Up to `2 ^ 53`
bytes the first says no more than the second.
-/

namespace Daobell

open Lib

/-- A `double`: 53 digits. No number here is too large or too small for it. -/
def toDouble (x : ℚ) : ℚ := roundNearest 53 x

/-- The length of the bar, `(double)downloaded_size / total_ * 50.0`, for a total that is
not zero. -/
def barLength (downloadedSize total : UInt64) : ℚ :=
  toDouble (toDouble (toDouble downloadedSize.toNat / toDouble total.toNat) * 50)

/-- What `run` returns. -/
def barComplete (downloadedSize total : UInt64) : Bool :=
  50 = barLength downloadedSize total ∨ total ≤ downloadedSize

theorem barLength_lt {downloadedSize total : UInt64} (hlt : downloadedSize < total)
    (htotal : total.toNat ≤ 2 ^ 53) : barLength downloadedSize total < 50 := by
  rw [UInt64.lt_iff_toNat_lt] at hlt
  rw [barLength, toDouble, toDouble, toDouble, toDouble,
    roundNearest_natCast (by decide) (hlt.le.trans htotal),
    roundNearest_natCast (by decide) htotal]
  generalize downloadedSize.toNat = n at hlt
  generalize total.toNat = t at hlt htotal
  rcases Nat.eq_zero_or_pos n with rfl | hpos
  · simp [roundNearest, roundEven]
  have hn : (1 : ℚ) ≤ n := by exact_mod_cast hpos
  have hnt : (n : ℚ) + 1 ≤ t := by exact_mod_cast hlt
  have ht : (t : ℚ) ≤ 2 ^ 53 := by exact_mod_cast htotal
  have htpos : (0 : ℚ) < t := by linarith
  have hquotient : 0 < (n : ℚ) / t := div_pos (by linarith) htpos
  -- the greatest number below 1
  have hbelow : (n : ℚ) / t ≤ (2 ^ 53 - 1 : ℤ) * 2 ^ (-53 : ℤ) := by
    rw [div_le_iff₀ htpos]
    norm_num
    linarith
  have hulp : ulpExponent 53 ((n : ℚ) / t) ≤ -53 := by
    refine (ulpExponent_le (j := 0) hquotient ?_).trans (by norm_num)
    rw [zpow_zero, div_lt_one htpos]
    linarith
  have hround := roundNearest_le hulp hbelow
  have hround' := le_roundNearest (p := 53) (m := 0) (le_refl (ulpExponent 53 ((n : ℚ) / t)))
    (by rw [Int.cast_zero, zero_mul]; exact hquotient.le)
  generalize roundNearest 53 ((n : ℚ) / t) = q at hround hround'
  norm_num at hround hround'
  rcases hround'.eq_or_lt with rfl | hq
  · simp [roundNearest, roundEven]
  -- half a unit of the product is `2 ^ (-48)`, and it is farther away from 50
  have hulp' : ulpExponent 53 (q * 50) ≤ -47 :=
    ulpExponent_le (j := 6) (by linarith) (by norm_num; linarith)
  have hunit : (2 : ℚ) ^ ulpExponent 53 (q * 50) ≤ 2 ^ (-47 : ℤ) :=
    zpow_le_zpow_right₀ one_le_two hulp'
  have hround'' := roundNearest_le_add_half (p := 53) (x := q * 50)
  norm_num at hunit
  linarith

theorem barComplete_of_le {downloadedSize total : UInt64} (h : total ≤ downloadedSize) :
    barComplete downloadedSize total = true := by
  rw [barComplete, decide_eq_true_iff]
  exact .inr h

theorem barComplete_iff {downloadedSize total : UInt64} (htotal : total.toNat ≤ 2 ^ 53) :
    barComplete downloadedSize total = true ↔ total ≤ downloadedSize := by
  refine ⟨fun hcomplete => ?_, barComplete_of_le⟩
  rw [barComplete, decide_eq_true_iff] at hcomplete
  by_contra hlt
  have hfull := hcomplete.resolve_right hlt
  exact (barLength_lt (UInt64.not_le.mp hlt) htotal).ne' hfull

/-- Behind `2 ^ 53` the bar can be full too early. -/
example : barComplete (2 ^ 53) (2 ^ 53 + 1) = true := by decide +kernel

end Daobell
