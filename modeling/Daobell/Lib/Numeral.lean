import Mathlib.Data.Nat.Digits.Lemmas
import Mathlib.Data.List.TakeWhile
import Mathlib.Tactic.Ring

/-!
Decimal numerals as byte strings: writing a number, reading a run of digits,
and the fact that the one undoes the other. Readers stop at the first byte
that is not a digit, so each lemma about reading names what follows.
-/

namespace Daobell.Lib

def isDigit (b : UInt8) : Bool := decide (48 ≤ b) && decide (b ≤ 57)

def digitValue (b : UInt8) : ℕ := b.toNat - 48

def digitByte (d : ℕ) : UInt8 := UInt8.ofNat (48 + d)

/-- The value of a run of decimal digits, leading zeros allowed. -/
def numeral (ds : List UInt8) : ℕ := ds.foldl (fun acc b => 10 * acc + digitValue b) 0

/-- The decimal numeral of a number, without leading zeros. -/
def decimal (n : ℕ) : List UInt8 :=
  if n = 0 then [digitByte 0] else (Nat.digits 10 n).reverse.map digitByte

theorem toNat_digitByte {d : ℕ} (hd : d < 10) : (digitByte d).toNat = 48 + d := by
  rw [digitByte, UInt8.toNat_ofNat']
  exact Nat.mod_eq_of_lt (by omega)

@[simp] theorem digitValue_digitByte {d : ℕ} (hd : d < 10) : digitValue (digitByte d) = d := by
  rw [digitValue, toNat_digitByte hd]
  omega

theorem isDigit_digitByte {d : ℕ} (hd : d < 10) : isDigit (digitByte d) = true := by
  simp only [isDigit, Bool.and_eq_true, decide_eq_true_eq, UInt8.le_iff_toNat_le,
    toNat_digitByte hd]
  exact ⟨by simp, by simp; omega⟩

theorem isDigit_decimal {n : ℕ} {b : UInt8} (hb : b ∈ decimal n) : isDigit b = true := by
  rw [decimal] at hb
  split at hb
  · rw [List.mem_singleton.mp hb]
    exact isDigit_digitByte (by omega)
  · obtain ⟨d, hd, rfl⟩ := List.mem_map.mp hb
    exact isDigit_digitByte (Nat.digits_lt_base (by omega) (List.mem_reverse.mp hd))

theorem decimal_ne_nil (n : ℕ) : decimal n ≠ [] := by
  rw [decimal]
  split
  · simp
  · rename_i h
    simpa [Nat.digits_eq_nil_iff_eq_zero] using h

theorem numeral_append_singleton (ds : List UInt8) (b : UInt8) :
    numeral (ds ++ [b]) = 10 * numeral ds + digitValue b := by
  simp [numeral]

theorem numeral_reverse_map_digitByte (ds : List ℕ) (hds : ∀ d ∈ ds, d < 10) :
    numeral (ds.reverse.map digitByte) = Nat.ofDigits 10 ds := by
  induction ds with
  | nil => rfl
  | cons d ds ih =>
      have hd : d < 10 := hds d List.mem_cons_self
      rw [List.reverse_cons, List.map_append, List.map_singleton, numeral_append_singleton,
        ih fun e he => hds e (List.mem_cons_of_mem d he), digitValue_digitByte hd,
        Nat.ofDigits_cons]
      ring

@[simp] theorem numeral_decimal (n : ℕ) : numeral (decimal n) = n := by
  rw [decimal]
  split
  · rename_i h
    subst h
    decide
  · rw [numeral_reverse_map_digitByte _ fun d hd => Nat.digits_lt_base (by omega) hd]
    exact Nat.ofDigits_digits 10 n

/-! ### Reading up to the first byte that is not a digit -/

theorem takeWhile_isDigit_append {ds rest : List UInt8} (hds : ∀ b ∈ ds, isDigit b = true)
    (hrest : ∀ b, rest.head? = some b → isDigit b = false) :
    (ds ++ rest).takeWhile isDigit = ds := by
  induction ds with
  | nil =>
      cases rest with
      | nil => rfl
      | cons b rest => simp [hrest b rfl]
  | cons d ds ih =>
      rw [List.cons_append, List.takeWhile_cons, if_pos (hds d List.mem_cons_self),
        ih fun b hb => hds b (List.mem_cons_of_mem d hb)]

theorem dropWhile_isDigit_append {ds rest : List UInt8} (hds : ∀ b ∈ ds, isDigit b = true)
    (hrest : ∀ b, rest.head? = some b → isDigit b = false) :
    (ds ++ rest).dropWhile isDigit = rest := by
  induction ds with
  | nil =>
      cases rest with
      | nil => rfl
      | cons b rest => simp [hrest b rfl]
  | cons d ds ih =>
      rw [List.cons_append, List.dropWhile_cons, if_pos (hds d List.mem_cons_self),
        ih fun b hb => hds b (List.mem_cons_of_mem d hb)]

/-! ### Numerals without leading zeros -/

def NoLeadingZeros (ds : List UInt8) : Prop := ds.head? = some (digitByte 0) → ds.length = 1

instance (ds : List UInt8) : Decidable (NoLeadingZeros ds) := inferInstanceAs (Decidable (_ → _))

theorem digitByte_digitValue {b : UInt8} (hb : isDigit b = true) : digitByte (digitValue b) = b := by
  simp only [isDigit, Bool.and_eq_true, decide_eq_true_eq, UInt8.le_iff_toNat_le] at hb
  obtain ⟨hge, hle⟩ := hb
  have hge' : 48 ≤ b.toNat := hge
  rw [digitByte, digitValue, Nat.add_sub_cancel' hge', UInt8.ofNat_toNat]

theorem digitValue_lt {b : UInt8} (hb : isDigit b = true) : digitValue b < 10 := by
  simp only [isDigit, Bool.and_eq_true, decide_eq_true_eq, UInt8.le_iff_toNat_le] at hb
  have hle : b.toNat ≤ 57 := hb.2
  rw [digitValue]
  omega

theorem digitByte_eq_zero {d : ℕ} (hd : d < 10) (h : digitByte d = digitByte 0) : d = 0 := by
  rw [← digitValue_digitByte hd, h]
  decide

theorem noLeadingZeros_decimal (n : ℕ) : NoLeadingZeros (decimal n) := by
  intro hhead
  rw [decimal] at hhead ⊢
  split
  · rfl
  · rename_i hn
    rw [if_neg hn, List.head?_map, List.head?_reverse, Option.map_eq_some_iff] at hhead
    obtain ⟨d, hd, hzero⟩ := hhead
    have hne : Nat.digits 10 n ≠ [] := Nat.digits_ne_nil_iff_ne_zero.mpr hn
    have hlast : (Nat.digits 10 n).getLast hne = d := by
      rw [List.getLast?_eq_some_getLast hne] at hd
      exact Option.some.inj hd
    have hlt : d < 10 := hlast ▸ Nat.digits_lt_base (by omega) (List.getLast_mem hne)
    exact absurd (hlast.trans (digitByte_eq_zero hlt hzero)) (Nat.getLast_digit_ne_zero 10 hn)

/-- A run of digits is the numeral of its value when it has no leading zeros. -/
theorem decimal_numeral_iff {ds : List UInt8} (hne : ds ≠ []) (hds : ∀ b ∈ ds, isDigit b = true) :
    ds = decimal (numeral ds) ↔ NoLeadingZeros ds := by
  refine ⟨fun h => h ▸ noLeadingZeros_decimal _, fun h => ?_⟩
  have hback : ds = (ds.map digitValue).map digitByte := by
    rw [List.map_map]
    exact ((List.map_congr_left fun b hb => digitByte_digitValue (hds b hb)).trans
      (List.map_id' ds)).symm
  have hlt : ∀ d ∈ (ds.map digitValue).reverse, d < 10 := by
    intro d hd
    obtain ⟨b, hb, rfl⟩ := List.mem_map.mp (List.mem_reverse.mp hd)
    exact digitValue_lt (hds b hb)
  have hvalue : numeral ds = Nat.ofDigits 10 (ds.map digitValue).reverse := by
    rw [← numeral_reverse_map_digitByte _ hlt, List.reverse_reverse, ← hback]
  by_cases hzero : ds.head? = some (digitByte 0)
  · obtain ⟨b, rfl⟩ := List.length_eq_one_iff.mp (h hzero)
    cases hzero
    decide
  · have hlast : ∀ hne : (ds.map digitValue).reverse ≠ [],
        (ds.map digitValue).reverse.getLast hne ≠ 0 := by
      intro hne' h0
      apply hzero
      cases ds with
      | nil => exact absurd rfl hne
      | cons b ds =>
          simp only [List.map_cons, List.reverse_cons, List.getLast_append_singleton] at h0
          rw [List.head?_cons, ← h0, digitByte_digitValue (hds b List.mem_cons_self)]
    have hdigits := Nat.digits_ofDigits 10 (by omega) _ hlt hlast
    have hne0 : numeral ds ≠ 0 := by
      intro h0
      rw [← hvalue, h0, Nat.digits_zero] at hdigits
      simp [hne] at hdigits
    rw [decimal, if_neg hne0, hvalue, hdigits, List.reverse_reverse, ← hback]

end Daobell.Lib
