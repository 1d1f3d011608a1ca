import Daobell.Lib.Numeral

/-!
Percent-encoding of byte strings, RFC 3986, section 2: a byte stands for itself
or is written as a percent sign and two hexadecimal digits. Which bytes stand
for themselves is a parameter of the encoder; decoding does not depend on it.
-/

namespace Daobell.Lib

def percentSign : UInt8 := 37

def upperHex (n : ℕ) : UInt8 := if n < 10 then digitByte n else UInt8.ofNat (55 + n)

def hexValue (b : UInt8) : Option ℕ :=
  if isDigit b then some (digitValue b)
  else if 65 ≤ b ∧ b ≤ 70 then some (b.toNat - 55)
  else if 97 ≤ b ∧ b ≤ 102 then some (b.toNat - 87)
  else none

/-- A byte as a percent sign and two digits. -/
def percentTriple (b : UInt8) : List UInt8 :=
  [percentSign, upperHex (b.toNat / 16), upperHex (b.toNat % 16)]

/-- The byte that three bytes stand for, if they are a percent sign and two digits. -/
def tripleValue (b h l : UInt8) : Option UInt8 :=
  if b = percentSign then
    (hexValue h).bind fun h => (hexValue l).map fun l => UInt8.ofNat (16 * h + l)
  else none

/-- Percent-decoding. A percent sign without two digits behind it stands for itself. -/
def percentDecode : List UInt8 → List UInt8
  | b :: h :: l :: bs =>
      match tripleValue b h l with
      | some v => v :: percentDecode bs
      | none => b :: percentDecode (h :: l :: bs)
  | bs => bs

/-- Percent-encoding, with the bytes of `keep` standing for themselves. -/
def percentEncode (keep : UInt8 → Bool) (bs : List UInt8) : List UInt8 :=
  bs.flatMap fun b => if keep b then [b] else percentTriple b

/-- Nothing but bytes of `keep` and well formed triples. -/
inductive PercentEncoded (keep : UInt8 → Bool) : List UInt8 → Prop
  | nil : PercentEncoded keep []
  | plain {b : UInt8} {bs : List UInt8} (hb : keep b = true) (h : PercentEncoded keep bs) :
      PercentEncoded keep (b :: bs)
  | triple {h l : UInt8} {bs : List UInt8} (hh : (hexValue h).isSome) (hl : (hexValue l).isSome)
      (hbs : PercentEncoded keep bs) : PercentEncoded keep (percentSign :: h :: l :: bs)

/-! ### Digits -/

theorem hexValue_upperHex {n : ℕ} (hn : n < 16) : hexValue (upperHex n) = some n := by
  interval_cases n <;> decide

theorem tripleValue_percentTriple (b : UInt8) :
    tripleValue percentSign (upperHex (b.toNat / 16)) (upperHex (b.toNat % 16)) = some b := by
  have hb := b.toNat_lt
  rw [tripleValue, if_pos rfl, hexValue_upperHex (by omega), hexValue_upperHex (by omega)]
  simp only [Option.bind_some, Option.map_some, Option.some.injEq]
  rw [Nat.div_add_mod, UInt8.ofNat_toNat]

/-! ### Reading what was written -/

theorem percentDecode_cons {b : UInt8} (hb : b ≠ percentSign) (bs : List UInt8) :
    percentDecode (b :: bs) = b :: percentDecode bs := by
  match bs with
  | [] => rfl
  | [_] => rfl
  | h :: l :: bs =>
      rw [percentDecode, tripleValue, if_neg hb]

theorem percentDecode_percentTriple (b : UInt8) (bs : List UInt8) :
    percentDecode (percentTriple b ++ bs) = b :: percentDecode bs := by
  rw [percentTriple, List.cons_append, List.cons_append, List.cons_append, percentDecode,
    tripleValue_percentTriple]
  rfl

section

variable {keep : UInt8 → Bool}

theorem percentEncode_cons (b : UInt8) (bs : List UInt8) :
    percentEncode keep (b :: bs) =
      (if keep b then [b] else percentTriple b) ++ percentEncode keep bs :=
  List.flatMap_cons

theorem percentDecode_percentEncode_append (hkeep : keep percentSign = false)
    (bs rest : List UInt8) :
    percentDecode (percentEncode keep bs ++ rest) = bs ++ percentDecode rest := by
  induction bs with
  | nil => rfl
  | cons b bs ih =>
      rw [percentEncode_cons, List.append_assoc, List.cons_append, ← ih]
      by_cases hb : keep b = true
      · have hne : b ≠ percentSign := fun h => by rw [h, hkeep] at hb; cases hb
        rw [if_pos hb, List.singleton_append, percentDecode_cons hne]
      · rw [if_neg hb, percentDecode_percentTriple]

/-- Decoding undoes encoding, as long as the percent sign does not stand for itself. -/
theorem percentDecode_percentEncode (hkeep : keep percentSign = false) (bs : List UInt8) :
    percentDecode (percentEncode keep bs) = bs := by
  rw [← List.append_nil (percentEncode keep bs), percentDecode_percentEncode_append hkeep]
  exact List.append_nil bs

theorem percentEncoded_percentEncode (bs : List UInt8) :
    PercentEncoded keep (percentEncode keep bs) := by
  induction bs with
  | nil => exact .nil
  | cons b bs ih =>
      rw [percentEncode_cons]
      by_cases hb : keep b = true
      · rw [if_pos hb]
        exact .plain hb ih
      · have hlt := b.toNat_lt
        rw [if_neg hb]
        refine .triple ?_ ?_ ih
        · rw [hexValue_upperHex (by omega)]
          rfl
        · rw [hexValue_upperHex (by omega)]
          rfl

/-- A byte that is neither kept nor part of a triple does not occur. -/
theorem PercentEncoded.notMem {b : UInt8} {bs : List UInt8} (h : PercentEncoded keep bs)
    (hb : keep b = false) (hsign : b ≠ percentSign) (hhex : hexValue b = none) : b ∉ bs := by
  induction h with
  | nil => exact List.not_mem_nil
  | plain hc _ ih =>
      refine List.not_mem_cons_of_ne_of_not_mem ?_ ih
      rintro rfl
      rw [hb] at hc
      cases hc
  | triple hh hl _ ih =>
      have hdigit : ∀ {d : UInt8}, (hexValue d).isSome → b ≠ d := by
        rintro d hd rfl
        rw [hhex] at hd
        cases hd
      exact List.not_mem_cons_of_ne_of_not_mem hsign (List.not_mem_cons_of_ne_of_not_mem (hdigit hh)
        (List.not_mem_cons_of_ne_of_not_mem (hdigit hl) ih))

theorem percentEncode_eq_self {bs : List UInt8} (h : ∀ b ∈ bs, keep b = true) :
    percentEncode keep bs = bs := by
  induction bs with
  | nil => rfl
  | cons b bs ih =>
      obtain ⟨hb, hbs⟩ := List.forall_mem_cons.mp h
      rw [percentEncode_cons, if_pos hb, ih hbs]
      rfl

end

end Daobell.Lib
