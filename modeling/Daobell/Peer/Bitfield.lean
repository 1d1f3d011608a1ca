import Daobell.Cxx

/-!
Bit fields in bytes, by the macros of `bitfield_macro.h`. Bit 0 is the most
significant bit of the first byte. The loop of the sender writes every bit of a
bit set; reading them back gives the bits, and zeros in the rest of the last
byte.
-/

namespace Daobell

def bitfieldNumBytes (len : ℕ) : ℕ := len / 8 + if len % 8 ≠ 0 then 1 else 0

/-- The mask of bit `index` in its byte, the first bit being the most
significant. -/
def bitfieldMask (index : ℕ) : UInt8 := UInt8.ofNat (2 ^ (8 - index % 8 - 1))

def bitfieldSet (index : ℕ) (buff : Bytes) : Bytes :=
  buff.modify (index / 8) (· ||| bitfieldMask index)

def bitfieldClr (index : ℕ) (buff : Bytes) : Bytes :=
  buff.modify (index / 8) (· &&& ~~~ bitfieldMask index)

def bitfieldIsset (index : ℕ) (buff : Bytes) : Bool :=
  buff.getD (index / 8) 0 &&& bitfieldMask index ≠ 0

/-- The payload of a BITFIELD message: the loop over the bits, from `i` on. -/
def bitfieldLoop : ℕ → List Bool → Bytes → Bytes
  | _, [], buff => buff
  | i, b :: bits, buff =>
      bitfieldLoop (i + 1) bits (if b then bitfieldSet i buff else bitfieldClr i buff)

/-! ### Single bits -/

theorem toBitVec_mask (index : ℕ) :
    (bitfieldMask index).toBitVec = BitVec.twoPow 8 (8 - index % 8 - 1) := by
  rw [bitfieldMask, BitVec.twoPow_eq]
  apply BitVec.eq_of_toNat_eq
  simp [Nat.shiftLeft_eq]

theorem and_mask_ne_zero (b : UInt8) (index : ℕ) :
    (b &&& bitfieldMask index ≠ 0) ↔ b.toBitVec.getLsbD (8 - index % 8 - 1) = true := by
  have hone : BitVec.twoPow 8 (8 - index % 8 - 1) ≠ 0#8 := by
    intro h
    have hbit := congrArg (BitVec.getLsbD · (8 - index % 8 - 1)) h
    simp only [BitVec.getLsbD_twoPow, BitVec.getLsbD_zero, decide_true, Bool.and_true,
      decide_eq_false_iff_not] at hbit
    omega
  rw [ne_eq, ← UInt8.toBitVec_inj, UInt8.toBitVec_and, toBitVec_mask, BitVec.and_twoPow]
  cases b.toBitVec.getLsbD (8 - index % 8 - 1)
  · simp
  · simpa using hone

theorem bitfieldIsset_of_getElem? {index : ℕ} {buff : Bytes} {b : UInt8}
    (h : buff[index / 8]? = some b) :
    bitfieldIsset index buff = b.toBitVec.getLsbD (8 - index % 8 - 1) := by
  rw [bitfieldIsset, List.getD_eq_getElem?_getD, h, Option.getD_some, Bool.eq_iff_iff,
    decide_eq_true_eq, and_mask_ne_zero]

theorem bitfieldIsset_of_byte_ne {index j : ℕ} (h : index / 8 ≠ j / 8) (f : UInt8 → UInt8)
    (buff : Bytes) : bitfieldIsset index (buff.modify (j / 8) f) = bitfieldIsset index buff := by
  rw [bitfieldIsset, bitfieldIsset, List.getD_eq_getElem?_getD, List.getD_eq_getElem?_getD,
    List.getElem?_modify_ne _ _ (Ne.symm h)]

theorem bitfieldIsset_modify (index j : ℕ) (buff : Bytes) (v : Bool) (hj : j / 8 < buff.length) :
    bitfieldIsset index (if v then bitfieldSet j buff else bitfieldClr j buff) =
      if index = j then v else bitfieldIsset index buff := by
  by_cases hbyte : index / 8 = j / 8
  · have hsome : buff[index / 8]? = some buff[j / 8] := by
      rw [hbyte, List.getElem?_eq_getElem hj]
    have hbit : 8 - j % 8 - 1 = 8 - index % 8 - 1 ↔ index = j := by omega
    have hlt : 8 - index % 8 - 1 < 8 := by omega
    have hset : ∀ f : UInt8 → UInt8, (buff.modify (j / 8) f)[index / 8]? = some (f buff[j / 8]) := by
      intro f
      rw [hbyte, List.getElem?_modify_eq, List.getElem?_eq_getElem hj]
      rfl
    rw [bitfieldIsset_of_getElem? hsome]
    cases v
    · rw [if_neg (by decide), bitfieldClr, bitfieldIsset_of_getElem? (hset _), UInt8.toBitVec_and,
        UInt8.toBitVec_not, toBitVec_mask, BitVec.getLsbD_and, BitVec.getLsbD_not,
        BitVec.getLsbD_twoPow]
      by_cases heq : index = j
      · simp [heq]
      · simp [heq, hbit, hlt]
    · rw [if_pos rfl, bitfieldSet, bitfieldIsset_of_getElem? (hset _), UInt8.toBitVec_or,
        toBitVec_mask, BitVec.getLsbD_or, BitVec.getLsbD_twoPow]
      by_cases heq : index = j
      · simp [heq]
        omega
      · simp [heq, hbit]
  · have hne : index ≠ j := fun h => hbyte (h ▸ rfl)
    rw [if_neg hne]
    cases v
    · exact bitfieldIsset_of_byte_ne hbyte _ _
    · exact bitfieldIsset_of_byte_ne hbyte _ _

theorem length_modify_bit (j : ℕ) (buff : Bytes) (v : Bool) :
    (if v then bitfieldSet j buff else bitfieldClr j buff).length = buff.length := by
  cases v <;> simp [bitfieldSet, bitfieldClr]

theorem length_bitfieldLoop (i : ℕ) (bits : List Bool) (buff : Bytes) :
    (bitfieldLoop i bits buff).length = buff.length := by
  induction bits generalizing i buff with
  | nil => rfl
  | cons b bits ih => rw [bitfieldLoop, ih, length_modify_bit]

/-- **The loop writes the bits.** -/
theorem bitfieldIsset_loop (index i : ℕ) (bits : List Bool) (buff : Bytes)
    (hlen : i + bits.length ≤ 8 * buff.length) :
    bitfieldIsset index (bitfieldLoop i bits buff) =
      if i ≤ index ∧ index < i + bits.length then bits.getD (index - i) false
      else bitfieldIsset index buff := by
  induction bits generalizing i buff with
  | nil =>
      rw [bitfieldLoop, if_neg]
      simp only [List.length_nil]
      omega
  | cons b bits ih =>
      simp only [List.length_cons] at hlen ⊢
      rw [bitfieldLoop, ih _ _ (by rw [length_modify_bit]; omega),
        bitfieldIsset_modify _ _ _ _ (by omega)]
      rcases Nat.lt_trichotomy index i with h | rfl | h
      · rw [if_neg (by omega), if_neg (by omega), if_neg (by omega)]
      · rw [if_neg (by omega), if_pos rfl, if_pos (by omega), Nat.sub_self]
        rfl
      · rw [if_neg (by omega : ¬ index = i)]
        have hsub : index - i = (index - (i + 1)) + 1 := by omega
        by_cases hin : index < i + 1 + bits.length
        · rw [if_pos (by omega), if_pos (by omega), hsub]
          rfl
        · rw [if_neg (by omega), if_neg (by omega)]

theorem le_bitfieldNumBytes (n : ℕ) : n ≤ 8 * bitfieldNumBytes n := by
  rw [bitfieldNumBytes]
  split <;> omega

theorem bitfieldNumBytes_eq (n : ℕ) : bitfieldNumBytes n = (n + 7) / 8 := by
  rw [bitfieldNumBytes]
  split <;> omega

/-- **What a receiver reads** from the payload a sender makes of `bits`: the
bits, and zeros in the rest of the last byte. -/
theorem bitfieldIsset_payload (index : ℕ) (bits : List Bool) :
    bitfieldIsset index
        (bitfieldLoop 0 bits (List.replicate (bitfieldNumBytes bits.length) 0)) =
      bits.getD index false := by
  have hzero : ∀ n, bitfieldIsset index (List.replicate n 0) = false := by
    intro n
    rw [bitfieldIsset, List.getD_eq_getElem?_getD, List.getElem?_replicate]
    split <;> simp
  rw [bitfieldIsset_loop _ _ _ _ (by simpa using le_bitfieldNumBytes bits.length), hzero]
  simp only [Nat.zero_le, true_and, Nat.zero_add, Nat.sub_zero]
  split
  · rfl
  · rename_i h
    rw [List.getD_eq_getElem?_getD, List.getElem?_eq_none (by omega)]
    rfl

end Daobell
