import Mathlib.Algebra.Order.Ring.Nat

/-!
Words of 32 bits as four bytes, the most significant first.
-/

namespace Daobell.Lib

/-- The four bytes of a word. -/
def wordBytes (w : UInt32) : List UInt8 :=
  [(w >>> 24).toUInt8, (w >>> 16).toUInt8, (w >>> 8).toUInt8, w.toUInt8]

/-- The word that the first four bytes of a string are. -/
def wordAt (bytes : List UInt8) : UInt32 :=
  match bytes with
  | b₀ :: b₁ :: b₂ :: b₃ :: _ =>
      (b₀.toUInt32 <<< 24) ||| (b₁.toUInt32 <<< 16) ||| (b₂.toUInt32 <<< 8) ||| b₃.toUInt32
  | _ => 0

@[simp] theorem length_wordBytes (w : UInt32) : (wordBytes w).length = 4 := rfl

theorem toNat_wordAt (b₀ b₁ b₂ b₃ : UInt8) (rest : List UInt8) :
    (wordAt (b₀ :: b₁ :: b₂ :: b₃ :: rest)).toNat =
      b₀.toNat * 2 ^ 24 + b₁.toNat * 2 ^ 16 + b₂.toNat * 2 ^ 8 + b₃.toNat := by
  have h₀ := b₀.toNat_lt
  have h₁ := b₁.toNat_lt
  have h₂ := b₂.toNat_lt
  have h₃ := b₃.toNat_lt
  have hlow : b₂.toNat <<< 8 ||| b₃.toNat = b₂.toNat * 2 ^ 8 + b₃.toNat := by
    rw [← Nat.shiftLeft_add_eq_or_of_lt h₃, Nat.shiftLeft_eq]
  have hmid : b₁.toNat <<< 16 ||| (b₂.toNat <<< 8 ||| b₃.toNat) =
      b₁.toNat * 2 ^ 16 + (b₂.toNat * 2 ^ 8 + b₃.toNat) := by
    rw [hlow, ← Nat.shiftLeft_add_eq_or_of_lt (by omega), Nat.shiftLeft_eq]
  have hmod : ∀ b i : ℕ, b < 2 ^ 8 → i ≤ 24 → b <<< i % 2 ^ 32 = b <<< i := by
    intro b i hb hi
    rw [Nat.shiftLeft_eq]
    refine Nat.mod_eq_of_lt ?_
    calc b * 2 ^ i < 2 ^ 8 * 2 ^ i := Nat.mul_lt_mul_of_pos_right hb (Nat.two_pow_pos i)
      _ ≤ 2 ^ 8 * 2 ^ 24 := Nat.mul_le_mul_left _ (Nat.pow_le_pow_right (by decide) hi)
      _ = 2 ^ 32 := by decide
  simp only [wordAt, UInt32.toNat_or, UInt32.toNat_shiftLeft, UInt8.toNat_toUInt32]
  change b₀.toNat <<< 24 % 2 ^ 32 ||| b₁.toNat <<< 16 % 2 ^ 32 ||| b₂.toNat <<< 8 % 2 ^ 32 |||
    b₃.toNat = _
  rw [hmod _ _ h₀ le_rfl, hmod _ _ h₁ (by decide), hmod _ _ h₂ (by decide), Nat.or_assoc,
    Nat.or_assoc, hmid, ← Nat.shiftLeft_add_eq_or_of_lt (by omega), Nat.shiftLeft_eq]
  omega

@[simp] theorem wordAt_wordBytes (w : UInt32) (rest : List UInt8) : wordAt (wordBytes w ++ rest) = w := by
  apply UInt32.toNat.inj
  have hw := w.toNat_lt
  have hbyte : ∀ i : UInt32, (w >>> i).toUInt8.toNat = w.toNat / 2 ^ (i.toNat % 32) % 2 ^ 8 := by
    intro i
    rw [UInt32.toNat_toUInt8, UInt32.toNat_shiftRight, Nat.shiftRight_eq_div_pow]
  rw [wordBytes, List.cons_append, List.cons_append, List.cons_append, List.cons_append,
    toNat_wordAt, hbyte, hbyte, hbyte, UInt32.toNat_toUInt8]
  change w.toNat / 2 ^ 24 % 2 ^ 8 * 2 ^ 24 + w.toNat / 2 ^ 16 % 2 ^ 8 * 2 ^ 16 +
    w.toNat / 2 ^ 8 % 2 ^ 8 * 2 ^ 8 + w.toNat % 2 ^ 8 = w.toNat
  omega

theorem wordAt_wordBytes_self (w : UInt32) : wordAt (wordBytes w) = w := by
  simpa using wordAt_wordBytes w []

theorem wordAt_take (bytes : List UInt8) (n : ℕ) (hn : 4 ≤ n) :
    wordAt (bytes.take n) = wordAt bytes := by
  obtain ⟨n, rfl⟩ := Nat.exists_eq_add_of_le' hn
  rcases bytes with _ | ⟨b₀, _ | ⟨b₁, _ | ⟨b₂, _ | ⟨b₃, bytes⟩⟩⟩⟩ <;> rfl

end Daobell.Lib
