import Daobell.Cxx
import Daobell.Lib.Percent

/-!
The percent-encoding of `utils.cpp`. A byte is classified as a `char`, which is
signed, so that those from 128 on are negative there.
-/

namespace Daobell.Utils

open Lib

def isAlpha (ch : Int8) : Bool :=
  (decide (97 ≤ ch) && decide (ch ≤ 122)) || (decide (65 ≤ ch) && decide (ch ≤ 90))

def isDigit (ch : Int8) : Bool := decide (48 ≤ ch) && decide (ch ≤ 57)

def unreservedMarks : List Int8 := [45, 46, 95, 126]

def isRfc3986UnreservedChars (ch : Int8) : Bool :=
  isAlpha ch || isDigit ch || unreservedMarks.contains ch

/-- The conversion `%02X`: upper case digits, with zeros in front up to two. -/
def fmt02X (n : ℕ) : Bytes :=
  let digits := (Nat.digits 16 n).reverse.map upperHex
  List.replicate (2 - digits.length) 48 ++ digits

def percentEncodeByte (result : Bytes) (b : UInt8) : Bytes :=
  if isRfc3986UnreservedChars b.toInt8 then result ++ [b]
  else result ++ (bytesOf "%" ++ fmt02X b.toNat)

/-- `percent_encode` of the bytes at a pointer. -/
def percentEncode (target : Bytes) : Bytes := target.foldl percentEncodeByte []

/-- `percent_encode` of a `std::string`, which looks for a byte to encode first. -/
def percentEncodeString (target : Bytes) : Bytes :=
  if target.find? (fun b => ¬ isRfc3986UnreservedChars b.toInt8) = none then target
  else percentEncode target

/-! ### The encoding as RFC 3986 has it -/

/-- The unreserved characters: letters, digits and four marks. -/
def rfc3986Unreserved : Bytes :=
  bytesOf "ABCDEFGHIJKLMNOPQRSTUVWXYZabcdefghijklmnopqrstuvwxyz0123456789-._~"

def unreserved (b : UInt8) : Bool := rfc3986Unreserved.contains b

/-- Numbers are compared faster than bytes when all the bytes are gone through. -/
theorem unreserved_iff (b : UInt8) : unreserved b = true ↔
    b.toNat ∈ List.range' 65 26 ++ List.range' 97 26 ++ List.range' 48 10 ++ [45, 46, 95, 126] := by
  have hlist : rfc3986Unreserved = (List.range' 65 26 ++ List.range' 97 26 ++ List.range' 48 10 ++
      [45, 46, 95, 126]).map UInt8.ofNat := by
    decide +kernel
  rw [unreserved, List.contains_iff_mem, hlist, List.mem_map]
  generalize hl : List.range' 65 26 ++ List.range' 97 26 ++ List.range' 48 10 ++
    [45, 46, 95, 126] = l
  have hlt : ∀ n ∈ l, n < 256 := by
    rw [← hl]
    decide
  constructor
  · rintro ⟨n, hn, rfl⟩
    rwa [UInt8.toNat_ofNat_of_lt' (hlt n hn)]
  · intro hb
    exact ⟨b.toNat, hb, UInt8.ofNat_toNat⟩

theorem isRfc3986UnreservedChars_toInt8 (b : UInt8) :
    isRfc3986UnreservedChars b.toInt8 = unreserved b := by
  have h : ∀ n < 256, isRfc3986UnreservedChars (UInt8.ofNat n).toInt8 = true ↔
      n ∈ List.range' 65 26 ++ List.range' 97 26 ++ List.range' 48 10 ++ [45, 46, 95, 126] := by
    decide +kernel
  have hb := h b.toNat b.toNat_lt
  rw [UInt8.ofNat_toNat, ← unreserved_iff] at hb
  exact Bool.eq_iff_iff.mpr hb

theorem fmt02X_toNat (b : UInt8) :
    fmt02X b.toNat = [upperHex (b.toNat / 16), upperHex (b.toNat % 16)] := by
  have hb := b.toNat_lt
  generalize b.toNat = n at hb
  rcases Nat.lt_or_ge n 16 with hn | hn
  -- one digit or none, with zeros in front
  · rw [Nat.div_eq_of_lt hn, Nat.mod_eq_of_lt hn, fmt02X]
    rcases Nat.eq_zero_or_pos n with rfl | hpos
    · rw [Nat.digits_zero]
      rfl
    · rw [Nat.digits_of_lt 16 n hpos.ne' hn]
      rfl
  · rw [fmt02X, Nat.digits_def' (by decide) (by omega),
      Nat.digits_of_lt 16 (n / 16) (by omega) (by omega)]
    rfl

/-- The loop is the encoding with the unreserved characters kept. -/
theorem percentEncode_eq (target : Bytes) :
    percentEncode target = Lib.percentEncode unreserved target := by
  have hround : percentEncodeByte =
      fun result b => result ++ if unreserved b then [b] else percentTriple b := by
    funext result b
    rw [percentEncodeByte, isRfc3986UnreservedChars_toInt8, fmt02X_toNat]
    split <;> rfl
  rw [percentEncode, hround]
  exact List.flatMap_eq_foldl.symm

theorem unreserved_percentSign : unreserved percentSign = false := by decide

theorem percentDecode_encode (target : Bytes) : percentDecode (percentEncode target) = target := by
  rw [percentEncode_eq, percentDecode_percentEncode unreserved_percentSign]

/-- The fast path agrees with the loop. -/
theorem percentEncodeString_eq (target : Bytes) :
    percentEncodeString target = percentEncode target := by
  rw [percentEncodeString]
  split
  · rename_i hnone
    rw [percentEncode_eq, percentEncode_eq_self]
    intro b hb
    have hall := List.find?_eq_none.mp hnone b hb
    rw [← isRfc3986UnreservedChars_toInt8]
    simpa using hall
  · rfl

/-- **Percent-encoding** gives unreserved characters and well formed triples, it can
be decoded and is injective, and the two overloads agree. -/
theorem percentEncode_spec :
    (∀ target, PercentEncoded unreserved (percentEncode target)) ∧
      (∀ target, percentDecode (percentEncode target) = target) ∧
      Function.Injective percentEncode ∧
      ∀ target, percentEncodeString target = percentEncode target := by
  refine ⟨fun target => ?_, percentDecode_encode, ?_, percentEncodeString_eq⟩
  · rw [percentEncode_eq]
    exact percentEncoded_percentEncode target
  · exact Function.LeftInverse.injective percentDecode_encode

example : percentEncode [97, 0, 47, 255] = bytesOf "a%00%2F%FF" := by decide +kernel

end Daobell.Utils
