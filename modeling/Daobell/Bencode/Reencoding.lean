import Daobell.Bencode.Canonical
import Daobell.Bencode.RoundTrip

/-!
Parsing a byte string of the grammar and encoding what comes out. The string is
given back when all of it is plain, and otherwise the encoder makes it plain:
it drops leading zeros and the sign of zero, and sorts the entries of each
dictionary by their keys, those under one key staying in their order.
-/

namespace Daobell

open Lib BencodeValue

namespace BencodeText

/-- At every depth no number has leading zeros, zero has no sign, and the keys of
a dictionary never decrease. -/
inductive Plain : BencodeText → Prop
  | string (s : StringText) (h : NoLeadingZeros s.digits) : Plain (.string s)
  | int (n : IntText) (h : NoLeadingZeros n.digits)
      (hsign : n.negative = true → numeral n.digits ≠ 0) : Plain (.int n)
  | list (ts : List BencodeText) (h : ∀ t ∈ ts, Plain t) : Plain (.list ts)
  | dict (es : List (StringText × BencodeText)) (hkeys : ∀ e ∈ es, NoLeadingZeros e.1.digits)
      (hsorted : es.Pairwise fun e e' => ¬ e'.1.content.Lt e.1.content)
      (h : ∀ e ∈ es, Plain e.2) : Plain (.dict es)

theorem canonical_string_iff {s : StringText} : s.Canonical ↔ NoLeadingZeros s.digits := by
  rw [StringText.Canonical, ← s.numeral_digits]
  exact decimal_numeral_iff s.digits_ne_nil s.isDigit_digits

theorem natAbs_number (n : IntText) : n.number.natAbs = numeral n.digits := by
  simp only [IntText.number, IfStream.signedNumeral]
  split <;> simp

theorem canonical_int_iff {n : IntText} :
    n.Canonical ↔ NoLeadingZeros n.digits ∧ (n.negative = true → numeral n.digits ≠ 0) := by
  rw [IntText.Canonical, natAbs_number, decimal_numeral_iff n.digits_ne_nil n.isDigit_digits,
    and_comm]
  refine and_congr_right fun _ => ?_
  cases hneg : n.negative with
  | false =>
      have hle : ¬ n.number < 0 := by simp [IntText.number, IfStream.signedNumeral, hneg]
      simp [hle]
  | true =>
      have hlt : n.number < 0 ↔ numeral n.digits ≠ 0 := by
        simp only [IntText.number, IfStream.signedNumeral, hneg, if_true]
        omega
      simp [hlt]

theorem dictSorted_entries_iff {es : List (StringText × BencodeText)} :
    DictSorted (entries es) ↔ es.Pairwise fun e e' => ¬ e'.1.content.Lt e.1.content := by
  rw [entries_eq_map]
  exact List.pairwise_map

theorem canonical_iff_plain (t : BencodeText) : t.Canonical ↔ t.Plain := by
  constructor
  · intro h
    induction h with
    | string s h => exact .string s (canonical_string_iff.mp h)
    | int n h => exact .int n (canonical_int_iff.mp h).1 (canonical_int_iff.mp h).2
    | list ts _ ih => exact .list ts ih
    | dict es hkeys hsorted _ ih =>
        exact .dict es (fun e he => canonical_string_iff.mp (hkeys e he))
          (dictSorted_entries_iff.mp hsorted) ih
  · intro h
    induction h with
    | string s h => exact .string s (canonical_string_iff.mpr h)
    | int n h hsign => exact .int n (canonical_int_iff.mpr ⟨h, hsign⟩)
    | list ts _ ih => exact .list ts ih
    | dict es hkeys hsorted _ ih =>
        exact .dict es (fun e he => canonical_string_iff.mpr (hkeys e he))
          (dictSorted_entries_iff.mpr hsorted) ih

/-- No key of a dictionary, at any depth, contains a NUL byte. -/
inductive KeysNulFree : BencodeText → Prop
  | string (s : StringText) : KeysNulFree (.string s)
  | int (n : IntText) : KeysNulFree (.int n)
  | list (ts : List BencodeText) (h : ∀ t ∈ ts, KeysNulFree t) : KeysNulFree (.list ts)
  | dict (es : List (StringText × BencodeText)) (hkeys : ∀ e ∈ es, (0 : UInt8) ∉ e.1.content.bytes)
      (h : ∀ e ∈ es, KeysNulFree e.2) : KeysNulFree (.dict es)

theorem KeysNulFree.value {t : BencodeText} (h : t.KeysNulFree) : t.value.KeysNulFree := by
  induction h with
  | string s => exact .bencodeString _
  | int n => exact .bencodeInt _
  | list ts _ ih =>
      rw [BencodeText.value, valueList_eq_map]
      refine .bencodeList _ fun v hv => ?_
      obtain ⟨t, ht, rfl⟩ := List.mem_map.mp hv
      exact ih t ht
  | dict es hkeys _ ih =>
      rw [BencodeText.value]
      refine .bencodeDict _ (fun e he => ?_) fun e he => ?_
      · obtain ⟨e', he', rfl⟩ := mem_value_dict he
        exact hkeys e' he'
      · obtain ⟨e', he', rfl⟩ := mem_value_dict he
        exact ih e' he'

end BencodeText

namespace BencodeParser

def reencode (old : Int64) (fuel : ℕ) (s : Bytes) : Except Stop Bytes :=
  parseIfs old fuel (.ofBytes s) >>= fun r => r.1.encode.mapError .crash

/-- Every string of the grammar is encoded again, with a bound that is large
enough. -/
theorem reencode_spell (old : Int64) (t : BencodeText) {fuel : ℕ} (hfuel : t.rounds ≤ fuel) :
    reencode old fuel t.spell = .ok t.value.crawl := by
  have hparse := parseIfs_spell old t [] fuel hfuel
  rw [List.append_nil] at hparse
  rw [reencode, hparse, ok_bind, encode_of_wellFormed (BencodeText.wellFormed_value t)]
  rfl

/-- **The fixpoints of parsing and encoding.** A string of the grammar comes back
as it was if and only if it is plain at every depth; and what comes back is a
fixpoint. -/
theorem reencode_eq_iff (old : Int64) (t : BencodeText) (hkeys : t.KeysNulFree) :
    ∃ encoded rounds, (∀ fuel ≥ rounds, reencode old fuel t.spell = .ok encoded) ∧
      (encoded = t.spell ↔ t.Plain) ∧
      ∃ rounds', ∀ fuel ≥ rounds', reencode old fuel encoded = .ok encoded := by
  have hwf := BencodeText.wellFormed_value t
  refine ⟨t.value.crawl, t.rounds, fun fuel hfuel => reencode_spell old t hfuel, ?_, ?_⟩
  · rw [BencodeText.crawl_value_eq_spell_iff t hkeys.value, BencodeText.canonical_iff_plain]
  · have hspell := BencodeText.spell_ofValue hwf.noNull hkeys.value
    refine ⟨(BencodeText.ofValue t.value).rounds, fun fuel hfuel => ?_⟩
    have hagain := reencode_spell old (BencodeText.ofValue t.value) hfuel
    rwa [hspell, BencodeText.value_ofValue hwf] at hagain

def leadingZero : BencodeText :=
  .dict [(.ofString ⟨[97], by decide⟩,
    .int ⟨false, [48, 51], by decide, List.all_eq_true.mp rfl, by decide, by decide⟩)]

theorem reencode_eq_iff_leadingZero :
    leadingZero.spell = bytesOf "d1:ai03ee" ∧
      ∃ encoded rounds, (∀ fuel ≥ rounds, reencode 0 fuel leadingZero.spell = .ok encoded) ∧
        encoded ≠ leadingZero.spell := by
  obtain ⟨encoded, rounds, heq, hiff, -⟩ := reencode_eq_iff 0 leadingZero
    (.dict _ (by decide) (by simpa using .int _))
  refine ⟨by decide, encoded, rounds, heq, fun h => ?_⟩
  cases hiff.mp h with
  | dict _ _ _ hvalues =>
      cases hvalues _ List.mem_cons_self with
      | int _ hzeros => exact absurd hzeros (by decide)

end BencodeParser

end Daobell
