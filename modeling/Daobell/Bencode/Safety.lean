import Daobell.Bencode.Scanning

/-!
When the bencode parser in memory reads outside its string or dereferences a
null pointer. The only bound it has is the NUL byte at the end, which it takes
for a byte that begins no value; a length that is announced is never compared
with what is left, and a key is never tested.
-/

namespace Daobell

open Lib

theorem mem_dropWhile_of_not {f : UInt8 → Bool} {b : UInt8} {l : Bytes} (hb : f b = false)
    (h : b ∈ l) : b ∈ l.dropWhile f := by
  rw [← List.takeWhile_append_dropWhile (p := f) (l := l), List.mem_append] at h
  rcases h with h | h
  · exact absurd (List.mem_takeWhile_imp h) (by simp [hb])
  · exact h

/-- A NUL byte ends the scan of a number. -/
theorem strtol_ne_none {l : Bytes} (h : (0 : UInt8) ∈ l) : strtol l ≠ none := by
  have hspaces : (0 : UInt8) ∈ l.drop (l.takeWhile IfStream.isSpace).length := by
    rw [← List.take_append_drop (l.takeWhile IfStream.isSpace).length l, List.mem_append,
      ← List.prefix_iff_eq_take.mp (List.takeWhile_prefix IfStream.isSpace)] at h
    rcases h with h | h
    · exact absurd (List.mem_takeWhile_imp h) (by decide)
    · exact h
  have hrest : (IfStream.signedDigits (l.drop (l.takeWhile IfStream.isSpace).length)).2.2 ≠ [] := by
    refine List.ne_nil_of_mem (a := 0) (mem_dropWhile_of_not (by decide) ?_)
    split
    -- the sign is not the NUL byte
    · rename_i hsign
      cases hl : l.drop (l.takeWhile IfStream.isSpace).length with
      | nil => simp [hl] at hspaces
      | cons b m =>
          rw [hl] at hspaces hsign
          rcases List.mem_cons.mp hspaces with rfl | hm
          · simp only [List.head?_cons] at hsign
            exact absurd hsign (by decide)
          · exact hm
    · exact hspaces
  rw [strtol]
  simp only [hrest, if_false]
  split <;> simp

namespace BencodeParser

/-- Followed from its start, the string has no place outside it that is looked
at, no string that announces more bytes than there are, and no key that is not
a string. -/
structure StaysInside (buf : Bytes) : Prop where
  place : ∀ g p, (scanMem buf).Reaches .value 0 g p → p < buf.length
  content : ∀ p length used, (scanMem buf).Reaches .value 0 .value p →
    (∃ b ∈ buf[p]?, isDigit b = true) → strtol (buf.drop p) = some (length, used) →
    p + used + 1 + length.toNat ≤ buf.length
  key : ∀ p p', (scanMem buf).Reaches .value 0 .entries p →
    (∃ b ∈ buf[p]?, b ≠ 'e'.toUInt8) → ¬ (scanMem buf).Reads .value p false p'

theorem lookMem_eq_more {buf : Bytes} {p : ℕ} {b : UInt8} (hb : buf[p]? = some b)
    (hne : b ≠ 'e'.toUInt8) : lookMem buf p = .more p := by
  rw [lookMem, hb]
  exact if_neg hne

/-- The NUL byte at the end is still ahead. -/
theorem zero_mem_drop {s : Bytes} {p : ℕ} (hp : p < (s ++ [(0 : UInt8)]).length) :
    (0 : UInt8) ∈ (s ++ [0]).drop p := by
  rw [List.length_append, List.length_singleton] at hp
  rw [List.drop_append_of_le_length (by omega)]
  exact List.mem_append_right _ List.mem_cons_self

theorem staysInside_of_not_faulty {s : Bytes}
    (h : ∀ g p c, (scanMem (s ++ [0])).Reaches .value 0 g p →
      ¬ (scanMem (s ++ [0])).Faulty g p c) : StaysInside (s ++ [0]) := by
  constructor
  · intro g p hs
    by_contra hge
    have hnone : (s ++ [(0 : UInt8)])[p]? = none :=
      List.getElem?_eq_none (Nat.le_of_not_lt hge)
    have htoken : tokenMem (s ++ [0]) p = .fault .outOfRange := by
      rw [tokenMem, hnone]
    have hlook : lookMem (s ++ [0]) p = .fault .outOfRange := by
      rw [lookMem, hnone]
    cases g with
    | value => exact h _ _ _ hs (.token htoken)
    | elements => exact h _ _ _ hs (.elements hlook)
    | entries => exact h _ _ _ hs (.entries hlook)
  · rintro p length used hs ⟨b, hb, hdigit⟩ hscan
    by_contra hroom
    refine h _ _ .outOfRange hs (.token ?_)
    rw [Option.mem_def] at hb
    simp only [scanMem, tokenMem, hb, hdigit, if_true, stringTokenMem, hscan, if_neg hroom]
  · rintro p p' hs ⟨b, hb, hne⟩ hread
    exact h _ _ _ hs (.key (lookMem_eq_more hb hne) hread)

theorem not_faulty_of_staysInside {s : Bytes} (h : StaysInside (s ++ [0])) {g : Goal} {p : ℕ}
    {c : Crash} (hs : (scanMem (s ++ [0])).Reaches .value 0 g p) :
    ¬ (scanMem (s ++ [0])).Faulty g p c := by
  have hp := h.place g p hs
  obtain ⟨b, hb⟩ : ∃ b, (s ++ [0])[p]? = some b := ⟨_, List.getElem?_eq_getElem hp⟩
  have hlook : ∀ c, lookMem (s ++ [0]) p ≠ .fault c := by
    intro c
    rw [lookMem, hb]
    simp only
    split <;> simp
  intro hfault
  cases hfault with
  | elements hl => exact hlook c hl
  | entries hl => exact hlook c hl
  | key hl hk =>
      obtain ⟨rfl, hne⟩ := lookMem_more hl
      exact h.key _ _ hs hne hk
  | token ht =>
      simp only [scanMem, tokenMem, hb] at ht
      split at ht
      · rename_i hdigit
        unfold stringTokenMem at ht
        split at ht
        · exact strtol_ne_none (zero_mem_drop hp) ‹_›
        · rename_i hscan
          rw [if_pos (h.content p _ _ hs ⟨b, hb, hdigit⟩ hscan)] at ht
          cases ht
      · split at ht
        · rename_i hi
          -- the byte `i` is not the NUL byte, so that one is behind it
          have hp' : p + 1 < (s ++ [(0 : UInt8)]).length := by
            by_contra hlast
            rw [List.length_append, List.length_singleton] at hp hlast
            have hzero : (s ++ [(0 : UInt8)])[p]? = some 0 := by
              rw [List.getElem?_append_right (by omega), show p - s.length = 0 by omega]
              rfl
            rw [hb, hi, Option.some.injEq] at hzero
            exact absurd hzero (by decide)
          unfold intTokenMem at ht
          split at ht
          · exact strtol_ne_none (zero_mem_drop hp') ‹_›
          · cases ht
        · repeat' split at ht
          all_goals cases ht

theorem endingOf_eq_faulted {α β : Type} {f : α → β} {x : Except Stop α} {c : Crash} :
    endingOf f x = .faulted c ↔ x = .error (.crash c) := by
  rcases x with (_ | c) | a <;> simp [endingOf]

/-- **Reads outside the string.** The parser in memory, run on a string with a
NUL byte behind it, crashes on no bound if and only if the string never leads
it outside. -/
theorem parseMem_safe_iff (s : Bytes) :
    (∀ fuel c, parseMem fuel (s ++ [0]) 0 ≠ .error (.crash c)) ↔ StaysInside (s ++ [0]) := by
  have hcrash : ∀ c, (∃ fuel, parseMem fuel (s ++ [0]) 0 = .error (.crash c)) ↔
      ∃ g p, (scanMem (s ++ [0])).Reaches .value 0 g p ∧ (scanMem (s ++ [0])).Faulty g p c := by
    intro c
    rw [← Scanner.faulted_iff]
    apply exists_congr
    intro fuel
    rw [← (parseMem_read _ fuel).1, endingOf_eq_faulted]
  constructor
  · intro hsafe
    apply staysInside_of_not_faulty
    intro g p c hs hfault
    obtain ⟨fuel, hfuel⟩ := (hcrash c).mpr ⟨g, p, hs, hfault⟩
    exact hsafe fuel c hfuel
  · intro h fuel c hfuel
    obtain ⟨g, p, hs, hfault⟩ := (hcrash c).mp ⟨fuel, hfuel⟩
    exact not_faulty_of_staysInside h hs hfault

/-- The string `5:ab` announces more than there is, and the dictionary `di1ee`
has a key that is no string. -/
theorem parseMem_crashes :
    (∃ fuel, parseMem fuel (bytesOf "5:ab" ++ [0]) 0 = .error (.crash .outOfRange)) ∧
      ∃ fuel, parseMem fuel (bytesOf "di1ee" ++ [0]) 0 = .error (.crash .nullDereference) :=
  ⟨⟨1, rfl⟩, ⟨3, rfl⟩⟩

end BencodeParser

end Daobell
