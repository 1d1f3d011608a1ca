import Daobell.Bencode.Scanning

/-!
When the bencode parsers come to an end. Both go through their input and never
back, except that a list loop goes on where no element can be read: on a file
that has nothing more to give, and in memory on a byte that begins no value,
which is read as a null value and left where it is.
-/

namespace Daobell

open Lib

def IfStream.unread (ifs : IfStream) : ℕ := if ifs.good then ifs.rest.length else 0

namespace IfStream

theorem unread_of_good {ifs : IfStream} (h : ifs.good = true) : ifs.unread = ifs.rest.length :=
  if_pos h

theorem unread_le (ifs : IfStream) : ifs.unread ≤ ifs.rest.length := by
  unfold unread
  split <;> omega

theorem get_cases (ifs : IfStream) :
    (∃ b ifs', ifs.get = (some b, ifs') ∧ ifs.unread = ifs'.unread + 1 ∧
      ifs.rest = b :: ifs'.rest ∧ ifs'.good = true) ∨
    (∃ ifs', ifs.get = (none, ifs') ∧ ifs.unread = 0 ∧ ifs'.unread = 0) := by
  obtain ⟨rest, eofbit, failbit⟩ := ifs
  cases eofbit <;> cases failbit <;> cases rest <;> simp [get, good, unread]

theorem get_unread_le (ifs : IfStream) : ifs.get.2.unread ≤ ifs.unread := by
  rcases get_cases ifs with ⟨b, ifs', h, hu, -⟩ | ⟨ifs', h, hu, hu'⟩
  · rw [h, hu]
    exact Nat.le_succ _
  · rw [h, hu, hu']

theorem peek_unread (ifs : IfStream) : ifs.peek.2.unread = ifs.unread := by
  obtain ⟨rest, eofbit, failbit⟩ := ifs
  cases eofbit <;> cases failbit <;> cases rest <;> simp [peek, good, unread]

theorem peek_of_unread {ifs : IfStream} (h : ifs.unread = 0) : ifs.peek.1 = none := by
  obtain ⟨rest, eofbit, failbit⟩ := ifs
  cases eofbit <;> cases failbit <;> cases rest <;> simp_all [peek, good, unread]

theorem read_unread_le (ifs : IfStream) (n : ℕ) : (ifs.read n).2.unread ≤ ifs.unread := by
  unfold read
  split
  · rename_i hgood
    split
    · refine (unread_le _).trans ?_
      simp [unread_of_good hgood]
    · exact Nat.zero_le _
  · simp [unread, good]

theorem unread_failed (rest : Bytes) (eofbit : Bool) : unread ⟨rest, eofbit, true⟩ = 0 := by
  simp [unread, good]

theorem skipSpace_unread_le (ifs : IfStream) : ifs.skipSpace.unread ≤ ifs.unread := by
  unfold skipSpace
  split
  · rename_i hgood
    rw [unread_of_good hgood]
    have hle := (List.dropWhile_suffix isSpace (l := ifs.rest)).length_le
    split
    · simp [unread_failed]
    · rename_i hrest
      exact (unread_le _).trans hle
  · simp [unread_failed]

/-- A number of a file takes at least its first digit off the stream. -/
theorem extractSize_unread_le {ifs : IfStream} {ch : UInt8} {r : Bytes} (hgood : ifs.good = true)
    (hrest : ifs.rest = ch :: r) (hch : isDigit ch = true) (old : ℕ) :
    (ifs.extractSize old).2.unread ≤ r.length := by
  have hskip : ifs.skipSpace = ifs := by
    obtain ⟨rest, eofbit, failbit⟩ := ifs
    simp only at hrest
    subst hrest
    simp [skipSpace, hgood, isSpace_eq_false_of_isDigit hch]
  have hdrop : (ifs.rest.dropWhile isDigit).length ≤ r.length := by
    rw [hrest, List.dropWhile_cons_of_pos hch]
    exact (List.dropWhile_suffix isDigit).length_le
  simp only [extractSize, hskip, hgood, if_true]
  split
  · exact (unread_le _).trans hdrop
  · split
    · exact (unread_le _).trans hdrop
    · exact (unread_le _).trans hdrop

theorem putback_of_good {ifs : IfStream} (b : UInt8) (hgood : ifs.good = true) :
    (ifs.putback b).good = true ∧ (ifs.putback b).rest = b :: ifs.rest := by
  obtain ⟨rest, eofbit, failbit⟩ := ifs
  cases eofbit <;> cases failbit <;> simp_all [putback, good]

theorem signedDigits_length_le (l : Bytes) : (signedDigits l).2.2.length ≤ l.length := by
  have htail : ∀ b : Bool, (if b then l.tail else l).length ≤ l.length := by
    intro b
    cases b <;> simp
  exact (List.dropWhile_suffix isDigit).length_le.trans (htail _)

theorem extractLongLong_unread_le (ifs : IfStream) :
    ifs.extractLongLong.2.unread ≤ ifs.unread := by
  refine Nat.le_trans ?_ (skipSpace_unread_le ifs)
  unfold extractLongLong
  simp only
  split
  · rename_i hgood
    have hle := signedDigits_length_le ifs.skipSpace.rest
    rw [unread_of_good hgood]
    split
    · exact (unread_le _).trans hle
    · exact (unread_le _).trans hle
  · exact le_rfl

end IfStream

namespace BencodeParser

theorem stringTokenIfs_ne_list (ifs s' : IfStream) : stringTokenIfs ifs ≠ .list s' := by
  simp only [stringTokenIfs]
  split <;> simp

theorem stringTokenIfs_ne_dict (ifs s' : IfStream) : stringTokenIfs ifs ≠ .dict s' := by
  simp only [stringTokenIfs]
  split <;> simp

theorem stringTokenIfs_unread_le {ifs s' : IfStream} {ch : UInt8} {r : Bytes} {text : Bool}
    (hgood : ifs.good = true) (hrest : ifs.rest = ch :: r) (hch : isDigit ch = true)
    (h : stringTokenIfs ifs = .leaf text s') : s'.unread ≤ r.length := by
  simp only [stringTokenIfs] at h
  split at h
  · cases h
    exact (IfStream.read_unread_le _ _).trans ((IfStream.get_unread_le _).trans
      (IfStream.extractSize_unread_le hgood hrest hch 0))
  · cases h

/-- On a stream that has something to give, every token takes some of it. -/
theorem tokenIfs_unread_lt {ifs s' : IfStream} (hpos : 0 < ifs.unread)
    (h : (∃ text, tokenIfs ifs = .leaf text s') ∨ tokenIfs ifs = .list s' ∨
      tokenIfs ifs = .dict s') : s'.unread < ifs.unread := by
  rcases ifs.get_cases with ⟨ch, ifs', hget, hu, hrest, hgood⟩ | ⟨ifs', hget, hu, -⟩
  · simp only [tokenIfs, hget] at h
    have hlen : ifs'.unread = ifs'.rest.length := IfStream.unread_of_good hgood
    split at h
    · rename_i hch
      obtain ⟨hgood', hrest'⟩ := IfStream.putback_of_good ch hgood
      rcases h with ⟨text, h⟩ | h | h
      · have hle := stringTokenIfs_unread_le hgood' hrest' hch h
        omega
      · exact absurd h (stringTokenIfs_ne_list _ _)
      · exact absurd h (stringTokenIfs_ne_dict _ _)
    · split at h
      · have hle := (IfStream.get_unread_le _).trans (IfStream.extractLongLong_unread_le ifs')
        simp only [Token.leaf.injEq, reduceCtorEq, or_self, or_false] at h
        obtain ⟨text, -, rfl⟩ := h
        omega
      · have hs' : ifs' = s' := by
          split at h
          · simpa using h
          · split at h
            · simpa using h
            · simpa using h
        subst hs'
        omega
  · omega

/-- A stream that has nothing to give is read as a null value, again and again. -/
theorem tokenIfs_of_unread {ifs : IfStream} (h : ifs.unread = 0) :
    ∃ s', tokenIfs ifs = .leaf false s' ∧ s'.unread = 0 := by
  rcases ifs.get_cases with ⟨ch, ifs', hget, hu, -⟩ | ⟨ifs', hget, -, hu'⟩
  · omega
  · exact ⟨ifs', by rw [tokenIfs, hget], hu'⟩

theorem unread_pos_of_token {ifs : IfStream} {t : Token Crash IfStream} (h : tokenIfs ifs = t)
    (ht : ∀ s', t ≠ .leaf false s') : 0 < ifs.unread := by
  by_contra h0
  obtain ⟨s', hs', -⟩ := tokenIfs_of_unread (Nat.eq_zero_of_not_pos h0)
  exact ht s' (h.symm.trans hs')

theorem lookIfs_more {ifs s₁ : IfStream} (h : lookIfs ifs = .more s₁) :
    s₁ = ifs.peek.2 ∧ s₁.unread = ifs.unread := by
  unfold lookIfs at h
  split at h
  · cases h
  · cases h
    exact ⟨rfl, ifs.peek_unread⟩

theorem lookIfs_close {ifs s₁ : IfStream} (h : lookIfs ifs = .close s₁) :
    s₁.unread ≤ ifs.unread := by
  unfold lookIfs at h
  split at h
  · cases h
    exact ifs.peek_unread ▸ IfStream.get_unread_le _
  · cases h

/-- The file parser is stalled where the stream has nothing to give. -/
theorem progress_scanIfs : scanIfs.Progress IfStream.unread fun ifs => ifs.unread = 0 where
  list h := tokenIfs_unread_lt (unread_pos_of_token h nofun) (.inr (.inl h))
  dict h := tokenIfs_unread_lt (unread_pos_of_token h nofun) (.inr (.inr h))
  text h := tokenIfs_unread_lt (unread_pos_of_token h nofun) (.inl ⟨true, h⟩)
  leaf := by
    intro s s₁ text h
    rcases Nat.eq_zero_or_pos s.unread with h0 | hpos
    · obtain ⟨t, ht, hu⟩ := tokenIfs_of_unread h0
      cases h.symm.trans ht
      omega
    · exact (tokenIfs_unread_lt hpos (.inl ⟨text, h⟩)).le
  close := lookIfs_close
  more h := (lookIfs_more h).2.le
  element := by
    intro s s₁ s₂ text hl hs ht
    have hu := (lookIfs_more hl).2
    exact tokenIfs_unread_lt (by omega) (.inl ⟨text, ht⟩)
  stalled := by
    intro s hs
    have hl : scanIfs.look s = .more s.peek.2 := by
      simp [scanIfs, lookIfs, IfStream.peek_of_unread hs]
    obtain ⟨s₂, ht, hs₂⟩ := tokenIfs_of_unread (s.peek_unread.trans hs)
    exact ⟨_, false, s₂, hl, ht, hs₂⟩

/-! ### The parser on a string in memory -/

def beginsValue (b : UInt8) : Prop :=
  isDigit b = true ∨ b = 'i'.toUInt8 ∨ b = 'l'.toUInt8 ∨ b = 'd'.toUInt8

instance : DecidablePred beginsValue := fun _ => inferInstanceAs (Decidable (_ ∨ _))

/-- An element of a list is due at a byte that begins no value and does not end
the list. -/
def StalledMem (buf : Bytes) (p : ℕ) : Prop :=
  ∃ b ∈ buf[p]?, ¬ beginsValue b ∧ b ≠ 'e'.toUInt8

/-- A token in memory is read in front of the place it leads to, except for a
byte that begins no value. -/
theorem tokenMem_cases (buf : Bytes) (p : ℕ) :
    (∃ e, tokenMem buf p = .fault e) ∨
    (p < buf.length ∧ ∃ p' > p, (∃ text, tokenMem buf p = .leaf text p') ∨
      tokenMem buf p = .list p' ∨ tokenMem buf p = .dict p') ∨
    (tokenMem buf p = .leaf false p ∧ ∃ b ∈ buf[p]?, ¬ beginsValue b) := by
  unfold tokenMem
  cases hb : buf[p]? with
  | none => exact .inl ⟨_, rfl⟩
  | some b =>
      have hlt : p < buf.length := (List.getElem?_eq_some_iff.mp hb).1
      simp only
      by_cases hdigit : isDigit b = true
      · rw [if_pos hdigit]
        unfold stringTokenMem
        split
        · exact .inl ⟨_, rfl⟩
        · split
          · exact .inr (.inl ⟨hlt, _, by omega, .inl ⟨true, rfl⟩⟩)
          · exact .inl ⟨_, rfl⟩
      rw [if_neg hdigit]
      by_cases hi : b = 'i'.toUInt8
      · rw [if_pos hi]
        unfold intTokenMem
        split
        · exact .inl ⟨_, rfl⟩
        · exact .inr (.inl ⟨hlt, _, by omega, .inl ⟨false, rfl⟩⟩)
      rw [if_neg hi]
      by_cases hl : b = 'l'.toUInt8
      · rw [if_pos hl]
        exact .inr (.inl ⟨hlt, p + 1, by omega, .inr (.inl rfl)⟩)
      rw [if_neg hl]
      by_cases hd : b = 'd'.toUInt8
      · rw [if_pos hd]
        exact .inr (.inl ⟨hlt, p + 1, by omega, .inr (.inr rfl)⟩)
      rw [if_neg hd]
      exact .inr (.inr ⟨rfl, b, rfl, by simp [beginsValue, hdigit, hi, hl, hd]⟩)

theorem lookMem_close {buf : Bytes} {p p₁ : ℕ} (h : lookMem buf p = .close p₁) : p₁ = p + 1 := by
  unfold lookMem at h
  split at h
  · cases h
  · split at h
    · cases h
      rfl
    · cases h

theorem lookMem_stalled {buf : Bytes} {p : ℕ} (h : StalledMem buf p) : lookMem buf p = .more p := by
  obtain ⟨b, hb, -, hne⟩ := h
  rw [Option.mem_def] at hb
  simp [lookMem, hb, hne]

theorem tokenMem_stalled {buf : Bytes} {p : ℕ} (h : StalledMem buf p) :
    tokenMem buf p = .leaf false p := by
  obtain ⟨b, hb, hnone, -⟩ := h
  rw [Option.mem_def] at hb
  simp only [beginsValue, not_or] at hnone
  simp [tokenMem, hb, hnone]

/-- Every token leads on, except for a byte that begins no value. -/
theorem tokenMem_advances {buf : Bytes} {p p₁ : ℕ}
    (h : (∃ text, tokenMem buf p = .leaf text p₁) ∨ tokenMem buf p = .list p₁ ∨
      tokenMem buf p = .dict p₁) :
    buf.length - p₁ < buf.length - p ∨
      p₁ = p ∧ tokenMem buf p = .leaf false p ∧ ∃ b ∈ buf[p]?, ¬ beginsValue b := by
  rcases tokenMem_cases buf p with ⟨e, ht⟩ | ⟨hlt, p', hp', ht⟩ | ⟨ht, hnone⟩
  · simp [ht] at h
  · have hsame : p' = p₁ := by
      rcases ht with ⟨text, ht⟩ | ht | ht
      all_goals simpa [ht] using h
    omega
  · have hsame : p = p₁ := by simpa [ht] using h
    exact .inr ⟨hsame.symm, ht, hnone⟩

/-- The parser in memory is stalled at a byte that begins no value. -/
theorem progress_scanMem (buf : Bytes) :
    (scanMem buf).Progress (fun p => buf.length - p) (StalledMem buf) where
  list := by
    intro p p₁ h
    rcases tokenMem_advances (.inr (.inl h)) with hlt | ⟨-, ht, -⟩
    · exact hlt
    · cases h.symm.trans ht
  dict := by
    intro p p₁ h
    rcases tokenMem_advances (.inr (.inr h)) with hlt | ⟨-, ht, -⟩
    · exact hlt
    · cases h.symm.trans ht
  text := by
    intro p p₁ h
    rcases tokenMem_advances (.inl ⟨true, h⟩) with hlt | ⟨-, ht, -⟩
    · exact hlt
    · cases h.symm.trans ht
  leaf := by
    intro p p₁ text h
    rcases tokenMem_advances (.inl ⟨text, h⟩) with hlt | ⟨rfl, -⟩
    · exact hlt.le
    · exact le_rfl
  close := by
    intro p p₁ h
    rw [lookMem_close h]
    omega
  more := by
    intro p p₁ h
    rw [(lookMem_more h).1]
  element := by
    intro p p₁ p₂ text hl hs h
    obtain ⟨rfl, b, hb, hne⟩ := lookMem_more hl
    rcases tokenMem_advances (.inl ⟨text, h⟩) with hlt | ⟨-, -, b', hb', hnone⟩
    · exact hlt
    · cases hb.symm.trans hb'
      exact absurd ⟨b, hb, hnone, hne⟩ hs
  stalled := by
    intro p hs
    exact ⟨p, false, p, lookMem_stalled hs, tokenMem_stalled hs, hs⟩

/-! ### Which inputs the parsers come to an end on -/

/-- Followed from its start, the file ends, or its stream fails, where an
element of a list or the end of the list is due. -/
def ListRunsOutIfs (s : Bytes) : Prop :=
  ∃ ifs, scanIfs.Reaches .value (.ofBytes s) .elements ifs ∧ ifs.unread = 0

/-- Followed from its start, the string has a byte that neither begins a value
nor ends a list where one of the two is due. -/
def ListRunsOutMem (buf : Bytes) : Prop :=
  ∃ p, (scanMem buf).Reaches .value 0 .elements p ∧ StalledMem buf p

theorem endingOf_eq_unfinished {α β : Type} {f : α → β} {x : Except Stop α} :
    endingOf f x = .unfinished ↔ x = .error .outOfFuel := by
  rcases x with (_ | c) | a <;> simp [endingOf]

theorem parseIfs_forever_iff (old : Int64) (s : Bytes) :
    (∀ fuel, parseIfs old fuel (.ofBytes s) = .error .outOfFuel) ↔ ListRunsOutIfs s := by
  rw [ListRunsOutIfs, ← progress_scanIfs.unfinished_iff]
  apply forall_congr'
  intro fuel
  rw [← (parseIfs_read old fuel).1, endingOf_eq_unfinished]

theorem parseMem_forever_iff (buf : Bytes) :
    (∀ fuel, parseMem fuel buf 0 = .error .outOfFuel) ↔ ListRunsOutMem buf := by
  rw [ListRunsOutMem, ← (progress_scanMem buf).unfinished_iff]
  apply forall_congr'
  intro fuel
  rw [← (parseMem_read buf fuel).1, endingOf_eq_unfinished]

/-- **Termination.** The parser on a file comes to an end if and only if the file
does not run out inside a list, and the parser in memory if and only if the
string does not come to a byte that is no element inside a list. -/
theorem parsers_terminate_iff (s : Bytes) :
    (∀ old, (∃ fuel, parseIfs old fuel (.ofBytes s) ≠ .error .outOfFuel) ↔ ¬ ListRunsOutIfs s) ∧
    ((∃ fuel, parseMem fuel (s ++ [0]) 0 ≠ .error .outOfFuel) ↔ ¬ ListRunsOutMem (s ++ [0])) := by
  constructor
  · intro old
    rw [← parseIfs_forever_iff old, not_forall]
  · rw [← parseMem_forever_iff, not_forall]

/-- Neither parser comes to an end on the file `l`. -/
theorem parsers_forever_openList :
    (∀ old fuel, parseIfs old fuel (.ofBytes (bytesOf "l")) = .error .outOfFuel) ∧
      ∀ fuel, parseMem fuel (bytesOf "l" ++ [0]) 0 = .error .outOfFuel := by
  constructor
  · intro old
    exact (parseIfs_forever_iff old _).mpr ⟨.ofBytes [], .list .start rfl, rfl⟩
  · exact (parseMem_forever_iff _).mpr ⟨1, .list .start rfl, 0, rfl, by decide, by decide⟩

end BencodeParser

end Daobell
