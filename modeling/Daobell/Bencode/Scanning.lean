import Daobell.Bencode.Parser
import Daobell.Lib.Descent

/-!
What the bencode parsers read, without the values they make of it. Each parser
is a recursive reader over a scanner: for the file the places are the states of
the stream, for the string in memory the offsets into it. A parser comes to a
value, to a crash or to no end exactly as its reader does.
-/

namespace Daobell

open Lib

namespace BencodeParser

/-! ### The parser on a file stream -/

def stringTokenIfs (ifs : IfStream) : Token Crash IfStream :=
  let (length, ifs) := ifs.extractSize 0
  if length < 2 ^ 63 then .leaf true (ifs.get.2.read length).2 else .fault .lengthError

def tokenIfs (ifs : IfStream) : Token Crash IfStream :=
  match ifs.get with
  | (none, ifs) => .leaf false ifs
  | (some ch, ifs) =>
      if isDigit ch then stringTokenIfs (ifs.putback ch)
      else if ch = 'i'.toUInt8 then .leaf false ifs.extractLongLong.2.get.2
      else if ch = 'l'.toUInt8 then .list ifs
      else if ch = 'd'.toUInt8 then .dict ifs
      else .leaf false ifs

def lookIfs (ifs : IfStream) : Look Crash IfStream :=
  if ifs.peek.1 = some 'e'.toUInt8 then .close ifs.peek.2.get.2 else .more ifs.peek.2

def scanIfs : Scanner Crash IfStream := ⟨tokenIfs, lookIfs, .nullDereference⟩

/-! ### The parser on a string in memory -/

def stringTokenMem (buf : Bytes) (p : ℕ) : Token Crash ℕ :=
  match strtol (buf.drop p) with
  | none => .fault .outOfRange
  | some (length, used) =>
      if p + used + 1 + length.toNat ≤ buf.length then
        .leaf true (p + used + 1 + length.toNat)
      else .fault .outOfRange

def intTokenMem (buf : Bytes) (p : ℕ) : Token Crash ℕ :=
  match strtol (buf.drop p) with
  | none => .fault .outOfRange
  | some (_, used) => .leaf false (p + used + 1)

def tokenMem (buf : Bytes) (p : ℕ) : Token Crash ℕ :=
  match buf[p]? with
  | none => .fault .outOfRange
  | some ch =>
      if isDigit ch then stringTokenMem buf p
      else if ch = 'i'.toUInt8 then intTokenMem buf (p + 1)
      else if ch = 'l'.toUInt8 then .list (p + 1)
      else if ch = 'd'.toUInt8 then .dict (p + 1)
      else .leaf false p

def lookMem (buf : Bytes) (p : ℕ) : Look Crash ℕ :=
  match buf[p]? with
  | none => .fault .outOfRange
  | some c => if c = 'e'.toUInt8 then .close (p + 1) else .more p

def scanMem (buf : Bytes) : Scanner Crash ℕ := ⟨tokenMem buf, lookMem buf, .nullDereference⟩

/-! ### The parsers are the readers -/

/-- The end of a bounded run, with what `f` keeps of the result. -/
def endingOf {α β : Type} (f : α → β) : Except Stop α → Ending Crash β
  | .ok a => .returned (f a)
  | .error .outOfFuel => .unfinished
  | .error (.crash c) => .faulted c

theorem endingOf_bind {α β γ δ : Type} {f : α → β} {g : γ → δ} {x : Except Stop α}
    {k : α → Except Stop γ} {o : Ending Crash β} {k' : β → Ending Crash δ}
    (hx : endingOf f x = o) (hk : ∀ a, endingOf g (k a) = k' (f a)) :
    endingOf g (x >>= k) = o.bind k' := by
  subst hx
  cases x with
  | ok a => exact hk a
  | error e => cases e <;> rfl

/-- Whether a value is a string, and where the parser has come to. -/
def isText {σ : Type} (r : BencodeValue × σ) : Bool × σ := (r.1.asString.isSome, r.2)

theorem stringOfVector_of_lt {length : ℕ} {bytes : Bytes} (hlt : length < 2 ^ 63)
    (hle : bytes.length ≤ length) :
    ∃ s, stringOfVector length bytes = .ok (.bencodeString s) := by
  rw [stringOfVector, dif_pos ⟨hlt, hle⟩]
  exact ⟨_, rfl⟩

theorem length_read_le (ifs : IfStream) (n : ℕ) : (ifs.read n).1.length ≤ n := by
  unfold IfStream.read
  split
  · split
    · simp
    · exact Nat.le_of_lt (Nat.lt_of_not_le ‹_›)
  · exact Nat.zero_le n

theorem parseStringIfs_token (ifs : IfStream) :
    (∃ s ifs', stringTokenIfs ifs = .leaf true ifs' ∧
      parseStringIfs ifs = .ok (.bencodeString s, ifs')) ∨
    (stringTokenIfs ifs = .fault .lengthError ∧
      parseStringIfs ifs = .error (.crash .lengthError)) := by
  rcases hsize : ifs.extractSize 0 with ⟨length, ifs'⟩
  simp only [stringTokenIfs, parseStringIfs, hsize]
  have hle := length_read_le ifs'.get.2 length
  by_cases hlt : length < 2 ^ 63
  · obtain ⟨s, hs⟩ := stringOfVector_of_lt hlt hle
    exact .inl ⟨s, _, if_pos hlt, by rw [hs]; rfl⟩
  · refine .inr ⟨if_neg hlt, ?_⟩
    rw [stringOfVector, dif_neg fun h => hlt h.1]
    rfl

theorem parseIntIfs_eq (old : Int64) (ifs : IfStream) :
    ∃ n, parseIntIfs old ifs = .ok (.bencodeInt n, ifs.extractLongLong.2.get.2) := by
  unfold parseIntIfs
  rcases ifs.extractLongLong with ⟨_ | number, ifs'⟩
  · exact ⟨_, rfl⟩
  · exact ⟨_, rfl⟩

/-- The parser on a file stream is the recursive reader. The three functions go
down together, one call a level. -/
theorem parseIfs_read (old : Int64) (fuel : ℕ) :
    (∀ ifs, endingOf isText (parseIfs old fuel ifs) = scanIfs.read fuel .value ifs) ∧
    (∀ ifs bl, endingOf (fun r => (false, r.2.get.2)) (parseListIfs old fuel ifs bl) =
      scanIfs.read fuel .elements ifs) ∧
    (∀ ifs bd, endingOf (fun r => (false, r.2.get.2)) (parseDictIfs old fuel ifs bd) =
      scanIfs.read fuel .entries ifs) := by
  induction fuel with
  | zero => exact ⟨fun _ => rfl, fun _ _ => rfl, fun _ _ => rfl⟩
  | succ fuel ih =>
      obtain ⟨ihv, ihl, ihd⟩ := ih
      refine ⟨fun ifs => ?_, fun ifs bl => ?_, fun ifs bd => ?_⟩
      · rw [parseIfs, Scanner.read_value]
        simp only [scanIfs, tokenIfs]
        rcases ifs.get with ⟨_ | ch, ifs'⟩
        · rfl
        · simp only
          split
          · rcases parseStringIfs_token (ifs'.putback ch) with ⟨s, ifs'', ht, hp⟩ | ⟨ht, hp⟩
            · rw [ht, hp]
              rfl
            · rw [ht, hp]
              rfl
          · split
            · obtain ⟨n, hn⟩ := parseIntIfs_eq old ifs'
              rw [hn]
              rfl
            · split
              · exact (endingOf_bind (ihl ifs' []) fun _ => rfl).trans (Ending.bind_returned _)
              · split
                · exact (endingOf_bind (ihd ifs' []) fun _ => rfl).trans (Ending.bind_returned _)
                · rfl
      · rw [parseListIfs, Scanner.read_elements]
        simp only [scanIfs, lookIfs]
        by_cases hc : ifs.peek.1 = some 'e'.toUInt8
        · simp only [hc, if_true]
          rfl
        · simp only [hc, if_false]
          exact endingOf_bind (ihv _) fun v => ihl v.2 _
      · rw [parseDictIfs, Scanner.read_entries]
        simp only [scanIfs, lookIfs]
        by_cases hc : ifs.peek.1 = some 'e'.toUInt8
        · simp only [hc, if_true]
          rfl
        · simp only [hc, if_false]
          refine endingOf_bind (ihv _) fun key => ?_
          obtain ⟨key, ifs'⟩ := key
          cases hk : key.asString with
          | none => simp [isText, hk, endingOf]
          | some k =>
              simp only [isText, hk, Option.isSome_some, if_true]
              exact endingOf_bind (ihv _) fun v => ihd v.2 _

theorem clampLong_toNat_lt (n : ℤ) : (IfStream.clampLong n).toNat < 2 ^ 63 := by
  rw [IfStream.clampLong]
  omega

theorem strtol_toNat_lt {l : Bytes} {n : ℤ} {used : ℕ} (h : strtol l = some (n, used)) :
    n.toNat < 2 ^ 63 := by
  simp only [strtol] at h
  split at h
  · cases h
  · split at h
    · cases h
      decide
    · cases h
      exact clampLong_toNat_lt _

theorem parseStringMem_token (buf : Bytes) (p : ℕ) :
    (∃ s p', stringTokenMem buf p = .leaf true p' ∧
      parseStringMem buf p = .ok (.bencodeString s, p')) ∨
    (stringTokenMem buf p = .fault .outOfRange ∧
      parseStringMem buf p = .error (.crash .outOfRange)) := by
  rcases hscan : strtol (buf.drop p) with _ | ⟨length, used⟩
  · exact .inr ⟨by rw [stringTokenMem, hscan], by rw [parseStringMem, hscan]⟩
  · simp only [stringTokenMem, parseStringMem, hscan]
    by_cases hroom : p + used + 1 + length.toNat ≤ buf.length
    · obtain ⟨s, hs⟩ := stringOfVector_of_lt (strtol_toNat_lt hscan)
        (List.length_take_le length.toNat (buf.drop (p + used + 1)))
      exact .inl ⟨s, _, if_pos hroom, by rw [if_pos hroom, hs]; rfl⟩
    · exact .inr ⟨if_neg hroom, if_neg hroom⟩

theorem parseIntMem_token (buf : Bytes) (p : ℕ) :
    (∃ n p', intTokenMem buf p = .leaf false p' ∧
      parseIntMem buf p = .ok (.bencodeInt n, p')) ∨
    (intTokenMem buf p = .fault .outOfRange ∧
      parseIntMem buf p = .error (.crash .outOfRange)) := by
  rcases hscan : strtol (buf.drop p) with _ | ⟨number, used⟩
  · exact .inr ⟨by rw [intTokenMem, hscan], by rw [parseIntMem, hscan]⟩
  · exact .inl ⟨_, _, by rw [intTokenMem, hscan], by rw [parseIntMem, hscan]⟩

/-- The parser on a string in memory is the recursive reader. -/
theorem parseMem_read (buf : Bytes) (fuel : ℕ) :
    (∀ p, endingOf isText (parseMem fuel buf p) = (scanMem buf).read fuel .value p) ∧
    (∀ p bl, endingOf (fun r => (false, r.2 + 1)) (parseListMem fuel buf p bl) =
      (scanMem buf).read fuel .elements p) ∧
    (∀ p bd, endingOf (fun r => (false, r.2 + 1)) (parseDictMem fuel buf p bd) =
      (scanMem buf).read fuel .entries p) := by
  induction fuel with
  | zero => exact ⟨fun _ => rfl, fun _ _ => rfl, fun _ _ => rfl⟩
  | succ fuel ih =>
      obtain ⟨ihv, ihl, ihd⟩ := ih
      refine ⟨fun p => ?_, fun p bl => ?_, fun p bd => ?_⟩
      · rw [parseMem, Scanner.read_value]
        simp only [scanMem, tokenMem]
        rcases buf[p]? with _ | ch
        · rfl
        · simp only
          split
          · rcases parseStringMem_token buf p with ⟨s, p', ht, hp⟩ | ⟨ht, hp⟩
            · rw [ht, hp]
              rfl
            · rw [ht, hp]
              rfl
          · split
            · rcases parseIntMem_token buf (p + 1) with ⟨n, p', ht, hp⟩ | ⟨ht, hp⟩
              · rw [ht, hp]
                rfl
              · rw [ht, hp]
                rfl
            · split
              · exact (endingOf_bind (ihl (p + 1) []) fun _ => rfl).trans (Ending.bind_returned _)
              · split
                · exact (endingOf_bind (ihd (p + 1) []) fun _ => rfl).trans (Ending.bind_returned _)
                · rfl
      · rw [parseListMem, Scanner.read_elements]
        simp only [scanMem, lookMem]
        rcases buf[p]? with _ | c
        · rfl
        · simp only
          by_cases hc : c = 'e'.toUInt8
          · simp only [hc, if_true]
            rfl
          · simp only [hc, if_false]
            exact endingOf_bind (ihv _) fun v => ihl v.2 _
      · rw [parseDictMem, Scanner.read_entries]
        simp only [scanMem, lookMem]
        rcases buf[p]? with _ | c
        · rfl
        · simp only
          by_cases hc : c = 'e'.toUInt8
          · simp only [hc, if_true]
            rfl
          · simp only [hc, if_false]
            refine endingOf_bind (ihv _) fun key => ?_
            obtain ⟨key, p'⟩ := key
            cases hk : key.asString with
            | none => simp [isText, hk, endingOf]
            | some k =>
                simp only [isText, hk, Option.isSome_some, if_true]
                exact endingOf_bind (ihv _) fun v => ihd v.2 _

theorem lookMem_more {buf : Bytes} {p p₁ : ℕ} (h : lookMem buf p = .more p₁) :
    p₁ = p ∧ ∃ b ∈ buf[p]?, b ≠ 'e'.toUInt8 := by
  unfold lookMem at h
  cases hb : buf[p]? with
  | none => simp [hb] at h
  | some b =>
      simp only [hb] at h
      split at h
      · cases h
      · rename_i hne
        cases h
        exact ⟨rfl, b, rfl, hne⟩

end BencodeParser

end Daobell
