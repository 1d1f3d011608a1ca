import Mathlib.Data.List.TakeWhile
import Mathlib.Algebra.Order.Ring.Nat

/-!
What the translated code takes from C++: byte strings, the ways a call can end
other than by returning, and the unsigned arithmetic that wraps. `char` values
are bytes throughout; where the source compares signed characters the
comparison is the same on bytes.
-/

namespace Daobell

abbrev Bytes := List UInt8

def bytesOf (s : String) : Bytes := s.toList.map Char.toUInt8

/-- The ways the program stops in the middle of a call: a failed `assert`, a
null pointer dereferenced, an access outside an object or through `at`, a
container asked for more than it can hold, an access to memory that was
unmapped, a loop that never ends. -/
inductive Crash
  | assertFailed
  | nullDereference
  | outOfRange
  | lengthError
  | unmapped
  | hang
  deriving DecidableEq, Repr

/-- What a bounded run of a recursive function may come to instead of a value:
the bound was too small to tell, or the program stops. -/
inductive Stop
  | outOfFuel
  | crash (c : Crash)
  deriving DecidableEq, Repr

@[simp] theorem ok_bind {ε α β : Type} (a : α) (f : α → Except ε β) :
    (Except.ok a >>= f) = f a := rfl

@[simp] theorem error_bind {ε α β : Type} (e : ε) (f : α → Except ε β) :
    (Except.error e >>= f) = Except.error e := rfl

theorem bind_eq_ok {ε α β : Type} {r : Except ε α} {f : α → Except ε β} {b : β} :
    (r >>= f) = .ok b ↔ ∃ a, r = .ok a ∧ f a = .ok b := by
  cases r <;> simp

theorem map_eq_ok {ε α β : Type} {r : Except ε α} {f : α → β} {b : β} :
    r.map f = .ok b ↔ ∃ a, r = .ok a ∧ f a = b := by
  cases r <;> simp [Except.map]

/-- A `std::string`, which cannot be longer than `PTRDIFF_MAX` bytes. -/
structure ByteString where
  bytes : Bytes
  length_lt : bytes.length < 2 ^ 63
  deriving DecidableEq

@[ext] theorem ByteString.ext {s t : ByteString} (h : s.bytes = t.bytes) : s = t := by
  cases s
  cases t
  cases h
  rfl

/-- `operator<` of `std::string`: bytes are compared as unsigned numbers, and a
proper prefix is smaller. -/
def ByteString.Lt (s t : ByteString) : Prop := s.bytes < t.bytes

instance : DecidableRel ByteString.Lt := fun s t =>
  inferInstanceAs (Decidable (s.bytes < t.bytes))

/-- The part of a string that `c_str()` shows to a reader of C strings. -/
def cStr (s : Bytes) : Bytes := s.takeWhile (· ≠ 0)

theorem cStr_eq_self {s : Bytes} (h : (0 : UInt8) ∉ s) : cStr s = s := by
  refine List.takeWhile_eq_self_iff.mpr fun b hb => ?_
  have hne : b ≠ 0 := fun h0 => h (h0 ▸ hb)
  simpa using hne

theorem cStr_append {s : Bytes} (h : (0 : UInt8) ∉ s) (t : Bytes) : cStr (s ++ t) = s ++ cStr t :=
  List.takeWhile_append_of_pos fun b hb => by
    have hne : b ≠ 0 := fun h0 => h (h0 ▸ hb)
    simpa using hne

theorem cStr_append_of_mem {s : Bytes} (h : (0 : UInt8) ∈ s) (t : Bytes) :
    cStr (s ++ t) = cStr s := by
  induction s with
  | nil => cases h
  | cons b s ih =>
      rw [List.cons_append, cStr, cStr, List.takeWhile_cons, List.takeWhile_cons]
      split
      · rename_i hb
        have hne : (0 : UInt8) ≠ b := by
          rintro rfl
          simp at hb
        exact congrArg _ (ih ((List.mem_cons.mp h).resolve_left hne))
      · rfl

/-- Whether `strncmp` returns 0: the strings agree on their first `n` characters. -/
def strncmpEq (s t : Bytes) (n : ℕ) : Bool := (cStr s).take n = (cStr t).take n

/-- Compared with all of a literal: whether the string begins with it. -/
theorem strncmpEq_iff {s t : Bytes} (ht : (0 : UInt8) ∉ t) :
    strncmpEq s t t.length = true ↔ t <+: s := by
  rw [strncmpEq, decide_eq_true_eq, cStr_eq_self ht, List.take_length, eq_comm,
    ← List.prefix_iff_eq_take]
  refine ⟨fun h => h.trans (List.takeWhile_prefix _), ?_⟩
  rintro ⟨rest, rfl⟩
  have hpos : ∀ b ∈ t, decide (b ≠ 0) = true := fun b hb =>
    decide_eq_true fun h0 => ht (h0 ▸ hb)
  rw [cStr, List.takeWhile_append_of_pos hpos]
  exact List.prefix_append _ _

def subSize (a b : ℕ) : ℕ := (a + 2 ^ 64 - b) % 2 ^ 64

def subUnsigned (a b : ℕ) : ℕ := (a + 2 ^ 32 - b) % 2 ^ 32

theorem subSize_of_le {a b : ℕ} (hba : b ≤ a) (ha : a < 2 ^ 64) : subSize a b = a - b := by
  rw [subSize, Nat.sub_add_comm hba, Nat.add_mod_right]
  exact Nat.mod_eq_of_lt (by omega)

theorem subSize_subSize_of_le {a b c : ℕ} (h : b + c ≤ a) (ha : a < 2 ^ 64) :
    subSize (subSize a b) c = a - b - c := by
  rw [subSize_of_le (Nat.le_of_add_right_le h) ha, subSize_of_le (by omega) (by omega)]

theorem subUnsigned_of_le {a b : ℕ} (hba : b ≤ a) (ha : a < 2 ^ 32) :
    subUnsigned a b = a - b := by
  rw [subUnsigned, Nat.sub_add_comm hba, Nat.add_mod_right]
  exact Nat.mod_eq_of_lt (by omega)

theorem subSize_lt (a b : ℕ) : subSize a b < 2 ^ 64 := Nat.mod_lt _ (by decide)

/-! ### Searching and cutting strings -/

/-- `std::string::find`: the first place where `needle` occurs. -/
def findBytes (needle : Bytes) : Bytes → Option ℕ
  | [] => if needle = [] then some 0 else none
  | b :: bs =>
      if needle <+: b :: bs then some 0 else (findBytes needle bs).map (· + 1)

theorem findBytes_eq_some_iff {needle : Bytes} (hne : needle ≠ []) {s : Bytes} {k : ℕ} :
    findBytes needle s = some k ↔ needle <+: s.drop k ∧ ∀ j < k, ¬ needle <+: s.drop j := by
  induction s generalizing k with
  | nil => simp [findBytes, hne]
  | cons b bs ih =>
      rw [findBytes]
      by_cases h : needle <+: b :: bs
      · rw [if_pos h]
        constructor
        · rintro ⟨⟩
          exact ⟨h, by simp⟩
        · rintro ⟨-, hfirst⟩
          rcases Nat.eq_zero_or_pos k with rfl | hpos
          · rfl
          · exact absurd h (hfirst 0 hpos)
      · rw [if_neg h]
        cases k with
        | zero => simp [h]
        | succ k =>
            rw [Option.map_eq_some_iff]
            simp only [Nat.add_right_cancel_iff, exists_eq_right, ih, List.drop_succ_cons]
            refine and_congr_right fun _ => ⟨fun hfirst j hj => ?_, fun hfirst j hj => ?_⟩
            · cases j with
              | zero => exact h
              | succ j => exact hfirst j (Nat.lt_of_succ_lt_succ hj)
            · exact hfirst (j + 1) (Nat.succ_lt_succ hj)

theorem findBytes_eq_none_iff {needle : Bytes} (hne : needle ≠ []) {s : Bytes} :
    findBytes needle s = none ↔ ∀ j, ¬ needle <+: s.drop j := by
  induction s with
  | nil => simp [findBytes, hne]
  | cons b bs ih =>
      rw [findBytes]
      by_cases h : needle <+: b :: bs
      · rw [if_pos h]
        exact iff_of_false (Option.some_ne_none 0) fun hall => hall 0 h
      · rw [if_neg h, Option.map_eq_none_iff, ih]
        refine ⟨fun hall j => ?_, fun hall j => hall (j + 1)⟩
        cases j with
        | zero => exact h
        | succ j => exact hall j

theorem findBytes_ne_none_iff {needle : Bytes} (hne : needle ≠ []) {s : Bytes} :
    findBytes needle s ≠ none ↔ needle <:+: s := by
  rw [Ne, findBytes_eq_none_iff hne, not_forall]
  simp only [not_not]
  constructor
  · rintro ⟨j, hj⟩
    exact hj.isInfix.trans (List.drop_suffix j s).isInfix
  · rintro ⟨front, back, rfl⟩
    refine ⟨front.length, ?_⟩
    rw [List.append_assoc, List.drop_left]
    exact List.prefix_append _ _

theorem findBytes_append {needle : Bytes} (hne : needle ≠ []) {s : Bytes} {k : ℕ}
    (h : findBytes needle s = some k) (t : Bytes) : findBytes needle (s ++ t) = some k := by
  rw [findBytes_eq_some_iff hne] at h ⊢
  obtain ⟨hat, hfirst⟩ := h
  have hle : k + needle.length ≤ s.length := by
    have hlength := hat.length_le
    have hpos := List.length_pos_iff.mpr hne
    rw [List.length_drop] at hlength
    omega
  refine ⟨?_, fun j hj hprefix => hfirst j hj ?_⟩
  · rw [List.drop_append_of_le_length (by omega)]
    exact hat.trans (List.prefix_append _ _)
  · rw [List.drop_append_of_le_length (by omega)] at hprefix
    refine List.prefix_of_prefix_length_le hprefix (List.prefix_append _ t) ?_
    rw [List.length_drop]
    omega

theorem takeWhile_append_cons {mark : UInt8} {front : Bytes} (h : mark ∉ front) (rest : Bytes) :
    (front ++ mark :: rest).takeWhile (· ≠ mark) = front := by
  have hfront : ∀ b ∈ front, decide (b ≠ mark) = true :=
    fun b hb => decide_eq_true fun heq => h (heq ▸ hb)
  rw [List.takeWhile_append_of_pos hfront, List.takeWhile_cons_of_neg (by simp), List.append_nil]

theorem dropWhile_append_cons {mark : UInt8} {front : Bytes} (h : mark ∉ front) (rest : Bytes) :
    (front ++ mark :: rest).dropWhile (· ≠ mark) = mark :: rest := by
  have hfront : ∀ b ∈ front, decide (b ≠ mark) = true :=
    fun b hb => decide_eq_true fun heq => h (heq ▸ hb)
  rw [List.dropWhile_append_of_pos hfront, List.dropWhile_cons_of_neg (by simp)]

def npos : ℕ := 2 ^ 64 - 1

def findFirstOf (marks s : Bytes) : Option ℕ := s.findIdx? marks.contains

def findLastOf (mark : UInt8) (s : Bytes) : Option ℕ :=
  (s.reverse.findIdx? (· == mark)).map (s.length - 1 - ·)

/-- `substr`, which throws when the part begins behind the end. -/
def substr (s : Bytes) (pos count : ℕ) : Except Crash Bytes :=
  if pos ≤ s.length then .ok ((s.drop pos).take count) else .error .outOfRange

theorem findFirstOf_append_cons {marks front : Bytes} {m : UInt8}
    (hfront : ∀ b ∈ front, b ∉ marks) (hm : m ∈ marks) (rest : Bytes) :
    findFirstOf marks (front ++ m :: rest) = some front.length := by
  have hnone : front.findIdx? marks.contains = none := by
    simpa [List.findIdx?_eq_none_iff] using hfront
  rw [findFirstOf, List.findIdx?_append, hnone, List.findIdx?_cons,
    if_pos (List.contains_iff_mem.mpr hm)]
  simp

theorem findFirstOf_char {front : Bytes} {m : UInt8} (h : m ∉ front) (rest : Bytes) :
    findFirstOf [m] (front ++ m :: rest) = some front.length := by
  refine findFirstOf_append_cons (fun b hb hmem => ?_) (List.mem_singleton_self m) rest
  rw [List.mem_singleton.mp hmem] at hb
  exact h hb

theorem findFirstOf_char_eq_none {s : Bytes} {m : UInt8} (h : m ∉ s) :
    findFirstOf [m] s = none := by
  simp only [findFirstOf, List.findIdx?_eq_none_iff, List.contains_eq_mem, List.mem_singleton,
    decide_eq_false_iff_not]
  rintro b hb rfl
  exact h hb

theorem findLastOf_append_cons {mark : UInt8} {rest : Bytes} (h : mark ∉ rest) (front : Bytes) :
    findLastOf mark (front ++ mark :: rest) = some front.length := by
  have hnone : rest.reverse.findIdx? (· == mark) = none := by
    simp only [List.findIdx?_eq_none_iff, List.mem_reverse, beq_eq_false_iff_ne]
    rintro b hb rfl
    exact h hb
  rw [findLastOf, List.reverse_append, List.reverse_cons, List.append_assoc,
    List.findIdx?_append, hnone, List.singleton_append, List.findIdx?_cons,
    if_pos (beq_self_eq_true _)]
  simp

theorem substr_mid {a b : Bytes} {pos count : ℕ} (hpos : pos = a.length)
    (hcount : count = b.length) (c : Bytes) : substr (a ++ (b ++ c)) pos count = .ok b := by
  subst hpos hcount
  rw [substr, if_pos (by simp), List.drop_left, List.take_left]

theorem substr_rest {a b : Bytes} {pos count : ℕ} (hpos : pos = a.length)
    (hcount : b.length ≤ count) : substr (a ++ b) pos count = .ok b := by
  subst hpos
  rw [substr, if_pos (by simp), List.drop_left, List.take_of_length_le hcount]

end Daobell
