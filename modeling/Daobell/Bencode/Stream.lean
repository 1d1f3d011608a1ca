import Daobell.Cxx
import Daobell.Lib.Numeral

/-!
The input streams of the standard library, as far as the parser uses them: an
`std::ifstream` on a file, and `strtol` on a string. A stream is the bytes not
yet read together with its two error bits; every operation first looks at the
bits, sets them as the library does, and reads nothing once one of them is set.
-/

namespace Daobell

open Lib

structure IfStream where
  rest : Bytes
  eofbit : Bool
  failbit : Bool
  deriving DecidableEq

namespace IfStream

def ofBytes (rest : Bytes) : IfStream := ⟨rest, false, false⟩

def good (s : IfStream) : Bool := !s.eofbit && !s.failbit

/-- `get()`; `none` is `EOF`. -/
def get (s : IfStream) : Option UInt8 × IfStream :=
  if s.good then
    match s.rest with
    | [] => (none, { s with eofbit := true, failbit := true })
    | b :: rest => (some b, { s with rest := rest })
  else (none, { s with failbit := true })

def peek (s : IfStream) : Option UInt8 × IfStream :=
  if s.good then
    match s.rest with
    | [] => (none, { s with eofbit := true })
    | b :: _ => (some b, s)
  else (none, { s with failbit := true })

def putback (s : IfStream) (b : UInt8) : IfStream :=
  let s := { s with eofbit := false }
  if s.good then { s with rest := b :: s.rest } else { s with failbit := true }

def read (s : IfStream) (n : ℕ) : Bytes × IfStream :=
  if s.good then
    if n ≤ s.rest.length then (s.rest.take n, { s with rest := s.rest.drop n })
    else (s.rest, ⟨[], true, true⟩)
  else ([], { s with failbit := true })

/-- `isspace` in the C locale. -/
def isSpace (b : UInt8) : Bool := b == 32 || (decide (9 ≤ b) && decide (b ≤ 13))

/-- The sentry of a formatted extraction: skip white space, and fail at the end
of the file. -/
def skipSpace (s : IfStream) : IfStream :=
  if s.good then
    match s.rest.dropWhile isSpace with
    | [] => ⟨[], true, true⟩
    | rest => { s with rest := rest }
  else { s with failbit := true }

/-- `operator>>` into a `size_t` that holds `old`. The parser calls it with a
digit next, so the sign that the library also accepts is left out. The variable
is set to the largest value when the numeral is too large for it. -/
def extractSize (s : IfStream) (old : ℕ) : ℕ × IfStream :=
  let s := s.skipSpace
  if s.good then
    let digits := s.rest.takeWhile isDigit
    let rest := s.rest.dropWhile isDigit
    if digits = [] then (0, ⟨rest, rest.isEmpty, true⟩)
    else if numeral digits < 2 ^ 64 then (numeral digits, ⟨rest, rest.isEmpty, false⟩)
    else (2 ^ 64 - 1, ⟨rest, rest.isEmpty, true⟩)
  else (old, s)

def signedDigits (l : Bytes) : Bool × Bytes × Bytes :=
  let negative := l.head? == some '-'.toUInt8
  let unsigned := if negative || l.head? == some '+'.toUInt8 then l.tail else l
  (negative, unsigned.takeWhile isDigit, unsigned.dropWhile isDigit)

def signedNumeral (negative : Bool) (digits : Bytes) : ℤ :=
  if negative then -(numeral digits : ℤ) else numeral digits

def clampLong (n : ℤ) : ℤ := max (-2 ^ 63) (min n (2 ^ 63 - 1))

/-- `operator>>` into a `long long`; `none` when the variable is left as it is. -/
def extractLongLong (s : IfStream) : Option ℤ × IfStream :=
  let s := s.skipSpace
  if s.good then
    let (negative, digits, rest) := signedDigits s.rest
    let n := signedNumeral negative digits
    if digits = [] then (some 0, ⟨rest, rest.isEmpty, true⟩)
    else (some (clampLong n), ⟨rest, rest.isEmpty, clampLong n != n⟩)
  else (none, s)

end IfStream

/-- `strtol(p, &end, 10)` on the bytes from `p` on: the number, and how many
bytes `end` lies behind `p`. `none` when no byte ends the scan, so that the
call reads past the bytes it was given. -/
def strtol (l : Bytes) : Option (ℤ × ℕ) :=
  let spaces := (l.takeWhile IfStream.isSpace).length
  let (negative, digits, rest) := IfStream.signedDigits (l.drop spaces)
  if rest = [] then none
  else if digits = [] then some (0, 0)
  else some (IfStream.clampLong (IfStream.signedNumeral negative digits),
    l.length - rest.length)

/-! ### Reading a numeral that something follows -/

namespace IfStream

@[simp] theorem good_ofBytes (l : Bytes) : (ofBytes l).good = true := rfl

@[simp] theorem get_ofBytes_cons (b : UInt8) (l : Bytes) :
    (ofBytes (b :: l)).get = (some b, ofBytes l) := rfl

@[simp] theorem peek_ofBytes_cons (b : UInt8) (l : Bytes) :
    (ofBytes (b :: l)).peek = (some b, ofBytes (b :: l)) := rfl

@[simp] theorem putback_ofBytes (b : UInt8) (l : Bytes) :
    (ofBytes l).putback b = ofBytes (b :: l) := rfl

theorem read_ofBytes (l r : Bytes) : (ofBytes (l ++ r)).read l.length = (l, ofBytes r) := by
  simp [read, ofBytes, good]

theorem isSpace_eq_false_of_isDigit {b : UInt8} (h : isDigit b = true) : isSpace b = false := by
  simp only [isDigit, Bool.and_eq_true, decide_eq_true_eq, UInt8.le_iff_toNat_le] at h
  have h48 : (48 : UInt8).toNat = 48 := rfl
  have h57 : (57 : UInt8).toNat = 57 := rfl
  have h32 : (32 : UInt8).toNat = 32 := rfl
  have h9 : (9 : UInt8).toNat = 9 := rfl
  have h13 : (13 : UInt8).toNat = 13 := rfl
  simp only [isSpace, Bool.or_eq_false_iff, beq_eq_false_iff_ne, ne_eq, ← UInt8.toNat_inj,
    Bool.and_eq_false_iff, decide_eq_false_iff_not, UInt8.le_iff_toNat_le]
  omega

theorem skipSpace_ofBytes {b : UInt8} {l : Bytes} (h : isSpace b = false) :
    (ofBytes (b :: l)).skipSpace = ofBytes (b :: l) := by
  simp [skipSpace, ofBytes, good, h]

theorem skipSpace_digits {ds : Bytes} (hne : ds ≠ []) (hds : ∀ b ∈ ds, isDigit b = true)
    (r : Bytes) : (ofBytes (ds ++ r)).skipSpace = ofBytes (ds ++ r) := by
  cases ds with
  | nil => exact absurd rfl hne
  | cons d ds => exact skipSpace_ofBytes (isSpace_eq_false_of_isDigit (hds d List.mem_cons_self))

/-- A run of digits, ended by a byte that is none, is read as its value. -/
theorem extractSize_digits {ds r : Bytes} {c : UInt8} (old : ℕ) (hne : ds ≠ [])
    (hds : ∀ b ∈ ds, isDigit b = true) (hc : isDigit c = false) (hlt : numeral ds < 2 ^ 64) :
    (ofBytes (ds ++ c :: r)).extractSize old = (numeral ds, ofBytes (c :: r)) := by
  have hskip := skipSpace_digits hne hds (c :: r)
  have htake : (ds ++ c :: r).takeWhile isDigit = ds :=
    takeWhile_isDigit_append hds (by simpa using hc)
  have hdrop : (ds ++ c :: r).dropWhile isDigit = c :: r :=
    dropWhile_isDigit_append hds (by simpa using hc)
  simp only [extractSize, hskip, good_ofBytes, if_true]
  simp only [ofBytes, htake, hdrop, if_neg hne, if_pos hlt, List.isEmpty_cons]

theorem digit_ne {b c : UInt8} (hb : isDigit b = true) (hc : isDigit c = false) : b ≠ c := by
  rintro rfl
  simp [hb] at hc

/-- Sign and digits are taken apart as they were put together. -/
theorem signedDigits_append {ds r : Bytes} {c : UInt8} (negative : Bool) (hne : ds ≠ [])
    (hds : ∀ b ∈ ds, isDigit b = true) (hc : isDigit c = false) :
    signedDigits ((if negative then ['-'.toUInt8] else []) ++ ds ++ c :: r) =
      (negative, ds, c :: r) := by
  have htake : (ds ++ c :: r).takeWhile isDigit = ds :=
    takeWhile_isDigit_append hds (by simpa using hc)
  have hdrop : (ds ++ c :: r).dropWhile isDigit = c :: r :=
    dropWhile_isDigit_append hds (by simpa using hc)
  cases negative with
  | true =>
      simp [signedDigits, htake, hdrop]
  | false =>
      cases ds with
      | nil => exact absurd rfl hne
      | cons d ds =>
          have hd := hds d List.mem_cons_self
          have hminus : d ≠ '-'.toUInt8 := digit_ne hd (by decide)
          have hplus : d ≠ '+'.toUInt8 := digit_ne hd (by decide)
          simp only [List.cons_append] at htake hdrop
          simp [signedDigits, hminus, hplus, htake, hdrop]

theorem clampLong_eq {n : ℤ} (h₁ : -2 ^ 63 ≤ n) (h₂ : n < 2 ^ 63) : clampLong n = n := by
  rw [clampLong, min_eq_left (by omega), max_eq_right h₁]

/-- An integer numeral, ended by a byte that is no digit, is read as its value. -/
theorem extractLongLong_digits {ds r : Bytes} {c : UInt8} (negative : Bool) (hne : ds ≠ [])
    (hds : ∀ b ∈ ds, isDigit b = true) (hc : isDigit c = false)
    (h₁ : -2 ^ 63 ≤ signedNumeral negative ds) (h₂ : signedNumeral negative ds < 2 ^ 63) :
    (ofBytes ((if negative then ['-'.toUInt8] else []) ++ ds ++ c :: r)).extractLongLong =
      (some (signedNumeral negative ds), ofBytes (c :: r)) := by
  have hskip : (ofBytes ((if negative then ['-'.toUInt8] else []) ++ ds ++ c :: r)).skipSpace =
      ofBytes ((if negative then ['-'.toUInt8] else []) ++ ds ++ c :: r) := by
    cases negative with
    | true => exact skipSpace_ofBytes (by decide)
    | false => exact skipSpace_digits hne hds (c :: r)
  simp only [extractLongLong, hskip, good_ofBytes, if_true]
  simp only [ofBytes, signedDigits_append negative hne hds hc, if_neg hne,
    clampLong_eq h₁ h₂, List.isEmpty_cons, bne_self_eq_false]

end IfStream

/-- `strtol` on an integer numeral that a byte which is no digit ends. -/
theorem strtol_digits {ds r : Bytes} {c : UInt8} (negative : Bool) (hne : ds ≠ [])
    (hds : ∀ b ∈ ds, isDigit b = true) (hc : isDigit c = false)
    (h₁ : -2 ^ 63 ≤ IfStream.signedNumeral negative ds)
    (h₂ : IfStream.signedNumeral negative ds < 2 ^ 63) :
    strtol ((if negative then ['-'.toUInt8] else []) ++ ds ++ c :: r) =
      some (IfStream.signedNumeral negative ds,
        ((if negative then ['-'.toUInt8] else []) ++ ds).length) := by
  have hspaces : ((if negative then ['-'.toUInt8] else []) ++ ds ++ c :: r).takeWhile
      IfStream.isSpace = [] := by
    cases negative with
    | true => rfl
    | false =>
        cases ds with
        | nil => exact absurd rfl hne
        | cons d ds =>
            have hd := IfStream.isSpace_eq_false_of_isDigit (hds d List.mem_cons_self)
            simp [hd]
  simp only [strtol, hspaces, List.length_nil, List.drop_zero,
    IfStream.signedDigits_append negative hne hds hc, reduceCtorEq, if_false, if_neg hne,
    IfStream.clampLong_eq h₁ h₂, List.length_append]
  simp

end Daobell
