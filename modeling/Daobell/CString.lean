import Daobell.Bencode.Stream

/-!
The functions of the C library that cut up a string where it stands: `strlen`,
`strtok_r` and `strtoul`. A pointer is an offset into the buffer that it points
into. A search for the end of a string that has none leaves the buffer.
-/

namespace Daobell

open Lib

/-- The first place from `s` on with a byte that `p` does not hold of. -/
def findEnd (p : UInt8 → Bool) (buff : Bytes) (s : ℕ) : Except Crash ℕ :=
  let e := s + ((buff.drop s).takeWhile p).length
  if e < buff.length then .ok e else .error .outOfRange

def strlen (buff : Bytes) (s : ℕ) : ℕ := (cStr (buff.drop s)).length

/-- `strtok_r` with one delimiter, from `s` on, where `s` is its argument or what
`saveptr` holds: the token, the buffer with the end of the token overwritten, and
the new `saveptr`. -/
def strtokR (buff : Bytes) (delim : UInt8) (s : ℕ) : Except Crash (Option ℕ × Bytes × ℕ) :=
  findEnd (· = delim) buff s >>= fun s =>
  if buff[s]? = some 0 then .ok (none, buff, s)
  else
    findEnd (fun b => b ≠ delim ∧ b ≠ 0) buff s >>= fun e =>
    if buff[e]? = some 0 then .ok (some s, buff, e) else .ok (some s, buff.set e 0, e + 1)

/-- The value of a digit or a letter as a digit, 36 for what is none. -/
def digitOf (b : UInt8) : ℕ :=
  if isDigit b then digitValue b
  else if 65 ≤ b ∧ b ≤ 90 then b.toNat - 55
  else if 97 ≤ b ∧ b ≤ 122 then b.toNat - 87
  else 36

def baseOf (s : Bytes) : ℕ :=
  if s.head? = some 48 then
    if (s[1]? = some 120 ∨ s[1]? = some 88) ∧ (s[2]?.map digitOf).getD 36 < 16 then 16 else 8
  else 10

/-- `strtoul` in base 0: white space, a sign, and digits as far as they go. A value
that is too large becomes `ULONG_MAX`, a negative one wraps. -/
def strtoul (s : Bytes) : ℕ :=
  let s := s.dropWhile IfStream.isSpace
  let negative : Bool := s.head? = some 45
  let s := if s.head? = some 45 ∨ s.head? = some 43 then s.tail else s
  let base := baseOf s
  let digits := (if base = 16 then s.drop 2 else s).takeWhile (digitOf · < base)
  let n := digits.foldl (fun n b => base * n + digitOf b) 0
  if 2 ^ 64 ≤ n then 2 ^ 64 - 1 else if negative then subSize 0 n else n

/-! ### Tokens -/

def Gap (delim : UInt8) (gap : Bytes) : Prop := ∀ b ∈ gap, b = delim

/-- Bytes that `strtok_r` takes as one token. -/
structure Token (delim : UInt8) (token : Bytes) : Prop where
  ne_nil : token ≠ []
  plain : ∀ b ∈ token, b ≠ delim ∧ b ≠ 0

theorem Token.of_all {delim : UInt8} {token : Bytes} (hne : token ≠ [])
    (hall : token.all (fun b => b ≠ delim ∧ b ≠ 0) = true) : Token delim token :=
  ⟨hne, fun b hb => of_decide_eq_true (List.all_eq_true.mp hall b hb)⟩

section

variable {p : UInt8 → Bool} {delim : UInt8} {pre gap token post : Bytes}

theorem gap_nil : Gap delim [] := by simp [Gap]

theorem findEnd_append {run : Bytes} (hrun : ∀ b ∈ run, p b = true) {b : UInt8}
    (hb : p b = false) :
    findEnd p (pre ++ (run ++ b :: post)) pre.length = .ok (pre.length + run.length) := by
  have hwhile : (run ++ b :: post).takeWhile p = run := by
    rw [List.takeWhile_append_of_pos hrun, List.takeWhile_cons_of_neg (by simp [hb]),
      List.append_nil]
  rw [findEnd, List.drop_left, hwhile, if_pos (by simp)]

/-- A token is what comes between its gap and its end. The next call goes on behind
a delimiter, and finds nothing more behind the end of the string. -/
theorem strtokR_append (pre post : Bytes) (hgap : Gap delim gap) (htoken : Token delim token) {b : UInt8}
    (hb : b = delim ∨ b = 0) :
    strtokR (pre ++ (gap ++ (token ++ b :: post))) delim pre.length =
      .ok (some (pre ++ gap).length, pre ++ gap ++ token ++ 0 :: post,
        (pre ++ gap ++ token).length + if b = 0 then 0 else 1) := by
  obtain ⟨t, ts, ht⟩ := List.exists_cons_of_ne_nil htoken.ne_nil
  have hplain := htoken.plain t (ht ▸ List.mem_cons_self)
  have hstart : findEnd (· = delim) (pre ++ (gap ++ (token ++ b :: post))) pre.length =
      .ok (pre ++ gap).length := by
    rw [ht, List.cons_append, List.length_append]
    exact findEnd_append (fun c hc => decide_eq_true (hgap c hc)) (decide_eq_false hplain.1)
  have hfirst : (pre ++ (gap ++ (token ++ b :: post)))[(pre ++ gap).length]? = some t := by
    rw [ht, ← List.append_assoc, List.cons_append, List.getElem?_append_right le_rfl, Nat.sub_self]
    rfl
  have hend : findEnd (fun c => c ≠ delim ∧ c ≠ 0) (pre ++ (gap ++ (token ++ b :: post)))
      (pre ++ gap).length = .ok (pre ++ gap ++ token).length := by
    have hstop : decide (b ≠ delim ∧ b ≠ 0) = false := decide_eq_false fun h => hb.elim h.1 h.2
    rw [← List.append_assoc]
    exact (findEnd_append (fun c hc => decide_eq_true (htoken.plain c hc)) hstop).trans
      (congrArg _ List.length_append.symm)
  have hbuff : pre ++ (gap ++ (token ++ b :: post)) = pre ++ gap ++ token ++ b :: post := by
    simp only [List.append_assoc]
  have hlast : (pre ++ (gap ++ (token ++ b :: post)))[(pre ++ gap ++ token).length]? = some b := by
    rw [hbuff, List.getElem?_append_right le_rfl, Nat.sub_self]
    rfl
  have hset : (pre ++ (gap ++ (token ++ b :: post))).set (pre ++ gap ++ token).length 0 =
      pre ++ gap ++ token ++ 0 :: post := by
    rw [hbuff, List.set_append_right _ _ le_rfl, Nat.sub_self]
    rfl
  have hne : ¬ some t = some 0 := fun h => hplain.2 (Option.some.inj h)
  rw [strtokR, hstart, ok_bind, hfirst, if_neg hne, hend, ok_bind, hlast, hset]
  by_cases hb0 : b = 0
  · subst hb0
    rw [if_pos rfl, if_pos rfl, hbuff, Nat.add_zero]
  · rw [if_neg fun h => hb0 (Option.some.inj h), if_neg hb0]

theorem strtokR_none (pre post : Bytes) (hdelim : delim ≠ 0) (hgap : Gap delim gap) :
    strtokR (pre ++ (gap ++ 0 :: post)) delim pre.length =
      .ok (none, pre ++ (gap ++ 0 :: post), (pre ++ gap).length) := by
  have hstart : findEnd (· = delim) (pre ++ (gap ++ 0 :: post)) pre.length =
      .ok (pre ++ gap).length := by
    rw [List.length_append]
    exact findEnd_append (fun c hc => decide_eq_true (hgap c hc)) (decide_eq_false hdelim.symm)
  have hfirst : (pre ++ (gap ++ 0 :: post))[(pre ++ gap).length]? = some 0 := by
    rw [← List.append_assoc, List.getElem?_append_right le_rfl, Nat.sub_self]
    rfl
  rw [strtokR, hstart, ok_bind, hfirst, if_pos rfl]

/-- Where the buffer goes on behind a run of bytes, that is where the run ends. -/
theorem exists_of_findEnd {s : Bytes} {e : ℕ} (h : findEnd p (pre ++ s) pre.length = .ok e) :
    ∃ run b post, s = run ++ b :: post ∧ (∀ c ∈ run, p c = true) ∧ p b = false ∧
      e = pre.length + run.length := by
  rw [findEnd, List.drop_left] at h
  split at h
  swap
  · cases h
  rename_i hlt
  have hrest : s.dropWhile p ≠ [] := by
    intro hnil
    have hall := congrArg List.length (List.takeWhile_append_dropWhile (p := p) (l := s))
    rw [hnil, List.append_nil] at hall
    rw [List.length_append, hall] at hlt
    exact lt_irrefl _ hlt
  obtain ⟨b, post, hpost⟩ := List.exists_cons_of_ne_nil hrest
  have hb := List.head_dropWhile_not p hrest
  refine ⟨s.takeWhile p, b, post, ?_, fun c hc => List.mem_takeWhile_imp hc, ?_,
    (Except.ok.inj h).symm⟩
  · rw [← hpost, List.takeWhile_append_dropWhile]
  · simpa [hpost] using hb

theorem exists_token (pre : Bytes) {s buff : Bytes} {t save : ℕ}
    (h : strtokR (pre ++ s) delim pre.length = .ok (some t, buff, save)) :
    ∃ gap token b post, s = gap ++ (token ++ b :: post) ∧ Gap delim gap ∧ Token delim token ∧
      (b = delim ∨ b = 0) := by
  obtain ⟨s₁, hstart, h⟩ := bind_eq_ok.mp h
  obtain ⟨gap, c, post, rfl, hgap, hc, rfl⟩ := exists_of_findEnd hstart
  have hc0 : c ≠ 0 := by
    rintro rfl
    rw [← List.append_assoc, ← List.length_append, List.getElem?_append_right le_rfl, Nat.sub_self,
      List.getElem?_cons_zero, if_pos rfl] at h
    cases h
  split at h
  · cases h
  obtain ⟨e, hend, -⟩ := bind_eq_ok.mp h
  rw [← List.append_assoc, ← List.length_append] at hend
  obtain ⟨token, b, post', heq, htoken, hb, -⟩ := exists_of_findEnd hend
  refine ⟨gap, token, b, post', by rw [heq], fun c hc => of_decide_eq_true (hgap c hc), ⟨?_, ?_⟩,
    ?_⟩
  · rintro rfl
    rw [List.nil_append, List.cons.injEq] at heq
    obtain ⟨rfl, -⟩ := heq
    simp only [decide_eq_false_iff_not] at hb hc
    exact hb ⟨hc, hc0⟩
  · exact fun c hc => of_decide_eq_true (htoken c hc)
  · have hor := of_decide_eq_false hb
    rwa [not_and_or, not_not, not_not] at hor

end

/-! ### Numbers -/

theorem digitOf_of_isDigit {b : UInt8} (h : isDigit b = true) : digitOf b = digitValue b := by
  rw [digitOf, if_pos h]

/-- The digits of a decimal numeral are read back in base 10. -/
theorem foldl_digitOf {ds : Bytes} (hds : ∀ b ∈ ds, isDigit b = true) :
    ds.foldl (fun n b => 10 * n + digitOf b) 0 = numeral ds := by
  rw [numeral]
  refine List.foldl_ext _ _ 0 fun n b hb => ?_
  rw [digitOf_of_isDigit (hds b hb)]

theorem takeWhile_digitOf {n : ℕ} {b : UInt8} (hb : digitOf b = 36) (rest : Bytes) :
    baseOf (decimal n ++ b :: rest) ≠ 16 ∧
      ((decimal n ++ b :: rest).takeWhile
        (digitOf · < baseOf (decimal n ++ b :: rest))).foldl
          (fun m c => baseOf (decimal n ++ b :: rest) * m + digitOf c) 0 = n := by
  by_cases hn : n = 0
  · subst hn
    have hzero : decimal 0 = [48] := rfl
    have hx : b ≠ 120 ∧ b ≠ 88 := by
      constructor <;> rintro rfl <;> revert hb <;> decide
    have hbase : baseOf (48 :: b :: rest) = 8 := by simp [baseOf, hx]
    rw [hzero, List.singleton_append, hbase, List.takeWhile_cons_of_pos (by decide),
      List.takeWhile_cons_of_neg (by simp [hb])]
    decide
  · have hdigits : ∀ c ∈ decimal n, isDigit c = true := fun c hc => isDigit_decimal hc
    have hhead : (decimal n ++ b :: rest).head? ≠ some 48 := by
      intro hhead
      rw [List.head?_append_of_ne_nil _ (decimal_ne_nil n)] at hhead
      obtain ⟨c, hc⟩ := List.length_eq_one_iff.mp (noLeadingZeros_decimal n hhead)
      have hvalue := numeral_decimal n
      rw [hc] at hhead hvalue
      cases hhead
      exact hn hvalue.symm
    have hbase : baseOf (decimal n ++ b :: rest) = 10 := by rw [baseOf, if_neg hhead]
    have hwhile : (decimal n ++ b :: rest).takeWhile (digitOf · < 10) = decimal n := by
      have hpos : ∀ c ∈ decimal n, decide (digitOf c < 10) = true := fun c hc =>
        decide_eq_true (digitOf_of_isDigit (hdigits c hc) ▸ digitValue_lt (hdigits c hc))
      rw [List.takeWhile_append_of_pos hpos, List.takeWhile_cons_of_neg (by simp [hb]),
        List.append_nil]
    rw [hbase, hwhile, foldl_digitOf hdigits, numeral_decimal]
    exact ⟨by decide, rfl⟩

/-- A decimal numeral behind a blank is read back. The byte that follows is no
digit and no letter. -/
theorem strtoul_decimal {n : ℕ} (hn : n < 2 ^ 64) {b : UInt8} (hb : digitOf b = 36)
    (rest : Bytes) : strtoul (32 :: decimal n ++ b :: rest) = n := by
  obtain ⟨d, ds, hds⟩ := List.exists_cons_of_ne_nil (decimal_ne_nil n)
  have hd : isDigit d = true := isDigit_decimal (hds ▸ List.mem_cons_self)
  have hdrop : (32 :: decimal n ++ b :: rest).dropWhile IfStream.isSpace =
      decimal n ++ b :: rest := by
    rw [List.cons_append, List.dropWhile_cons_of_pos (by decide), hds, List.cons_append,
      List.dropWhile_cons_of_neg (by simp [IfStream.isSpace_eq_false_of_isDigit hd])]
  have hsign : ∀ c : UInt8, isDigit c = false → (decimal n ++ b :: rest).head? ≠ some c := by
    intro c hc h
    rw [hds] at h
    cases h
    rw [hc] at hd
    cases hd
  obtain ⟨h16, hvalue⟩ := takeWhile_digitOf (n := n) hb rest
  have hneg := hsign 45 (by decide)
  simp only [strtoul, hdrop, hneg, hsign 43 (by decide), or_self, if_false, h16, hvalue]
  rw [if_neg (by omega)]
  rfl

end Daobell
