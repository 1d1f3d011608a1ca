import Daobell.Ftp.Downloader

/-!
The port in the reply to `PASV`. The loop of `strtok` reads the parts between the commas as
numbers, all but the empty ones; the call is left by an exception exactly when there are
fewer than six of them in a reply that begins as it should.
-/

namespace Daobell

open Lib

def comma : UInt8 := 44

def partValue (part : Bytes) : ℕ := (extractSize part).getD 0

def partsOf (text : Bytes) : List ℕ :=
  ((text.splitOn comma).filter (· ≠ [])).map partValue

section

variable {token rest : Bytes}

theorem partsOf_comma (rest : Bytes) : partsOf (comma :: rest) = partsOf rest := by
  rw [partsOf, ← List.nil_append (comma :: rest), List.splitOn_append_cons_self]
  rfl

theorem partsOf_token (hne : token ≠ []) (hcomma : comma ∉ token) :
    partsOf token = [partValue token] := by
  rw [partsOf, List.splitOn_eq_singleton hcomma]
  simp [hne]

theorem partsOf_token_comma (hne : token ≠ []) (hcomma : comma ∉ token) (rest : Bytes) :
    partsOf (token ++ comma :: rest) = partValue token :: partsOf rest := by
  rw [partsOf, List.splitOn_append_cons_self, List.splitOn_eq_singleton hcomma,
    List.singleton_append, partsOf]
  simp [hne]

theorem partsOf_gap {gap : Bytes} (hgap : Gap comma gap) (rest : Bytes) :
    partsOf (gap ++ rest) = partsOf rest := by
  induction gap with
  | nil => rfl
  | cons b gap ih =>
      rw [hgap b List.mem_cons_self, List.cons_append, partsOf_comma]
      exact ih fun c hc => hgap c (List.mem_cons_of_mem b hc)

/-- What is read next: a gap, and a token that begins what stands behind it. -/
theorem exists_gap (text : Bytes) :
    ∃ gap rest, text = gap ++ rest ∧ Gap comma gap ∧ rest.head? ≠ some comma := by
  refine ⟨text.takeWhile (· = comma), text.dropWhile (· = comma),
    List.takeWhile_append_dropWhile.symm, ?_, ?_⟩
  · intro b hb
    simpa using List.mem_takeWhile_imp hb
  · intro hhead
    have hnot := List.head?_dropWhile_not (fun b => decide (b = comma)) text
    rw [hhead] at hnot
    simp at hnot

theorem exists_token_rest {text : Bytes} (hzero : 0 ∉ text) (hne : text ≠ [])
    (hhead : text.head? ≠ some comma) :
    ∃ token rest, text = token ++ rest ∧ Token comma token ∧
      (rest = [] ∨ ∃ post, rest = comma :: post) := by
  refine ⟨text.takeWhile (· ≠ comma), text.dropWhile (· ≠ comma),
    List.takeWhile_append_dropWhile.symm, ⟨?_, ?_⟩, ?_⟩
  · obtain ⟨b, bs, rfl⟩ := List.exists_cons_of_ne_nil hne
    have hb : b ≠ comma := fun h => hhead (congrArg some h)
    simp [hb]
  · intro b hb
    have hmem : b ∈ text := (List.takeWhile_sublist _).subset hb
    exact ⟨by simpa using List.mem_takeWhile_imp hb, fun h => hzero (h ▸ hmem)⟩
  · cases hrest : text.dropWhile (· ≠ comma) with
    | nil => exact .inl rfl
    | cons b post =>
        have hnot := List.head?_dropWhile_not (fun b => decide (b ≠ comma)) text
        rw [hrest] at hnot
        have hb : b = comma := by simpa using hnot
        exact .inr ⟨post, by rw [hb]⟩

end

/-- The loop of `strtok` over a text without a zero byte, from its place in the buffer on. -/
theorem splitLoop_eq (fuel : ℕ) (pre : Bytes) {text : Bytes} (hzero : 0 ∉ text)
    (hfuel : text.length < fuel) :
    splitLoop fuel (pre ++ (text ++ [0])) pre.length = .ok (partsOf text) := by
  induction fuel generalizing pre text with
  | zero => exact absurd hfuel (Nat.not_lt_zero _)
  | succ fuel ih =>
      obtain ⟨gap, rest, rfl, hgap, hhead⟩ := exists_gap text
      rw [List.mem_append, not_or] at hzero
      rw [List.append_assoc, partsOf_gap hgap, splitLoop]
      by_cases hrest : rest = []
      · subst hrest
        rw [List.nil_append, show ','.toUInt8 = comma from rfl,
          strtokR_none pre [] (by decide) hgap]
        rfl
      · obtain ⟨token, rest, rfl, htoken, hcase⟩ := exists_token_rest hzero.2 hrest hhead
        have hcomma : comma ∉ token := fun h => (htoken.plain comma h).1 rfl
        have htokenZero : (0 : UInt8) ∉ token := fun h => (htoken.plain 0 h).2 rfl
        have hpos := List.length_pos_iff.mpr htoken.ne_nil
        simp only [List.length_append] at hfuel
        have hread : ∀ behind : Bytes,
            (extractSize (cStr ((pre ++ gap ++ token ++ 0 :: behind).drop
              (pre ++ gap).length))).getD 0 = partValue token := by
          intro behind
          rw [List.append_assoc (pre ++ gap), List.drop_left, cStr_append htokenZero]
          simp [cStr, partValue]
        rcases hcase with rfl | ⟨post, rfl⟩
        · have hstrtok := strtokR_append pre [] hgap htoken (b := 0) (.inr rfl)
          have hloop := ih (pre ++ gap ++ token) (show 0 ∉ ([] : Bytes) from List.not_mem_nil) (by
            rw [List.length_nil]
            omega)
          rw [List.append_nil, partsOf_token htoken.ne_nil hcomma,
            show ','.toUInt8 = comma from rfl, hstrtok]
          simp only [if_pos, Nat.add_zero, hread]
          rw [List.nil_append] at hloop
          rw [hloop]
          rfl
        · have hstrtok := strtokR_append pre (post ++ [0]) hgap htoken (b := comma) (.inl rfl)
          have hpost : (0 : UInt8) ∉ post := fun h => hzero.2
            (List.mem_append_right _ (List.mem_cons_of_mem _ h))
          have hloop := ih (pre ++ gap ++ token ++ [0]) hpost (by
            rw [List.length_cons] at hfuel
            omega)
          rw [partsOf_token_comma htoken.ne_nil hcomma,
            List.append_assoc token, List.cons_append, show ','.toUInt8 = comma from rfl, hstrtok]
          have hne : ¬ comma = 0 := by decide
          simp only [if_neg hne, hread]
          rw [List.append_assoc _ [0], List.length_append, List.singleton_append] at hloop
          rw [show (pre ++ gap ++ token).length + 1 =
            (pre ++ gap ++ token).length + [(0 : UInt8)].length from rfl, hloop]
          rfl

/-! ### Which replies name a port -/

theorem zero_notMem_cStr {s : Bytes} : 0 ∉ cStr s := by
  intro h
  simpa using List.mem_takeWhile_imp h

/-- `ip_port`: what stands between the first brackets. -/
def ipPortOf (str : Bytes) : Bytes :=
  let pos1 := (findFirstOf ['('.toUInt8] str).getD npos
  let pos2 := (findFirstOf [')'.toUInt8] str).getD npos
  (str.drop ((pos1 + 1) % 2 ^ 64)).take (subSize (subSize pos2 pos1) 1)

theorem vecAt_eq_ok {vec : List ℕ} {i n : ℕ} : vecAt vec i = .ok n ↔ vec[i]? = some n := by
  rw [vecAt]
  cases vec[i]? <;> simp

theorem substr_ipPort (str : Bytes) :
    substr str (((findFirstOf ['('.toUInt8] str).getD npos + 1) % 2 ^ 64)
      (subSize (subSize ((findFirstOf [')'.toUInt8] str).getD npos)
        ((findFirstOf ['('.toUInt8] str).getD npos)) 1) = .ok (ipPortOf str) := by
  refine if_pos ?_
  cases h : findFirstOf ['('.toUInt8] str with
  | none => simp [npos]
  | some pos =>
      have hlt : pos < str.length := by
        obtain ⟨hlt, -⟩ := List.findIdx?_eq_some_iff_getElem.mp h
        exact hlt
      exact (Nat.mod_le _ _).trans hlt

/-- The port is high and low byte of the fifth and sixth number. -/
theorem passivePort_of_begins {str : Bytes} (hzero : 0 ∉ str)
    (hbegin : findBytes (bytesOf "227 Entering Passive Mode") str = some 0) :
    passivePort str =
      vecAt (partsOf (ipPortOf str)) 4 >>= fun high =>
        vecAt (partsOf (ipPortOf str)) 5 >>= fun low =>
          pure ((high * 256 + low) % 2 ^ 64) := by
  have hsub : 0 ∉ ipPortOf str := by
    rw [ipPortOf]
    exact fun h => hzero (List.mem_of_mem_drop (List.mem_of_mem_take h))
  have hsplit := splitLoop_eq ((ipPortOf str).length + 1) [] hsub (Nat.lt_succ_self _)
  rw [List.nil_append, List.length_nil] at hsplit
  rw [passivePort, if_pos hbegin]
  dsimp only
  rw [substr_ipPort]
  dsimp only
  rw [hsplit, ok_bind]

/-- **When the reply to `PASV` throws**: it begins as it should, and there are fewer than six
numbers between its brackets. -/
theorem passivePort_eq_error_iff {str : Bytes} (hzero : 0 ∉ str) {stop : Stop} :
    passivePort str = .error stop ↔
      stop = .crash .outOfRange ∧ bytesOf "227 Entering Passive Mode" <+: str ∧
        (partsOf (ipPortOf str)).length < 6 := by
  have hfind : findBytes (bytesOf "227 Entering Passive Mode") str = some 0 ↔
      bytesOf "227 Entering Passive Mode" <+: str := by
    rw [findBytes_eq_some_iff (by decide)]
    simp
  by_cases hbegin : findBytes (bytesOf "227 Entering Passive Mode") str = some 0
  swap
  · rw [passivePort, if_neg hbegin]
    constructor
    · intro h
      cases h
    · rintro ⟨-, hstart, -⟩
      exact absurd (hfind.mpr hstart) hbegin
  rw [passivePort_of_begins hzero hbegin]
  by_cases hsix : (partsOf (ipPortOf str)).length < 6
  · have herror : vecAt (partsOf (ipPortOf str)) 5 = .error (.crash .outOfRange) := by
      rw [vecAt, List.getElem?_eq_none (by omega)]
    have hthrow : (vecAt (partsOf (ipPortOf str)) 4 >>= fun high =>
        vecAt (partsOf (ipPortOf str)) 5 >>= fun low =>
          (pure ((high * 256 + low) % 2 ^ 64) : Except Stop ℕ)) =
        .error (.crash .outOfRange) := by
      rw [herror, vecAt]
      split <;> rfl
    rw [hthrow, Except.error.injEq, eq_comm]
    exact ⟨fun h => ⟨h, hfind.mp hbegin, hsix⟩, fun h => h.1⟩
  · have hhigh := vecAt_eq_ok.mpr (List.getElem?_eq_getElem (l := partsOf (ipPortOf str)) (i := 4)
      (by omega))
    have hlow := vecAt_eq_ok.mpr (List.getElem?_eq_getElem (l := partsOf (ipPortOf str)) (i := 5)
      (by omega))
    rw [hhigh, ok_bind, hlow, ok_bind]
    constructor
    · intro h
      cases h
    · rintro ⟨-, -, hlt⟩
      exact absurd hlt hsix

/-! ### The reply that servers give -/

def commaJoined (ns : List ℕ) : Bytes := [comma].intercalate (ns.map decimal)

theorem commaJoined_cons (n m : ℕ) (ns : List ℕ) :
    commaJoined (n :: m :: ns) = decimal n ++ comma :: commaJoined (m :: ns) := by
  simp [commaJoined, List.intercalate]

theorem partValue_decimal {n : ℕ} (hn : n < 2 ^ 64) : partValue (decimal n) = n := by
  rw [partValue, extractSize_digits (decimal_ne_nil n) (fun b hb => isDigit_decimal hb)
    (by rwa [numeral_decimal]), numeral_decimal]
  rfl

theorem comma_notMem_decimal (n : ℕ) : comma ∉ decimal n := by
  intro h
  have hdigit := isDigit_decimal h
  revert hdigit
  decide

/-- **The numbers are read back.** -/
theorem partsOf_commaJoined {ns : List ℕ} (hns : ∀ n ∈ ns, n < 2 ^ 64) :
    partsOf (commaJoined ns) = ns := by
  induction ns with
  | nil => rfl
  | cons n ns ih =>
      have hn := partValue_decimal (hns n List.mem_cons_self)
      have ih := ih fun m hm => hns m (List.mem_cons_of_mem n hm)
      cases ns with
      | nil =>
          rw [commaJoined, List.map_singleton, List.intercalate_singleton,
            partsOf_token (decimal_ne_nil n) (comma_notMem_decimal n), hn]
      | cons m ns =>
          rw [commaJoined_cons, partsOf_token_comma (decimal_ne_nil n) (comma_notMem_decimal n), hn,
            ih]

theorem length_decimal_le {n : ℕ} (hn : n < 256) : (decimal n).length ≤ 3 := by
  rw [decimal]
  split
  · simp
  · rw [List.length_map, List.length_reverse]
    exact (Nat.digits_length_le_iff (by decide) n).mpr (by omega)

theorem length_commaJoined_le {ns : List ℕ} (hns : ∀ n ∈ ns, n < 256) :
    (commaJoined ns).length ≤ 4 * ns.length := by
  induction ns with
  | nil => simp [commaJoined]
  | cons n ns ih =>
      have hn := length_decimal_le (hns n List.mem_cons_self)
      have ih := ih fun m hm => hns m (List.mem_cons_of_mem n hm)
      cases ns with
      | nil =>
          rw [commaJoined, List.map_singleton, List.intercalate_singleton, List.length_singleton]
          omega
      | cons m ns =>
          rw [commaJoined_cons, List.length_append, List.length_cons, List.length_cons]
          omega

theorem mem_commaJoined {ns : List ℕ} {b : UInt8} (hb : b ∈ commaJoined ns) :
    b = comma ∨ isDigit b = true := by
  induction ns with
  | nil => simp [commaJoined] at hb
  | cons n ns ih =>
      cases ns with
      | nil =>
          rw [commaJoined, List.map_singleton, List.intercalate_singleton] at hb
          exact .inr (isDigit_decimal hb)
      | cons m ns =>
          rw [commaJoined_cons, List.mem_append, List.mem_cons] at hb
          rcases hb with hb | rfl | hb
          · exact .inr (isDigit_decimal hb)
          · exact .inl rfl
          · exact ih hb

def pasvReply (ns : List ℕ) : Bytes :=
  bytesOf "227 Entering Passive Mode (" ++ commaJoined ns ++ [')'.toUInt8]

/-- **The port of the reply is read back**, whatever stands behind it in the buffer. -/
theorem passivePort_pasvReply {ns : List ℕ} (hns : ∀ n ∈ ns, n < 256) {high low : ℕ}
    (hlength : ns.length = 6) (hhigh : ns[4]? = some high) (hlow : ns[5]? = some low)
    (behind : Bytes) :
    passivePort (cStr (pasvReply ns ++ behind)) = .ok (high * 256 + low) := by
  have hplain : ∀ b : UInt8, b ≠ comma → isDigit b = false → b ∉ commaJoined ns := by
    intro b hcomma hdigit hb
    rcases mem_commaJoined hb with rfl | h
    · exact hcomma rfl
    · rw [hdigit] at h
      cases h
  have hzero : (0 : UInt8) ∉ pasvReply ns := by
    rw [pasvReply, List.mem_append, List.mem_append]
    rintro ((h | h) | h)
    · revert h
      decide
    · exact hplain 0 (by decide) (by decide) h
    · revert h
      decide
  have hstr : cStr (pasvReply ns ++ behind) = bytesOf "227 Entering Passive Mode (" ++
      (commaJoined ns ++ ')'.toUInt8 :: cStr behind) := by
    rw [cStr_append hzero, pasvReply]
    simp only [List.append_assoc, List.singleton_append]
  have hbegin : findBytes (bytesOf "227 Entering Passive Mode") (cStr (pasvReply ns ++ behind)) =
      some 0 := by
    have hsplit : bytesOf "227 Entering Passive Mode (" =
        bytesOf "227 Entering Passive Mode" ++ bytesOf " (" := rfl
    rw [hstr, findBytes_eq_some_iff (by decide), hsplit, List.append_assoc, List.drop_zero]
    exact ⟨List.prefix_append _ _, fun j hj => absurd hj (Nat.not_lt_zero j)⟩
  have hip : ipPortOf (cStr (pasvReply ns ++ behind)) = commaJoined ns := by
    have hopen : findFirstOf ['('.toUInt8] (cStr (pasvReply ns ++ behind)) = some 26 := by
      have hsplit : bytesOf "227 Entering Passive Mode (" =
          bytesOf "227 Entering Passive Mode " ++ ['('.toUInt8] := rfl
      have hlength : (bytesOf "227 Entering Passive Mode ").length = 26 := rfl
      rw [hstr, hsplit, List.append_assoc, List.singleton_append, findFirstOf_char (by decide),
        hlength]
    have hclose : findFirstOf [')'.toUInt8] (cStr (pasvReply ns ++ behind)) =
        some (27 + (commaJoined ns).length) := by
      have hfront : ')'.toUInt8 ∉ bytesOf "227 Entering Passive Mode (" ++ commaJoined ns := by
        rw [List.mem_append]
        rintro (h | h)
        · revert h
          decide
        · exact hplain _ (by decide) (by decide) h
      have hlength : (bytesOf "227 Entering Passive Mode (").length = 27 := rfl
      rw [hstr, ← List.append_assoc, findFirstOf_char hfront, List.length_append, hlength]
    have hcount : subSize (subSize (27 + (commaJoined ns).length) 26) 1 =
        (commaJoined ns).length := by
      have hle := length_commaJoined_le hns
      rw [subSize_subSize_of_le (by omega) (by omega)]
      omega
    have hdrop : (26 + 1) % 2 ^ 64 = (bytesOf "227 Entering Passive Mode (").length := rfl
    rw [ipPortOf, hopen, hclose]
    dsimp only [Option.getD_some]
    rw [hcount, hstr, hdrop, List.drop_left, List.take_left]
  rw [passivePort_of_begins zero_notMem_cStr hbegin, hip,
    partsOf_commaJoined fun n hn => (hns n hn).trans (by decide), vecAt_eq_ok.mpr hhigh,
    vecAt_eq_ok.mpr hlow, ok_bind, ok_bind, Nat.mod_eq_of_lt]
  · rfl
  · have hhigh := hns high (List.mem_of_getElem? hhigh)
    have hlow := hns low (List.mem_of_getElem? hlow)
    omega

end Daobell
