import Daobell.Tracker.Receive

/-!
What the loop over the header makes of it. The loop writes into what it has
already passed and looks at what is still to come, so a state is a buffer of two
parts. It ends when, behind lines that are longer, there is a line of one
character, and it goes wrong when there is none or when a declared length is
missing.
-/

namespace Daobell

def linesText (ls : List Bytes) : Bytes := ls.flatMap (· ++ [newline])

def PlainLine (l : Bytes) : Prop := ∀ b ∈ l, b ≠ newline ∧ b ≠ 0

/-- What a `Content-Length` header says, between colons. -/
def valueOf (l : Bytes) : Bytes :=
  ((l.drop contentLengthName.length).dropWhile (· = ':'.toUInt8)).takeWhile (· ≠ ':'.toUInt8)

/-- The length declared after a line, when it was `len` before. -/
def declared (len : UInt32) (l : Bytes) : UInt32 :=
  if contentLengthName <+: l then UInt32.ofNat (strtoul (valueOf l)) else len

def chunckedLine (l : Bytes) : Bool := transferEncoding.isPrefixOf l

/-- A `Content-Length` header says something. -/
def SaysLength (l : Bytes) : Prop := contentLengthName <+: l → valueOf l ≠ []

theorem cStr_append_zero {s : Bytes} (hs : (0 : UInt8) ∉ s) (post : Bytes) :
    cStr (s ++ 0 :: post) = s := by
  have hpos : ∀ b ∈ s, decide (b ≠ 0) = true := fun b hb => decide_eq_true fun h => hs (h ▸ hb)
  rw [cStr, List.takeWhile_append_of_pos hpos, List.takeWhile_cons_of_neg (by decide),
    List.append_nil]

theorem strncmpEq_append_zero {s t : Bytes} (ht : (0 : UInt8) ∉ t) (hs : (0 : UInt8) ∉ s)
    (post : Bytes) : strncmpEq (s ++ 0 :: post) t t.length = true ↔ t <+: s := by
  have hcStr : strncmpEq (s ++ 0 :: post) t t.length = strncmpEq s t t.length := by
    rw [strncmpEq, strncmpEq, cStr_append_zero hs, cStr_eq_self hs]
  rw [hcStr, strncmpEq_iff ht]

theorem zero_notMem_of_plain {l : Bytes} (h : PlainLine l) : (0 : UInt8) ∉ l :=
  fun h0 => (h 0 h0).2 rfl

/-! ### The declared length -/

section

variable {pre gap l post : Bytes}

theorem exists_of_contentLengthName (hname : contentLengthName <+: l) :
    ∃ v, l = bytesOf "Content-Length" ++ ':'.toUInt8 :: v ∧ valueOf l =
      (v.dropWhile (· = ':'.toUInt8)).takeWhile (· ≠ ':'.toUInt8) := by
  obtain ⟨v, rfl⟩ := hname
  exact ⟨v, rfl, rfl⟩

/-- The first call of `strtok_r` cuts off the name of the header. -/
theorem strtokR_name (v : Bytes) :
    strtokR (pre ++ (bytesOf "Content-Length" ++ ':'.toUInt8 :: v ++ 0 :: post)) ':'.toUInt8
        pre.length =
      .ok (some pre.length, pre ++ bytesOf "Content-Length" ++ [0] ++ (v ++ 0 :: post),
        (pre ++ bytesOf "Content-Length" ++ [0]).length) := by
  have hname : Token ':'.toUInt8 (bytesOf "Content-Length") := .of_all (by decide) rfl
  have h := strtokR_append pre (v ++ 0 :: post) gap_nil hname (.inl rfl)
  have hcolon : ¬ ':'.toUInt8 = 0 := by decide
  simpa [hcolon, Nat.add_assoc] using h

/-- Without anything else behind the colon there is no token, and `strtoul` is
handed a null pointer. -/
theorem declaredLength_error (hname : contentLengthName <+: l) (hvalue : valueOf l = []) :
    declaredLength (pre ++ (l ++ 0 :: post)) pre.length = .error .nullDereference := by
  obtain ⟨v, rfl, hv⟩ := exists_of_contentLengthName hname
  have hgap : Gap ':'.toUInt8 v := by
    rw [hv] at hvalue
    intro b hb
    by_contra hne
    have hrest : v.dropWhile (· = ':'.toUInt8) ≠ [] := by
      rw [ne_eq, List.dropWhile_eq_nil_iff]
      exact fun hall => hne (of_decide_eq_true (hall b hb))
    obtain ⟨c, w, hw⟩ := List.exists_cons_of_ne_nil hrest
    have hc := List.head_dropWhile_not (· = ':'.toUInt8) hrest
    simp only [hw, List.head_cons, decide_eq_false_iff_not] at hc
    rw [hw, List.takeWhile_cons_of_pos (by simpa using hc)] at hvalue
    cases hvalue
  rw [declaredLength, strtokR_name, ok_bind]
  simp only [strtokR_none _ _ (by decide) hgap, ok_bind]

/-- A value with the colons in front of it and what another one cuts off. -/
theorem exists_split_value {v : Bytes} (hv : (0 : UInt8) ∉ v) {token : Bytes}
    (htoken : (v.dropWhile (· = ':'.toUInt8)).takeWhile (· ≠ ':'.toUInt8) = token)
    (hne : token ≠ []) :
    ∃ gap rest, v = gap ++ (token ++ rest) ∧ Gap ':'.toUInt8 gap ∧ Token ':'.toUInt8 token ∧
      (rest = [] ∨ ∃ w, rest = ':'.toUInt8 :: w) := by
  subst htoken
  have hsplit : v = v.takeWhile (· = ':'.toUInt8) ++
      ((v.dropWhile (· = ':'.toUInt8)).takeWhile (· ≠ ':'.toUInt8) ++
        (v.dropWhile (· = ':'.toUInt8)).dropWhile (· ≠ ':'.toUInt8)) := by
    rw [List.takeWhile_append_dropWhile, List.takeWhile_append_dropWhile]
  refine ⟨_, _, hsplit, fun b hb => ?_, ⟨hne, fun b hb => ⟨?_, ?_⟩⟩, ?_⟩
  · simpa using List.mem_takeWhile_imp hb
  · simpa using List.mem_takeWhile_imp hb
  · rintro rfl
    exact hv (hsplit ▸ List.mem_append_right _ (List.mem_append_left _ hb))
  · cases hrest : (v.dropWhile (· = ':'.toUInt8)).dropWhile (· ≠ ':'.toUInt8) with
    | nil => exact .inl rfl
    | cons c w =>
        have hc := List.head_dropWhile_not (· ≠ ':'.toUInt8) (hrest ▸ List.cons_ne_nil c w)
        simp only [hrest, List.head_cons, ne_eq, decide_eq_false_iff_not, not_not] at hc
        exact .inr ⟨w, by rw [hc]⟩

/-- The value is what is read as the length. The header is cut where it stands. -/
theorem declaredLength_ok (pre post : Bytes) (hname : contentLengthName <+: l) (hl : (0 : UInt8) ∉ l)
    (hvalue : valueOf l ≠ []) :
    ∃ rest, (bytesOf "Content-Length" ++ 0 :: rest).length = l.length ∧
      declaredLength (pre ++ (l ++ 0 :: post)) pre.length =
        .ok (UInt32.ofNat (strtoul (valueOf l)),
          pre ++ (bytesOf "Content-Length" ++ 0 :: rest ++ 0 :: post)) := by
  obtain ⟨v, rfl, hv⟩ := exists_of_contentLengthName hname
  have hv0 : (0 : UInt8) ∉ v := fun h =>
    hl (List.mem_append_right _ (List.mem_cons_of_mem _ h))
  obtain ⟨gap, rest, hsplit, hgap, htoken, hrest⟩ := exists_split_value hv0 hv.symm hvalue
  generalize valueOf (bytesOf "Content-Length" ++ ':'.toUInt8 :: v) = token at *
  subst hsplit
  have htoken0 : (0 : UInt8) ∉ token := fun h => (htoken.plain 0 h).2 rfl
  -- the second call finds the value, up to a colon or up to the end of the line
  have hsecond : ∀ pre : Bytes, ∃ rest' save, rest'.length = rest.length ∧
      strtokR (pre ++ (gap ++ (token ++ rest) ++ 0 :: post)) ':'.toUInt8 pre.length =
        .ok (some (pre ++ gap).length, pre ++ gap ++ (token ++ (rest' ++ 0 :: post)), save) ∧
      cStr (token ++ (rest' ++ 0 :: post)) = token := by
    intro pre
    rcases hrest with rfl | ⟨w, rfl⟩
    · have h := strtokR_append pre post hgap htoken (.inr rfl)
      simp only [List.append_assoc, List.append_nil] at h ⊢
      exact ⟨[], _, rfl, h, cStr_append_zero htoken0 post⟩
    · have h := strtokR_append pre (w ++ 0 :: post) hgap htoken (.inl rfl)
      simp only [List.append_assoc, List.cons_append] at h ⊢
      exact ⟨0 :: w, _, rfl, h, cStr_append_zero htoken0 _⟩
  obtain ⟨rest', save, hlength, heq, hcStr⟩ := hsecond (pre ++ bytesOf "Content-Length" ++ [0])
  refine ⟨gap ++ (token ++ rest'), ?_, ?_⟩
  · simp only [List.length_append, List.length_cons, hlength]
  · rw [declaredLength, strtokR_name, ok_bind]
    simp only [heq, ok_bind, List.drop_left, hcStr]
    simp only [List.append_assoc, List.cons_append, List.nil_append]

end

/-! ### A round -/

section

variable {pre gap line post : Bytes} {b : UInt8}

theorem headerRound_eq (hgap : Gap newline gap) (hline : Token newline line)
    (hb : b = newline ∨ b = 0) (n : ℕ) (chuncked : Bool) (len : UInt32) :
    headerRound ⟨pre ++ (gap ++ (line ++ b :: post)), pre.length, n, chuncked, len⟩ =
      if contentLengthName <+: line then
        declaredLength (pre ++ gap ++ (line ++ 0 :: post)) (pre ++ gap).length >>=
          fun (len, buff) =>
            .ok ⟨buff, (pre ++ gap ++ line).length + if b = 0 then 0 else 1, (pre ++ gap).length,
              chuncked || chunckedLine line, len⟩
      else
        .ok ⟨pre ++ gap ++ (line ++ 0 :: post),
          (pre ++ gap ++ line).length + if b = 0 then 0 else 1, (pre ++ gap).length,
          chuncked || chunckedLine line, len⟩ := by
  have hline0 := zero_notMem_of_plain hline.plain
  have hchuncked : strncmpEq (line ++ 0 :: post) transferEncoding transferEncoding.length =
      chunckedLine line := by
    rw [Bool.eq_iff_iff, strncmpEq_append_zero (by decide) hline0, chunckedLine,
      List.isPrefixOf_iff_prefix]
  have hname : (strncmpEq (line ++ 0 :: post) contentLengthName contentLengthName.length = true) =
      (contentLengthName <+: line) :=
    propext (strncmpEq_append_zero (by decide) hline0 post)
  have hassoc : pre ++ gap ++ line ++ 0 :: post = pre ++ gap ++ (line ++ 0 :: post) :=
    List.append_assoc _ _ _
  rw [headerRound, strtokR_append pre post hgap hline hb, ok_bind]
  simp only [hassoc, List.drop_left, hchuncked, hname]

/-- A round ends well on a line whose length is declared, if it should be. -/
theorem headerRound_ok (pre post : Bytes) (hgap : Gap newline gap) (hline : Token newline line)
    (hb : b = newline ∨ b = 0) (hdeclares : SaysLength line) (n : ℕ) (chuncked : Bool) (len : UInt32) :
    ∃ line', line'.length = line.length ∧
      headerRound ⟨pre ++ (gap ++ (line ++ b :: post)), pre.length, n, chuncked, len⟩ =
        .ok ⟨pre ++ gap ++ line' ++ 0 :: post,
          (pre ++ gap ++ line').length + if b = 0 then 0 else 1, (pre ++ gap).length,
          chuncked || chunckedLine line, declared len line⟩ ∧
      (strlen (pre ++ gap ++ line' ++ 0 :: post) (pre ++ gap).length = 1 ↔ line.length = 1) ∧
      (line.length = 1 → line' = line) := by
  have hline0 := zero_notMem_of_plain hline.plain
  rw [headerRound_eq hgap hline hb, declared]
  split
  · rename_i hname
    obtain ⟨rest, hlength, heq⟩ :=
      declaredLength_ok (pre ++ gap) post hname hline0 (hdeclares hname)
    have hlong : 15 ≤ line.length := hname.length_le
    have hlen : (pre ++ gap ++ (bytesOf "Content-Length" ++ 0 :: rest)).length =
        (pre ++ gap ++ line).length := by
      rw [List.length_append, hlength]
      exact List.length_append.symm
    refine ⟨_, hlength, ?_, ?_, by omega⟩
    · rw [heq, ok_bind, hlen, List.append_assoc (pre ++ gap)]
    · rw [strlen, List.append_assoc (pre ++ gap), List.drop_left, List.append_assoc,
        List.cons_append, cStr_append_zero (by decide)]
      exact iff_of_false (by decide) (by omega)
  · refine ⟨line, rfl, by rw [List.append_assoc (pre ++ gap)], ?_, fun _ => rfl⟩
    rw [strlen, List.append_assoc (pre ++ gap), List.drop_left, cStr_append_zero hline0]

theorem headerRound_error (hgap : Gap newline gap) (hline : Token newline line)
    (hb : b = newline ∨ b = 0) (hdeclares : ¬ SaysLength line) (n : ℕ) (chuncked : Bool)
    (len : UInt32) :
    headerRound ⟨pre ++ (gap ++ (line ++ b :: post)), pre.length, n, chuncked, len⟩ =
      .error .nullDereference := by
  obtain ⟨hname, hvalue⟩ := Classical.not_imp.mp hdeclares
  rw [headerRound_eq hgap hline hb, if_pos hname, declaredLength_error hname (not_not.mp hvalue),
    error_bind]

end

/-! ### The loop -/

/-- A line of one character and an empty one are no headers. -/
theorem not_prefix_of_short {l : Bytes} (hl : l.length ≤ 1) :
    ¬ contentLengthName <+: l ∧ ¬ transferEncoding <+: l := by
  have h15 : contentLengthName.length = 15 := rfl
  have h27 : transferEncoding.length = 27 := rfl
  refine ⟨fun h => ?_, fun h => ?_⟩ <;> have hle := h.length_le <;> omega

theorem declared_of_short {l : Bytes} (hl : l.length ≤ 1) (len : UInt32) : declared len l = len :=
  if_neg (not_prefix_of_short hl).1

theorem chunckedLine_of_short {l : Bytes} (hl : l.length ≤ 1) : chunckedLine l = false := by
  rw [chunckedLine, ← Bool.not_eq_true, List.isPrefixOf_iff_prefix]
  exact (not_prefix_of_short hl).2

/-- Lines that the loop passes, and then a line of the one character `c` that `b` ends. -/
structure EndsHeader (ls : List Bytes) (c b : UInt8) : Prop where
  plain : ∀ l ∈ ls, PlainLine l
  long : ∀ l ∈ ls, l.length ≠ 1
  declares : ∀ l ∈ ls, SaysLength l
  last : c ≠ newline ∧ c ≠ 0
  ended : b = newline ∨ b = 0

theorem EndsHeader.of_cons {l : Bytes} {ls : List Bytes} {c b : UInt8}
    (h : EndsHeader (l :: ls) c b) : EndsHeader ls c b where
  plain := fun l' hl' => h.plain l' (List.mem_cons_of_mem l hl')
  long := fun l' hl' => h.long l' (List.mem_cons_of_mem l hl')
  declares := fun l' hl' => h.declares l' (List.mem_cons_of_mem l hl')
  last := h.last
  ended := h.ended

theorem EndsHeader.cons {l : Bytes} {ls : List Bytes} {c b : UInt8} (hplain : PlainLine l)
    (hlong : l.length ≠ 1) (hdeclares : SaysLength l) (h : EndsHeader ls c b) :
    EndsHeader (l :: ls) c b where
  plain := List.forall_mem_cons.mpr ⟨hplain, h.plain⟩
  long := List.forall_mem_cons.mpr ⟨hlong, h.long⟩
  declares := List.forall_mem_cons.mpr ⟨hdeclares, h.declares⟩
  last := h.last
  ended := h.ended

theorem EndsHeader.append_gap {ls : List Bytes} {c b : UInt8} (h : EndsHeader ls c b)
    (gap : Bytes) : EndsHeader ((gap.map fun _ => []) ++ ls) c b := by
  induction gap with
  | nil => exact h
  | cons d gap ih =>
      refine EndsHeader.cons (by simp [PlainLine]) (by simp) (fun hname => ?_) ih
      exact absurd hname (not_prefix_of_short (by simp)).1

theorem linesText_cons (l : Bytes) (ls : List Bytes) :
    linesText (l :: ls) = l ++ newline :: linesText ls := by
  rw [linesText, List.flatMap_cons, List.append_assoc, List.singleton_append, linesText]

theorem linesText_append (ls ls' : List Bytes) :
    linesText (ls ++ ls') = linesText ls ++ linesText ls' := List.flatMap_append

theorem linesText_gap {gap : Bytes} (hgap : Gap newline gap) :
    linesText (gap.map fun _ => []) = gap := by
  induction gap with
  | nil => rfl
  | cons b gap ih =>
      rw [List.map_cons, linesText_cons, ih fun c hc => hgap c (List.mem_cons_of_mem b hc),
        hgap b List.mem_cons_self, List.nil_append]

theorem length_le_linesText (ls : List Bytes) : ls.length ≤ (linesText ls).length := by
  induction ls with
  | nil => exact Nat.zero_le _
  | cons l ls ih =>
      rw [linesText_cons, List.length_append, List.length_cons, List.length_cons]
      omega

theorem headerLoop_of_round {s t : HeaderScan} (h : headerRound s = .ok t) (fuel : ℕ) :
    headerLoop (fuel + 1) s =
      if strlen t.buff t.line ≠ 1 then headerLoop fuel t else .ok t := by
  rw [headerLoop, h, ok_bind]

/-- The loop ends at the first line of one character, with what the lines before it
have declared. -/
theorem headerLoop_lines {ls : List Bytes} {c b : UInt8} (hends : EndsHeader ls c b) (post : Bytes)
    {fuel : ℕ} (hfuel : ls.length < fuel) (pre gap : Bytes) (hgap : Gap newline gap) (n : ℕ)
    (chuncked : Bool) (len : UInt32) :
    ∃ pre' save, pre'.length = (pre ++ (gap ++ linesText ls)).length ∧
      headerLoop fuel
          ⟨pre ++ (gap ++ (linesText ls ++ c :: b :: post)), pre.length, n, chuncked, len⟩ =
        .ok ⟨pre' ++ c :: 0 :: post, save, pre'.length, chuncked || ls.any chunckedLine,
          ls.foldl declared len⟩ := by
  induction ls generalizing fuel pre gap n chuncked len with
  | nil =>
      obtain ⟨fuel, rfl⟩ := Nat.exists_eq_add_of_le' (show 1 ≤ fuel from hfuel)
      have hline : Token newline [c] := ⟨by simp, by simpa using hends.last⟩
      have hshort : [c].length ≤ 1 := le_rfl
      obtain ⟨line', -, hround, hstrlen, hsame⟩ := headerRound_ok pre post hgap
        hline hends.ended (fun h => absurd h (not_prefix_of_short hshort).1) n chuncked len
      obtain rfl := hsame rfl
      rw [declared_of_short hshort, chunckedLine_of_short hshort] at hround
      rw [List.append_assoc (pre ++ gap)] at hround hstrlen
      have hloop := (headerLoop_of_round hround fuel).trans (if_neg (not_not.mpr (hstrlen.mpr rfl)))
      rw [Bool.or_false] at hloop
      exact ⟨pre ++ gap, _, by simp [linesText], by simpa [linesText] using hloop⟩
  | cons l ls ih =>
      rw [List.length_cons] at hfuel
      by_cases hl : l = []
      · subst hl
        have hgap' : Gap newline (gap ++ [newline]) := by
          intro d hd
          rcases List.mem_append.mp hd with hd | hd
          · exact hgap d hd
          · exact List.mem_singleton.mp hd
        obtain ⟨pre', save, hpre', hloop⟩ :=
          ih hends.of_cons (show ls.length < fuel by omega) pre (gap ++ [newline]) hgap' n chuncked
            len
        refine ⟨pre', save, ?_, ?_⟩
        · rw [hpre', linesText_cons]
          simp only [List.append_assoc, List.singleton_append, List.nil_append]
        · rw [linesText_cons, List.any_cons, List.foldl_cons, chunckedLine_of_short (by simp),
            declared_of_short (by simp), Bool.false_or, ← hloop]
          simp only [List.append_assoc, List.nil_append, List.cons_append]
      · have hline : Token newline l := ⟨hl, hends.plain l List.mem_cons_self⟩
        obtain ⟨fuel, rfl⟩ := Nat.exists_eq_add_of_le' (show 1 ≤ fuel by omega)
        obtain ⟨line', hlength, hround, hstrlen, -⟩ := headerRound_ok pre
          (linesText ls ++ c :: b :: post) hgap hline (.inl rfl)
          (hends.declares l List.mem_cons_self) n chuncked len
        obtain ⟨pre', save, hpre', hloop⟩ := ih hends.of_cons (show ls.length < fuel by omega)
          (pre ++ gap ++ line' ++ [0]) [] gap_nil (pre ++ gap).length
          (chuncked || chunckedLine l) (declared len l)
        have hbuff : pre ++ (gap ++ (linesText (l :: ls) ++ c :: b :: post)) =
            pre ++ (gap ++ (l ++ newline :: (linesText ls ++ c :: b :: post))) := by
          rw [linesText_cons]
          simp only [List.append_assoc, List.cons_append]
        have hlong : ¬ l.length = 1 := hends.long l List.mem_cons_self
        refine ⟨pre', save, ?_, ?_⟩
        · rw [hpre', linesText_cons]
          simp only [List.length_append, List.length_cons, List.length_nil, hlength]
          omega
        · rw [hbuff, headerLoop, hround, ok_bind, if_pos (mt hstrlen.mp hlong), List.any_cons,
            List.foldl_cons, ← Bool.or_assoc, ← hloop]
          have hnewline : ¬ newline = 0 := by decide
          simp only [List.append_assoc, List.singleton_append, List.nil_append, List.length_append,
            List.length_singleton, if_neg hnewline, Nat.add_assoc]

theorem headerLoop_error {pre post : Bytes} {fuel n : ℕ} {chuncked : Bool} {len : UInt32}
    {t : HeaderScan} :
    headerLoop fuel ⟨pre ++ 0 :: post, pre.length, n, chuncked, len⟩ ≠ .ok t := by
  cases fuel with
  | zero => exact fun h => by cases h
  | succ fuel =>
      have hnone := strtokR_none pre post (show newline ≠ 0 by decide) gap_nil
      rw [List.nil_append] at hnone
      rw [headerLoop, headerRound, hnone, ok_bind]
      exact fun h => by cases h

theorem exists_of_headerRound {pre s : Bytes} {n : ℕ} {chuncked : Bool} {len : UInt32}
    (h : ∃ t, headerRound ⟨pre ++ s, pre.length, n, chuncked, len⟩ = .ok t) :
    ∃ gap line b post, s = gap ++ (line ++ b :: post) ∧ Gap newline gap ∧ Token newline line ∧
      (b = newline ∨ b = 0) := by
  obtain ⟨t, h⟩ := h
  obtain ⟨⟨line, buff, save⟩, hstrtok, h⟩ := bind_eq_ok.mp h
  cases line with
  | none => cases h
  | some line => exact exists_token pre hstrtok

/-- If the loop ends, there is such a line. -/
theorem exists_of_headerLoop {fuel : ℕ} {pre s : Bytes} {n : ℕ} {chuncked : Bool} {len : UInt32}
    {t : HeaderScan} (h : headerLoop fuel ⟨pre ++ s, pre.length, n, chuncked, len⟩ = .ok t) :
    ∃ ls c b post, s = linesText ls ++ c :: b :: post ∧ EndsHeader ls c b := by
  induction fuel generalizing pre s n chuncked len with
  | zero => cases h
  | succ fuel ih =>
      have hround : ∃ t₁, headerRound ⟨pre ++ s, pre.length, n, chuncked, len⟩ = .ok t₁ :=
        (bind_eq_ok.mp h).imp fun _ => And.left
      obtain ⟨gap, line, b, post, rfl, hgap, hline, hb⟩ := exists_of_headerRound hround
      have hdeclares : SaysLength line := by
        by_contra hnone
        obtain ⟨t₁, ht₁⟩ := hround
        rw [headerRound_error hgap hline hb hnone] at ht₁
        cases ht₁
      obtain ⟨line', -, heq, hstrlen, -⟩ := headerRound_ok pre post hgap hline hb
        hdeclares n chuncked len
      rw [headerLoop_of_round heq] at h
      by_cases hone : line.length = 1
      · obtain ⟨c, rfl⟩ := List.length_eq_one_iff.mp hone
        have hends : EndsHeader [] c b :=
          ⟨by simp, by simp, by simp, hline.plain c List.mem_cons_self, hb⟩
        refine ⟨_, c, b, post, ?_, hends.append_gap gap⟩
        rw [List.append_nil, linesText_gap hgap]
        rfl
      · rw [if_pos (mt hstrlen.mp hone)] at h
        rcases hb with rfl | rfl
        swap
        · exact absurd h headerLoop_error
        have hnext : headerLoop fuel ⟨pre ++ gap ++ line' ++ [0] ++ post,
            (pre ++ gap ++ line' ++ [0]).length, (pre ++ gap).length, chuncked || chunckedLine line,
            declared len line⟩ = .ok t := by
          have hnewline : ¬ newline = 0 := by decide
          rw [if_neg hnewline] at h
          rw [List.append_assoc (pre ++ gap ++ line'), List.length_append]
          exact h
        obtain ⟨ls, c, b, post, rfl, hends⟩ := ih hnext
        refine ⟨_, c, b, post, ?_, (EndsHeader.cons hline.plain hone hdeclares hends).append_gap gap⟩
        rw [linesText_append, linesText_gap hgap, linesText_cons]
        simp only [List.append_assoc, List.cons_append]

end Daobell
