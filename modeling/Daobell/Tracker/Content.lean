import Daobell.Tracker.HeaderLines

/-!
The body of a response. The buffer is what has been received with zeros behind
it. A response whose header is in order and declares the length of its body is
handed to the caller whole, whatever the body is and however it arrives.
-/

namespace Daobell

open Lib

def StatusOk (line : Bytes) : Prop := http10 <+: line ∨ http11 <+: line

instance (line : Bytes) : Decidable (StatusOk line) := inferInstanceAs (Decidable (_ ∨ _))

section

variable {gap line post : Bytes} {b : UInt8}

theorem contentFromTrackerResp_first (hgap : Gap newline gap) (hline : Token newline line)
    (hb : b = newline ∨ b = 0) :
    contentFromTrackerResp (gap ++ (line ++ b :: post)) =
      if StatusOk line then
        headerLoop ((gap ++ line ++ 0 :: post).length + 1) ⟨gap ++ line ++ 0 :: post,
          (gap ++ line).length + if b = 0 then 0 else 1, gap.length, false, 0⟩ >>= fun s =>
        if s.chuncked then .ok (some none)
        else
          copyContent s.buff (s.line + strlen s.buff s.line + 1) s.contentLength.toNat >>= fun c =>
          .ok (some (some c))
      else .ok none := by
  have hline0 := zero_notMem_of_plain hline.plain
  have hstrtok := strtokR_append [] post hgap hline hb
  simp only [List.nil_append, List.length_nil] at hstrtok
  have hdrop : (gap ++ line ++ 0 :: post).drop gap.length = line ++ 0 :: post := by
    rw [List.append_assoc, List.drop_left]
  have hstatus : (¬ strncmpEq (line ++ 0 :: post) http10 http10.length = true ∧
      ¬ strncmpEq (line ++ 0 :: post) http11 http11.length = true) = ¬ StatusOk line := by
    rw [strncmpEq_append_zero (by decide) hline0, strncmpEq_append_zero (by decide) hline0,
      ← not_or, StatusOk]
  rw [contentFromTrackerResp, hstrtok, ok_bind]
  simp only [hdrop, hstatus, ite_not]

theorem behind_newline (pre post : Bytes) :
    pre ++ 0 :: post = pre ++ [0] ++ post ∧
      pre.length + (if newline = 0 then 0 else 1) = (pre ++ [0]).length := by
  rw [if_neg (by decide), List.length_append, List.append_assoc]
  exact ⟨rfl, rfl⟩

theorem copyContent_append (pre post : Bytes) (len : ℕ) :
    copyContent (pre ++ post) pre.length len =
      if len ≤ post.length then .ok ⟨pre.length, post.take len⟩ else .error .outOfRange := by
  rw [copyContent, List.drop_left, List.length_append]
  simp only [Nat.add_le_add_iff_left]

theorem contentFromTrackerResp_lines (post : Bytes) (hgap : Gap newline gap) (hline : Token newline line)
    (hstatus : StatusOk line) {ls : List Bytes} {c : UInt8} (hends : EndsHeader ls c b) :
    contentFromTrackerResp (gap ++ (line ++ newline :: (linesText ls ++ c :: b :: post))) =
      if ls.any chunckedLine then .ok (some none)
      else if (ls.foldl declared 0).toNat ≤ post.length then
        .ok (some (some ⟨(gap ++ (line ++ newline :: (linesText ls ++ [c, b]))).length,
          post.take (ls.foldl declared 0).toNat⟩))
      else .error .outOfRange := by
  have hfuel : ls.length <
      (gap ++ line ++ 0 :: (linesText ls ++ c :: b :: post)).length + 1 := by
    have hle := length_le_linesText ls
    simp only [List.length_append, List.length_cons]
    omega
  obtain ⟨pre', save, hpre', hloop⟩ := headerLoop_lines hends post hfuel (gap ++ line ++ [0]) []
    gap_nil gap.length false 0
  obtain ⟨hbuff, hstart⟩ := behind_newline (gap ++ line) (linesText ls ++ c :: b :: post)
  have hc0 : (0 : UInt8) ∉ [c] := by simpa using hends.last.2.symm
  have hstrlen : strlen (pre' ++ c :: 0 :: post) pre'.length = 1 := by
    rw [strlen, List.drop_left]
    exact congrArg List.length (cStr_append_zero hc0 post)
  have hcopy : copyContent (pre' ++ c :: 0 :: post) (pre'.length + 1 + 1)
      (ls.foldl declared 0).toNat =
        if (ls.foldl declared 0).toNat ≤ post.length then
          .ok ⟨(gap ++ (line ++ newline :: (linesText ls ++ [c, b]))).length,
            post.take (ls.foldl declared 0).toNat⟩
        else .error .outOfRange := by
    have h := copyContent_append (pre' ++ [c, 0]) post (ls.foldl declared 0).toNat
    have hlength : (pre' ++ [c, 0]).length =
        (gap ++ (line ++ newline :: (linesText ls ++ [c, b]))).length := by
      simp only [List.length_append, List.length_cons, List.length_nil] at hpre' ⊢
      omega
    rw [← hlength, ← h, List.append_assoc, List.length_append]
    rfl
  rw [List.nil_append, ← hbuff] at hloop
  rw [contentFromTrackerResp_first hgap hline (.inl rfl), if_pos hstatus, hstart, hloop, ok_bind]
  simp only [Bool.false_or, hstrlen, hcopy]
  split
  · rfl
  · split <;> rfl

/-- A call that comes back has refused the first line, or found the end of the header. -/
theorem exists_of_contentFromTrackerResp {buff : Bytes} {content : Option (Option Content)}
    (h : contentFromTrackerResp buff = .ok content) :
    ∃ gap line b post, buff = gap ++ (line ++ b :: post) ∧ Gap newline gap ∧ Token newline line ∧
      (b = newline ∨ b = 0) ∧ (StatusOk line → b = newline ∧
        ∃ ls c b post', post = linesText ls ++ c :: b :: post' ∧ EndsHeader ls c b) := by
  obtain ⟨⟨first, buff', save⟩, hstrtok, hrest⟩ := bind_eq_ok.mp h
  cases first with
  | none => cases hrest
  | some first =>
      obtain ⟨gap, line, b, post, rfl, hgap, hline, hb⟩ := exists_token [] hstrtok
      refine ⟨gap, line, b, post, rfl, hgap, hline, hb, fun hstatus => ?_⟩
      rw [contentFromTrackerResp_first hgap hline hb, if_pos hstatus] at h
      obtain ⟨t, hloop, -⟩ := bind_eq_ok.mp h
      rcases hb with rfl | rfl
      swap
      · exact absurd hloop headerLoop_error
      obtain ⟨hbuff, hstart⟩ := behind_newline (gap ++ line) post
      rw [hstart, hbuff] at hloop
      exact ⟨rfl, exists_of_headerLoop hloop⟩

end

/-! ### Receiving -/

/-- The loop comes back with all that fits into the buffer, unless `recv` fails. -/
theorem respLoop_spec (fuel : ℕ) (sock : Socket) (received : Bytes)
    (hle : received.length ≤ respBuffSize) (hfuel : sock.inp.length < fuel) :
    ∃ reply sock', respLoop fuel sock received = .ok (reply, sock') ∧
      (∀ bytes ∈ reply, bytes = received ++ sock.inp.take (respBuffSize - received.length)) ∧
      (sock.RecvReliable → reply ≠ none) := by
  induction fuel generalizing sock received with
  | zero => omega
  | succ fuel ih =>
      rw [respLoop]
      obtain ⟨sock₁, hrecv, -, hfail⟩ | ⟨bytes, sock₁, hrecv, hstep, hlen, hend⟩ :=
        recv_cases sock (respBuffSize - received.length)
      · rw [hrecv]
        exact ⟨none, sock₁, rfl, by simp, fun h => absurd h hfail⟩
      · rw [hrecv]
        simp only
        split
        · rename_i hne
          have hshorter := hstep.length_lt hne
          obtain ⟨reply, sock', heq, hreply, hrel⟩ := ih sock₁ _
            (show (received ++ bytes).length ≤ respBuffSize by
              rw [List.length_append]; omega) (by omega)
          refine ⟨reply, sock', heq, fun all hall => ?_, fun h => hrel (hstep.reliable h)⟩
          rw [hreply all hall, hstep.inp, List.take_append, List.take_of_length_le hlen,
            List.length_append, List.append_assoc, Nat.sub_sub]
        · rename_i hempty
          refine ⟨some received, sock₁, rfl, fun all hall => ?_, fun _ => by simp⟩
          cases hall
          rw [hend (not_not.mp hempty), List.append_nil]

/-- The buffer of `tracker_recv_resp` when it is parsed. -/
def respBuff (inp : Bytes) : Bytes :=
  inp.take respBuffSize ++ List.replicate (respBuffSize - (inp.take respBuffSize).length) 0

theorem trackerRecvResp_spec (sock : Socket) :
    ∃ sock', (trackerRecvResp sock = .ok (none, sock') ∧ ¬ sock.RecvReliable) ∨
      trackerRecvResp sock = (contentFromTrackerResp (respBuff sock.inp)).map fun content =>
        (content.map (⟨(sock.inp.take respBuffSize).length, ·⟩), sock') := by
  obtain ⟨reply, sock', heq, hreply, hrel⟩ :=
    respLoop_spec (sock.inp.length + 1) sock [] (Nat.zero_le _) (Nat.lt_succ_self _)
  refine ⟨sock', ?_⟩
  cases reply with
  | none => exact .inl ⟨by rw [trackerRecvResp, heq]; rfl, fun h => hrel h rfl⟩
  | some received =>
      have hreceived := hreply received rfl
      rw [List.nil_append, List.length_nil, Nat.sub_zero] at hreceived
      subst hreceived
      refine .inr ?_
      rw [trackerRecvResp, heq, respBuff]
      simp only [ok_bind]
      cases contentFromTrackerResp _ <;> rfl

/-! ### Responses in order -/

def crlf : Bytes := [13, newline]

def contentLengthHeader (body : Bytes) : Bytes := contentLengthName ++ 32 :: decimal body.length

structure OtherHeader (h : Bytes) : Prop where
  ne_nil : h ≠ []
  plain : PlainLine h
  not_length : ¬ contentLengthName <+: h
  not_chuncked : ¬ transferEncoding <+: h

/-- A response with status 200 that declares the length of its body, in 1024 bytes. -/
structure OkResponse where
  status : Bytes
  before : List Bytes
  after : List Bytes
  body : Bytes
  status_eq : status = http10 ∨ status = http11
  others : ∀ h ∈ before ++ after, OtherHeader h
  length_le : ((status :: (before ++ contentLengthHeader body :: after)).flatMap (· ++ crlf) ++
    crlf ++ body).length ≤ respBuffSize

/-- The lines that end with a carriage return and a newline, the empty one, and the body. -/
def OkResponse.wire (r : OkResponse) : Bytes :=
  (r.status :: (r.before ++ contentLengthHeader r.body :: r.after)).flatMap (· ++ crlf) ++ crlf ++
    r.body

def withReturn (h : Bytes) : Bytes := h ++ [13]

theorem linesText_withReturn (hs : List Bytes) :
    linesText (hs.map withReturn) = hs.flatMap (· ++ crlf) := by
  rw [linesText, List.flatMap_map]
  simp only [withReturn, List.append_assoc, List.singleton_append]
  rfl

theorem plainLine_of_all {l : Bytes} (h : l.all (fun b => b ≠ newline ∧ b ≠ 0) = true) :
    PlainLine l :=
  fun b hb => of_decide_eq_true (List.all_eq_true.mp h b hb)

theorem plainLine_withReturn {h : Bytes} (hh : PlainLine h) : PlainLine (withReturn h) := by
  intro b hb
  rcases List.mem_append.mp hb with hb | hb
  · exact hh b hb
  · rw [List.mem_singleton.mp hb]
    decide

theorem not_prefix_withReturn {name h : Bytes} (hname : name.getLast? ≠ some 13)
    (hh : ¬ name <+: h) : ¬ name <+: withReturn h := by
  intro hprefix
  rcases List.prefix_concat_iff.mp hprefix with heq | hprefix
  · rw [heq] at hname
    simp at hname
  · exact hh hprefix

theorem ne_colon_of_mem_value {n : ℕ} {b : UInt8} (hb : b ∈ 32 :: decimal n ++ [13]) :
    b ≠ ':'.toUInt8 := by
  rcases List.mem_append.mp hb with hb | hb
  · rcases List.mem_cons.mp hb with rfl | hb
    · decide
    · rintro rfl
      exact absurd (isDigit_decimal hb) (by decide)
  · rw [List.mem_singleton.mp hb]
    decide

theorem valueOf_contentLengthHeader (body : Bytes) :
    valueOf (withReturn (contentLengthHeader body)) = 32 :: decimal body.length ++ [13] := by
  have hwhile : (32 :: decimal body.length ++ [13]).takeWhile (· ≠ ':'.toUInt8) =
      32 :: decimal body.length ++ [13] :=
    List.takeWhile_eq_self_iff.mpr fun b hb => decide_eq_true (ne_colon_of_mem_value hb)
  rw [valueOf, withReturn, contentLengthHeader, List.append_assoc, List.drop_left, List.cons_append,
    List.dropWhile_cons_of_neg (by decide)]
  exact hwhile

theorem declared_contentLengthHeader {body : Bytes} (hbody : body.length < 2 ^ 64) (len : UInt32) :
    declared len (withReturn (contentLengthHeader body)) = UInt32.ofNat body.length := by
  have hprefix : contentLengthName <+: withReturn (contentLengthHeader body) := by
    rw [withReturn, contentLengthHeader, List.append_assoc]
    exact List.prefix_append _ _
  rw [declared, if_pos hprefix, valueOf_contentLengthHeader, strtoul_decimal hbody (by decide)]

theorem foldl_declared {ls : List Bytes} (h : ∀ l ∈ ls, ¬ contentLengthName <+: l) (len : UInt32) :
    ls.foldl declared len = len := by
  induction ls with
  | nil => rfl
  | cons l ls ih =>
      rw [List.foldl_cons, declared, if_neg (h l List.mem_cons_self),
        ih fun l' hl' => h l' (List.mem_cons_of_mem l hl')]

namespace OkResponse

variable (r : OkResponse)

def lines : List Bytes := (r.before ++ contentLengthHeader r.body :: r.after).map withReturn

theorem mem_lines {l : Bytes} (hl : l ∈ r.lines) :
    l = withReturn (contentLengthHeader r.body) ∨ ∃ h, OtherHeader h ∧ l = withReturn h := by
  obtain ⟨h, hh, rfl⟩ := List.mem_map.mp hl
  rcases List.mem_append.mp hh with hh | hh
  · exact .inr ⟨h, r.others h (List.mem_append_left _ hh), rfl⟩
  · rcases List.mem_cons.mp hh with rfl | hh
    · exact .inl rfl
    · exact .inr ⟨h, r.others h (List.mem_append_right _ hh), rfl⟩

theorem plain_contentLengthHeader (body : Bytes) : PlainLine (contentLengthHeader body) := by
  have hname : PlainLine contentLengthName := plainLine_of_all rfl
  intro b hb
  rcases List.mem_append.mp hb with hb | hb
  · exact hname b hb
  · rcases List.mem_cons.mp hb with rfl | hb
    · decide
    · have hdigit := isDigit_decimal hb
      constructor <;> rintro rfl <;> exact absurd hdigit (by decide)

theorem not_chuncked_contentLengthHeader (body : Bytes) :
    ¬ transferEncoding <+: contentLengthHeader body := by
  rintro ⟨t, ht⟩
  exact absurd (List.cons.inj ht).1 (by decide)

theorem not_length_withReturn {h : Bytes} (hh : OtherHeader h) :
    ¬ contentLengthName <+: withReturn h := not_prefix_withReturn (by decide) hh.not_length

theorem endsHeader_lines : EndsHeader r.lines 13 newline where
  plain := by
    intro l hl
    rcases r.mem_lines hl with rfl | ⟨h, hh, rfl⟩
    · exact plainLine_withReturn (plain_contentLengthHeader r.body)
    · exact plainLine_withReturn hh.plain
  long := by
    intro l hl
    rcases r.mem_lines hl with rfl | ⟨h, hh, rfl⟩
    · simp only [withReturn, contentLengthHeader, List.length_append, List.length_cons]
      omega
    · simpa [withReturn] using hh.ne_nil
  declares := by
    intro l hl
    rcases r.mem_lines hl with rfl | ⟨h, hh, rfl⟩
    · rw [SaysLength, valueOf_contentLengthHeader]
      exact fun _ => by simp
    · exact fun hname => absurd hname (not_length_withReturn hh)
  last := by decide
  ended := .inl rfl

theorem any_chunckedLine_lines : r.lines.any chunckedLine = false := by
  rw [List.any_eq_false]
  intro l hl
  rw [chunckedLine, List.isPrefixOf_iff_prefix]
  rcases r.mem_lines hl with rfl | ⟨h, hh, rfl⟩
  · exact not_prefix_withReturn (by decide) (not_chuncked_contentLengthHeader r.body)
  · exact not_prefix_withReturn (by decide) hh.not_chuncked

theorem length_body_le : r.body.length ≤ respBuffSize := by
  refine le_trans ?_ r.length_le
  rw [List.length_append]
  exact Nat.le_add_left _ _

theorem declared_lines : r.lines.foldl declared 0 = UInt32.ofNat r.body.length := by
  have hnone : ∀ hs : List Bytes, (∀ h ∈ hs, OtherHeader h) →
      ∀ l ∈ hs.map withReturn, ¬ contentLengthName <+: l := by
    intro hs hhs l hl
    obtain ⟨h, hh, rfl⟩ := List.mem_map.mp hl
    exact not_length_withReturn (hhs h hh)
  have hbody : r.body.length < 2 ^ 64 := r.length_body_le.trans_lt (by decide)
  rw [lines, List.map_append, List.map_cons, List.foldl_append, List.foldl_cons,
    foldl_declared (hnone _ fun h hh => r.others h (List.mem_append_left _ hh)),
    declared_contentLengthHeader hbody,
    foldl_declared (hnone _ fun h hh => r.others h (List.mem_append_right _ hh))]

theorem wire_append (rest : Bytes) : r.wire ++ rest =
    [] ++ (withReturn r.status ++ newline ::
      (linesText r.lines ++ 13 :: newline :: (r.body ++ rest))) := by
  rw [wire, List.flatMap_cons, lines, linesText_withReturn]
  simp only [withReturn, crlf, List.append_assoc, List.cons_append, List.nil_append]

end OkResponse

/-- **A body is handed over as it was sent**, with whatever other headers in whatever
order and in whatever pieces the response arrives. -/
theorem trackerRecvResp_body (r : OkResponse) (sock : Socket) (hinp : sock.inp = r.wire)
    (hsock : sock.RecvReliable) :
    ∃ sock', trackerRecvResp sock =
      .ok (some ⟨r.wire.length, some ⟨r.wire.length - r.body.length, r.body⟩⟩, sock') := by
  obtain ⟨sock', hfails | heq⟩ := trackerRecvResp_spec sock
  · exact absurd hsock hfails.2
  refine ⟨sock', ?_⟩
  have htake : r.wire.take respBuffSize = r.wire := List.take_of_length_le r.length_le
  have hstatus : StatusOk (withReturn r.status) := by
    rcases r.status_eq with h | h
    · exact .inl (h ▸ List.prefix_append _ _)
    · exact .inr (h ▸ List.prefix_append _ _)
  have hline : Token newline (withReturn r.status) := by
    refine ⟨by simp [withReturn], plainLine_withReturn ?_⟩
    rcases r.status_eq with h | h
    · exact h ▸ plainLine_of_all rfl
    · exact h ▸ plainLine_of_all rfl
  have hbody : (UInt32.ofNat r.body.length).toNat = r.body.length :=
    UInt32.toNat_ofNat_of_lt' (r.length_body_le.trans_lt (by decide))
  have hoff : ([] ++ (withReturn r.status ++ newline :: (linesText r.lines ++
      [13, newline]))).length = r.wire.length - r.body.length := by
    have hlength := congrArg List.length (r.wire_append [])
    simp only [List.append_nil, List.nil_append, List.length_append, List.length_cons,
      List.length_nil] at hlength ⊢
    omega
  have hcontent := contentFromTrackerResp_lines
    (r.body ++ List.replicate (respBuffSize - r.wire.length) 0) gap_nil hline hstatus r.endsHeader_lines
  rw [← r.wire_append, r.any_chunckedLine_lines, r.declared_lines, hbody,
    if_neg Bool.false_ne_true, if_pos (by simp), List.take_left, hoff] at hcontent
  rw [heq, hinp, respBuff, htake, hcontent]
  rfl

/-- A header in front of the length, and a body of three bytes with a newline in it. -/
def binaryResponse : OkResponse where
  status := http11
  before := [bytesOf "Server: t"]
  after := []
  body := [0, 10, 255]
  status_eq := .inr rfl
  others := List.forall_mem_singleton.mpr
    ⟨by decide, plainLine_of_all rfl, by decide, by decide⟩
  length_le := by decide

theorem trackerRecvResp_body_binaryResponse :
    ∃ sock', trackerRecvResp ⟨binaryResponse.wire, [.transfers 20, .transfers 0], [], []⟩ =
      .ok (some ⟨binaryResponse.wire.length, some ⟨binaryResponse.wire.length -
        binaryResponse.body.length, binaryResponse.body⟩⟩, sock') :=
  trackerRecvResp_body binaryResponse
    ⟨binaryResponse.wire, [.transfers 20, .transfers 0], [], []⟩ rfl
    (by simp [Socket.RecvReliable])

end Daobell
