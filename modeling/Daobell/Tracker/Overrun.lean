import Daobell.Tracker.Content

/-!
Responses that the buffer is not safe from. The scan of the header neither looks
whether a line has been found nor whether the bytes that the header declares
have come.
-/

namespace Daobell

def RespReceived.CopiesReceived (answer : RespReceived) : Prop :=
  ∀ c ∈ answer.content, c.bytes = [] ∨ c.off + c.bytes.length ≤ answer.total

/-- However the stream arrives, the call comes back, and has copied what it has
received if it returns 0. -/
def ReceivesSafely (inp : Bytes) : Prop :=
  ∀ sock : Socket, sock.inp = inp → ∃ answer sock', trackerRecvResp sock = .ok (answer, sock') ∧
    ∀ a ∈ answer, a.CopiesReceived

/-- The first line ends in the buffer, and is no status line that is accepted. -/
def Refuses (buff : Bytes) : Prop :=
  ∃ gap line b post, buff = gap ++ (line ++ b :: post) ∧ Gap newline gap ∧ Token newline line ∧
    (b = newline ∨ b = 0) ∧ ¬ StatusOk line

/-- Behind a status line that is accepted the header comes to an end, every length in
it has a value, and the header and the length that it declares are within `total`. -/
def Frames (buff : Bytes) (total : ℕ) : Prop :=
  ∃ gap line ls c b post, buff = gap ++ (line ++ newline :: (linesText ls ++ c :: b :: post)) ∧
    Gap newline gap ∧ Token newline line ∧ StatusOk line ∧ EndsHeader ls c b ∧
    (ls.any chunckedLine = true ∨ ls.foldl declared 0 = 0 ∨
      (gap ++ (line ++ newline :: (linesText ls ++ [c, b]))).length + (ls.foldl declared 0).toNat ≤
        total)

theorem length_respBuff (inp : Bytes) : (respBuff inp).length = respBuffSize := by
  have hle := List.length_take_le respBuffSize inp
  rw [respBuff, List.length_append, List.length_replicate]
  omega

/-- What is copied out of a header that frames it has been received. -/
theorem contentFromTrackerResp_frames {buff : Bytes} {total : ℕ} (hframes : Frames buff total)
    (htotal : total ≤ buff.length) :
    ∃ content, contentFromTrackerResp buff = .ok (some content) ∧
      (RespReceived.mk total content).CopiesReceived := by
  obtain ⟨gap, line, ls, c, b, post, rfl, hgap, hline, hstatus, hends, hor⟩ := hframes
  rw [contentFromTrackerResp_lines _ hgap hline hstatus hends]
  by_cases hchuncked : ls.any chunckedLine = true
  · exact ⟨none, by rw [if_pos hchuncked], by simp [RespReceived.CopiesReceived]⟩
  have hor' := hor.resolve_left hchuncked
  have hpost : (ls.foldl declared 0).toNat ≤ post.length := by
    rcases hor' with hzero | hle
    · rw [hzero]
      exact Nat.zero_le _
    · simp only [List.length_append, List.length_cons, List.length_nil] at hle htotal
      omega
  rw [if_neg hchuncked, if_pos hpost]
  refine ⟨_, rfl, ?_⟩
  rintro _ ⟨⟩
  rcases hor' with hzero | hle
  · exact .inl (by rw [hzero]; rfl)
  · exact .inr (by rwa [List.length_take_of_le hpost])

/-- A call that comes back, and has copied what it has received. -/
theorem refuses_or_frames {buff : Bytes} {total : ℕ} {content : Option (Option Content)}
    (h : contentFromTrackerResp buff = .ok content)
    (hcopies : ∀ c ∈ content, (RespReceived.mk total c).CopiesReceived) :
    Refuses buff ∨ Frames buff total := by
  obtain ⟨gap, line, b, post, rfl, hgap, hline, hb, hstatus⟩ := exists_of_contentFromTrackerResp h
  by_cases hok : StatusOk line
  swap
  · exact .inl ⟨gap, line, b, post, rfl, hgap, hline, hb, hok⟩
  obtain ⟨rfl, ls, c, b, post, rfl, hends⟩ := hstatus hok
  refine .inr ⟨gap, line, ls, c, b, post, rfl, hgap, hline, hok, hends, ?_⟩
  rw [contentFromTrackerResp_lines _ hgap hline hok hends] at h
  split at h
  · rename_i hchuncked
    exact .inl hchuncked
  split at h
  swap
  · cases h
  rename_i hpost
  cases h
  rcases hcopies _ rfl _ rfl with hempty | hle
  · have hlength := congrArg List.length hempty
    rw [List.length_take_of_le hpost] at hlength
    exact .inr (.inl (UInt32.toNat_inj.mp hlength))
  · rw [List.length_take_of_le hpost] at hle
    exact .inr (.inr hle)

/-- **Which responses are safe to receive**, however they arrive: those whose first
line is refused, and those whose header comes to an end and declares no more than
has come. -/
theorem trackerRecvResp_safe_iff (inp : Bytes) :
    ReceivesSafely inp ↔
      Refuses (respBuff inp) ∨ Frames (respBuff inp) (inp.take respBuffSize).length := by
  constructor
  · intro h
    have hrel : (⟨inp, [], [], []⟩ : Socket).RecvReliable := by simp [Socket.RecvReliable]
    obtain ⟨answer, sock', heq, hcopies⟩ := h ⟨inp, [], [], []⟩ rfl
    obtain ⟨sock'', hfails | hspec⟩ := trackerRecvResp_spec ⟨inp, [], [], []⟩
    · exact absurd hrel hfails.2
    rw [hspec] at heq
    obtain ⟨content, hcontent, hanswer⟩ := map_eq_ok.mp heq
    cases hanswer
    exact refuses_or_frames hcontent fun c hc => hcopies _ (Option.mem_map_of_mem _ hc)
  · rintro h sock rfl
    obtain ⟨sock', hfails | hspec⟩ := trackerRecvResp_spec sock
    · exact ⟨none, sock', hfails.1, by simp⟩
    rcases h with ⟨gap, line, b, post, hbuff, hgap, hline, hb, hstatus⟩ | hframes
    · refine ⟨none, sock', ?_, by simp⟩
      rw [hspec, hbuff, contentFromTrackerResp_first hgap hline hb, if_neg hstatus]
      rfl
    · have htotal : (sock.inp.take respBuffSize).length ≤ (respBuff sock.inp).length := by
        rw [length_respBuff]
        exact List.length_take_le _ _
      obtain ⟨content, hcontent, hcopies⟩ := contentFromTrackerResp_frames hframes htotal
      refine ⟨_, sock', by rw [hspec, hcontent]; rfl, ?_⟩
      rintro _ ⟨⟩
      exact hcopies

/-- A tracker that closes the connection has sent no line. -/
theorem not_receivesSafely_nil : ¬ ReceivesSafely [] := by
  intro h
  obtain ⟨answer, sock', heq, -⟩ := h ⟨[], [], [], []⟩ rfl
  have hcrash : (trackerRecvResp ⟨[], [], [], []⟩).map (fun _ => ()) = .error .nullDereference := by
    decide +kernel
  rw [heq] at hcrash
  cases hcrash

end Daobell
