import Daobell.Cxx

/-!
A connected socket, and the loops of `peer_msg.cpp` that move a number of bytes
through it. A socket holds the bytes its peer is going to send before it closes
the connection, the bytes sent to the peer so far, and how the calls of `recv`
and `send` to come will turn out: a call may move fewer bytes than asked for,
but at least one when there is one, or fail.
-/

namespace Daobell

/-- How one call of `recv` or `send` turns out: it moves up to `n + 1` bytes,
or it returns -1. -/
inductive Reply
  | transfers (n : ℕ)
  | error
  deriving DecidableEq, Repr

structure Socket where
  inp : Bytes
  recvs : List Reply
  out : Bytes
  sends : List Reply
  deriving DecidableEq

/-- `recv` on a buffer of `len` bytes; `none` for -1, no bytes at the end of the
stream. -/
def recv (sock : Socket) (len : ℕ) : Option Bytes × Socket :=
  match sock.recvs with
  | [] => (some (sock.inp.take len), { sock with inp := sock.inp.drop len })
  | .error :: rs => (none, { sock with recvs := rs })
  | .transfers n :: rs =>
      (some (sock.inp.take (min (n + 1) len)),
        { sock with inp := sock.inp.drop (min (n + 1) len), recvs := rs })

/-- `send`; the number of bytes sent, `none` for -1. -/
def send (sock : Socket) (buff : Bytes) : Option ℕ × Socket :=
  match sock.sends with
  | [] => (some buff.length, { sock with out := sock.out ++ buff })
  | .error :: rs => (none, { sock with sends := rs })
  | .transfers n :: rs =>
      (some (min (n + 1) buff.length),
        { sock with out := sock.out ++ buff.take (n + 1), sends := rs })

/-- The loop of `peer_recv_buff`, with its `unsigned` count `total` of the bytes
that have come: whether the count is `len` in the end, and the bytes, in order.
Every round but the last takes a byte off the stream, which bounds the rounds. -/
def recvLoop (len : ℕ) : ℕ → Socket → ℕ → Bool × Bytes × Socket
  | 0, sock, _ => (false, [], sock)
  | fuel + 1, sock, total =>
      match recv sock (len - total) with
      | (none, sock) => (false, [], sock)
      | (some bytes, sock) =>
          let total := (total + bytes.length) % 2 ^ 32
          -- the loop ends when nothing comes any more, or when all has come
          if bytes ≠ [] ∧ total < len then
            let (ok, more, sock) := recvLoop len fuel sock total
            (ok, bytes ++ more, sock)
          else (total = len, bytes, sock)

/-- `peer_recv_buff`: whether it returns 0, the bytes it puts into the buffer,
and the socket behind it. Asked for nothing, it fails. -/
def peerRecvBuff (sock : Socket) (len : ℕ) : Bool × Bytes × Socket :=
  if len = 0 then (false, [], sock) else recvLoop len (sock.inp.length + 1) sock 0

/-- The loop of `peer_send_buff`, with its `unsigned` count `total` of the bytes
sent, on the bytes `buff` from its pointer on. A count that has wrapped asks for
more than is left of the buffer. Every round sends at least one byte. -/
def sendLoop (len : ℕ) : ℕ → Socket → Bytes → ℕ → Except Crash (Bool × Socket)
  | 0, sock, _, _ => .ok (false, sock)
  | fuel + 1, sock, buff, total =>
      if total < len then
        if buff.length < len - total then .error .outOfRange
        else
          match send sock (buff.take (len - total)) with
          | (none, sock) => .ok (false, sock)
          | (some sent, sock) =>
              sendLoop len fuel sock (buff.drop sent) ((total + sent) % 2 ^ 32)
      else .ok (total = len, sock)

/-- `peer_send_buff`: whether it returns 0. -/
def peerSendBuff (sock : Socket) (buff : Bytes) : Except Crash (Bool × Socket) :=
  sendLoop buff.length (buff.length + 1) sock buff 0

/-! ### Receiving -/

def Socket.RecvReliable (sock : Socket) : Prop := .error ∉ sock.recvs

def Socket.SendReliable (sock : Socket) : Prop := .error ∉ sock.sends

/-- What receiving leaves alone: it only takes bytes off the stream. -/
structure RecvStep (sock sock' : Socket) (bytes : Bytes) : Prop where
  inp : sock.inp = bytes ++ sock'.inp
  out : sock'.out = sock.out
  sends : sock'.sends = sock.sends
  reliable : sock.RecvReliable → sock'.RecvReliable

theorem RecvStep.refl (sock : Socket) : RecvStep sock sock [] := ⟨rfl, rfl, rfl, id⟩

theorem RecvStep.trans {sock mid sock' : Socket} {a b : Bytes} (h₁ : RecvStep sock mid a)
    (h₂ : RecvStep mid sock' b) : RecvStep sock sock' (a ++ b) where
  inp := by rw [h₁.inp, h₂.inp, List.append_assoc]
  out := h₂.out.trans h₁.out
  sends := h₂.sends.trans h₁.sends
  reliable := h₂.reliable ∘ h₁.reliable

theorem RecvStep.length_lt {sock sock' : Socket} {bytes : Bytes} (h : RecvStep sock sock' bytes)
    (hne : bytes ≠ []) : sock'.inp.length < sock.inp.length := by
  have hpos : 0 < bytes.length := List.length_pos_iff.mpr hne
  rw [h.inp, List.length_append]
  omega

/-- What a call of `recv` can do. It gives nothing only at the end of the stream, or when
it is asked for nothing. -/
theorem recv_cases (sock : Socket) (len : ℕ) :
    (∃ sock', recv sock len = (none, sock') ∧ RecvStep sock sock' [] ∧ ¬ sock.RecvReliable) ∨
      ∃ bytes sock', recv sock len = (some bytes, sock') ∧ RecvStep sock sock' bytes ∧
        bytes.length ≤ len ∧ (bytes = [] → sock.inp.take len = []) := by
  obtain ⟨inp, recvs, out, sends⟩ := sock
  rcases recvs with _ | ⟨n | _, rs⟩
  · exact .inr ⟨_, _, rfl, ⟨(List.take_append_drop len inp).symm, rfl, rfl, id⟩,
      List.length_take_le len inp, id⟩
  · refine .inr ⟨_, _, rfl, ⟨(List.take_append_drop _ inp).symm, rfl, rfl, ?_⟩, ?_, ?_⟩
    · exact fun h hr => h (List.mem_cons_of_mem _ hr)
    · exact (List.length_take_le _ inp).trans (Nat.min_le_right _ _)
    · intro hnil
      rcases List.take_eq_nil_iff.mp hnil with hmin | hinp
      · rw [show len = 0 by omega, List.take_zero]
      · rw [hinp, List.take_nil]
  · exact .inl ⟨_, rfl, ⟨rfl, rfl, rfl, fun h => absurd List.mem_cons_self h⟩,
      fun h => h List.mem_cons_self⟩

theorem recvLoop_step (len fuel : ℕ) (sock : Socket) (total : ℕ) :
    RecvStep sock (recvLoop len fuel sock total).2.2 (recvLoop len fuel sock total).2.1 := by
  induction fuel generalizing sock total with
  | zero => exact RecvStep.refl sock
  | succ fuel ih =>
      rw [recvLoop]
      obtain ⟨sock₁, hrecv, hstep, -⟩ | ⟨bytes, sock₁, hrecv, hstep, -⟩ :=
        recv_cases sock (len - total)
      · rw [hrecv]
        exact hstep
      · rw [hrecv]
        simp only
        split
        · exact hstep.trans (ih sock₁ _)
        · exact hstep

/-- The count is that of the bytes that have come, as long as it cannot wrap. -/
theorem recvLoop_ok {len : ℕ} (fuel : ℕ) (sock : Socket) {total : ℕ} (htotal : total < len)
    (hok : (recvLoop len fuel sock total).1 = true) :
    len < 2 ^ 32 ∧ (recvLoop len fuel sock total).2.1.length = len - total := by
  induction fuel generalizing sock total with
  | zero => cases hok
  | succ fuel ih =>
      rw [recvLoop] at hok ⊢
      obtain ⟨sock₁, hrecv, -⟩ | ⟨bytes, sock₁, hrecv, -, hlen, -⟩ :=
        recv_cases sock (len - total)
      · rw [hrecv] at hok
        cases hok
      · rw [hrecv] at hok ⊢
        simp only at hok ⊢
        split at hok
        · rename_i hmore
          obtain ⟨h32, hrest⟩ := ih sock₁ hmore.2 hok
          rw [if_pos hmore]
          refine ⟨h32, ?_⟩
          rw [List.length_append, hrest]
          have hmod := Nat.mod_eq_of_lt (show total + bytes.length < 2 ^ 32 by omega)
          omega
        · rename_i hlast
          rw [if_neg hlast]
          simp only [decide_eq_true_eq] at hok
          have hmod := Nat.mod_lt (total + bytes.length) (show 0 < 2 ^ 32 by decide)
          refine ⟨by omega, ?_⟩
          rw [Nat.mod_eq_of_lt (by omega)] at hok
          simp only
          omega

/-- The loop takes no more than it is asked for. -/
theorem recvLoop_le {len : ℕ} (hlen32 : len < 2 ^ 32) (fuel : ℕ) (sock : Socket) {total : ℕ}
    (htotal : total ≤ len) : (recvLoop len fuel sock total).2.1.length ≤ len - total := by
  induction fuel generalizing sock total with
  | zero => exact Nat.zero_le _
  | succ fuel ih =>
      rw [recvLoop]
      obtain ⟨sock₁, hrecv, -⟩ | ⟨bytes, sock₁, hrecv, -, hlen, -⟩ :=
        recv_cases sock (len - total)
      · rw [hrecv]
        exact Nat.zero_le _
      · rw [hrecv]
        have hmod := Nat.mod_eq_of_lt (show total + bytes.length < 2 ^ 32 by omega)
        simp only [hmod]
        split
        · have hrest := ih sock₁ (show total + bytes.length ≤ len by omega)
          rw [List.length_append]
          exact (Nat.add_le_add_left hrest _).trans (by omega)
        · exact hlen

/-- On a stream that does not fail, the loop takes what it is asked for, or all
there is. -/
theorem recvLoop_reliable {len : ℕ} (hlen32 : len < 2 ^ 32) (fuel : ℕ) {sock : Socket}
    (h : sock.RecvReliable) {total : ℕ} (htotal : total < len) (hfuel : sock.inp.length < fuel) :
    (recvLoop len fuel sock total).1 = decide (len - total ≤ sock.inp.length) ∧
      (recvLoop len fuel sock total).2.1 = sock.inp.take (len - total) := by
  induction fuel generalizing sock total with
  | zero => omega
  | succ fuel ih =>
      rw [recvLoop]
      obtain ⟨-, -, -, hfail⟩ | ⟨bytes, sock₁, hrecv, hstep, hlen, hend⟩ :=
        recv_cases sock (len - total)
      · exact absurd h hfail
      rw [hrecv]
      have hmod := Nat.mod_eq_of_lt (show total + bytes.length < 2 ^ 32 by omega)
      simp only [hmod]
      by_cases hmore : bytes ≠ [] ∧ total + bytes.length < len
      · have hshorter := hstep.length_lt hmore.1
        obtain ⟨hok, hmore'⟩ := ih (hstep.reliable h) hmore.2 (by omega)
        simp only [if_pos hmore, hok, hmore', hstep.inp, List.length_append]
        refine ⟨?_, ?_⟩
        · rw [decide_eq_decide]
          omega
        · rw [List.take_append, List.take_of_length_le hlen, Nat.sub_sub]
      · simp only [if_neg hmore]
        rcases not_and_or.mp hmore with hnil | hall
        -- the end of the stream
        · obtain rfl := not_not.mp hnil
          have hinp : sock.inp = [] :=
            (List.take_eq_nil_iff.mp (hend rfl)).resolve_left (by omega)
          rw [hinp, List.take_nil, decide_eq_decide, List.length_nil]
          exact ⟨by omega, rfl⟩
        · have hexact : bytes.length = len - total := by omega
          rw [hstep.inp, List.take_left' hexact, decide_eq_decide, List.length_append]
          exact ⟨by omega, rfl⟩

/-- What `peer_recv_buff` does whatever happens on the socket. -/
theorem peerRecvBuff_spec (sock : Socket) (len : ℕ) :
    RecvStep sock (peerRecvBuff sock len).2.2 (peerRecvBuff sock len).2.1 ∧
      ((peerRecvBuff sock len).1 = true →
        len < 2 ^ 32 ∧ (peerRecvBuff sock len).2.1.length = len) := by
  rw [peerRecvBuff]
  split
  · exact ⟨RecvStep.refl sock, by simp⟩
  · exact ⟨recvLoop_step len _ sock 0, recvLoop_ok _ sock (by omega)⟩

theorem peerRecvBuff_le (sock : Socket) {len : ℕ} (hlen32 : len < 2 ^ 32) :
    (peerRecvBuff sock len).2.1.length ≤ len := by
  rw [peerRecvBuff]
  split
  · exact Nat.zero_le _
  · exact recvLoop_le hlen32 _ sock (Nat.zero_le _)

/-- What `peer_recv_buff` does on a stream that does not fail. -/
theorem peerRecvBuff_reliable {sock : Socket} (h : sock.RecvReliable) {len : ℕ} (hlen : 0 < len)
    (hlen32 : len < 2 ^ 32) :
    (peerRecvBuff sock len).1 = decide (len ≤ sock.inp.length) ∧
      (peerRecvBuff sock len).2.1 = sock.inp.take len ∧
      (peerRecvBuff sock len).2.2.inp = sock.inp.drop len := by
  obtain ⟨hok, hbytes⟩ := recvLoop_reliable hlen32 _ h hlen (Nat.lt_succ_self _)
  have hstep := (recvLoop_step len (sock.inp.length + 1) sock 0).inp
  rw [peerRecvBuff, if_neg hlen.ne']
  refine ⟨hok, hbytes, ?_⟩
  rw [hbytes] at hstep
  exact List.append_cancel_left (hstep.symm.trans (List.take_append_drop len sock.inp).symm)

/-! ### Sending -/

/-- What sending leaves alone: it only adds bytes to those sent. -/
structure SendStep (sock sock' : Socket) (bytes : Bytes) : Prop where
  out : sock'.out = sock.out ++ bytes
  inp : sock'.inp = sock.inp
  recvs : sock'.recvs = sock.recvs
  reliable : sock.SendReliable → sock'.SendReliable

theorem SendStep.refl (sock : Socket) : SendStep sock sock [] := ⟨by simp, rfl, rfl, id⟩

theorem SendStep.trans {sock mid sock' : Socket} {a b : Bytes} (h₁ : SendStep sock mid a)
    (h₂ : SendStep mid sock' b) : SendStep sock sock' (a ++ b) where
  out := by rw [h₂.out, h₁.out, List.append_assoc]
  inp := h₂.inp.trans h₁.inp
  recvs := h₂.recvs.trans h₁.recvs
  reliable := h₂.reliable ∘ h₁.reliable

theorem send_cases (sock : Socket) {buff : Bytes} (hbuff : buff ≠ []) :
    (∃ sock', send sock buff = (none, sock') ∧ SendStep sock sock' [] ∧ ¬ sock.SendReliable) ∨
      ∃ sent sock', send sock buff = (some sent, sock') ∧ SendStep sock sock' (buff.take sent) ∧
        0 < sent ∧ sent ≤ buff.length := by
  obtain ⟨inp, recvs, out, sends⟩ := sock
  have hpos : 0 < buff.length := List.length_pos_iff.mpr hbuff
  rcases sends with _ | ⟨n | _, rs⟩
  · refine .inr ⟨_, _, rfl, ⟨?_, rfl, rfl, id⟩, hpos, le_rfl⟩
    rw [List.take_length]
  · refine .inr ⟨_, _, rfl, ⟨?_, rfl, rfl, ?_⟩, by omega, Nat.min_le_right _ _⟩
    · rw [← List.take_eq_take_min]
    · exact fun h hr => h (List.mem_cons_of_mem _ hr)
  · exact .inl ⟨_, rfl, ⟨(List.append_nil out).symm, rfl, rfl,
      fun h => absurd List.mem_cons_self h⟩, fun h => h List.mem_cons_self⟩

/-- As long as the count cannot wrap, the loop sends the buffer from its pointer
on; on a stream that does not fail, all of it. -/
theorem sendLoop_spec {len : ℕ} (hlen32 : len < 2 ^ 32) (fuel : ℕ) (sock : Socket) (buff : Bytes)
    (total : ℕ) (htotal : total + buff.length = len) (hfuel : buff.length < fuel) :
    ∃ ok sock' sent, sendLoop len fuel sock buff total = .ok (ok, sock') ∧
      SendStep sock sock' sent ∧ (ok = true → sent = buff) ∧
      (sock.SendReliable → ok = true) := by
  induction fuel generalizing sock buff total with
  | zero => omega
  | succ fuel ih =>
      rw [sendLoop]
      by_cases hbuff : buff = []
      · subst hbuff
        rw [List.length_nil, Nat.add_zero] at htotal
        rw [if_neg (by omega)]
        exact ⟨_, sock, [], rfl, SendStep.refl sock, fun _ => rfl, fun _ => by simp [htotal]⟩
      · have hpos : 0 < buff.length := List.length_pos_iff.mpr hbuff
        have htake : buff.take (len - total) = buff := List.take_of_length_le (by omega)
        rw [if_pos (by omega), if_neg (by omega), htake]
        obtain ⟨sock₁, hsend, hstep, hfail⟩ | ⟨n, sock₁, hsend, hstep, hn, hle⟩ :=
          send_cases sock hbuff
        · rw [hsend]
          exact ⟨false, sock₁, _, rfl, hstep, by simp, fun h => absurd h hfail⟩
        · have hmod := Nat.mod_eq_of_lt (show total + n < 2 ^ 32 by omega)
          rw [hsend]
          simp only [hmod]
          obtain ⟨ok, sock', sent, heq, hrest, hall, hok⟩ := ih sock₁ (buff.drop n)
            (total + n) (by rw [List.length_drop]; omega) (by rw [List.length_drop]; omega)
          refine ⟨ok, sock', _, heq, hstep.trans hrest, fun h => ?_,
            fun h => hok (hstep.reliable h)⟩
          rw [hall h]
          exact List.take_append_drop n buff

/-- What `peer_send_buff` does on a buffer whose length is an `unsigned`. -/
theorem peerSendBuff_spec (sock : Socket) {buff : Bytes} (hlen : buff.length < 2 ^ 32) :
    ∃ ok sock' sent, peerSendBuff sock buff = .ok (ok, sock') ∧ SendStep sock sock' sent ∧
      (ok = true → sent = buff) ∧ (sock.SendReliable → ok = true) :=
  sendLoop_spec hlen _ sock buff 0 (Nat.zero_add _) (Nat.lt_succ_self _)

end Daobell
