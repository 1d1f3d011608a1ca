import Daobell.Peer.MessageStream

/-!
The calls of `send` and `recv` may move the bytes of a stream in any pieces. The
loops hide this as long as their 32-bit count holds the number of bytes asked
for, and so the receiver of a message, which asks for no more, sees nothing of
it.
-/

namespace Daobell

open Lib

/-! ### Sending -/

/-- However `send` cuts it, the buffer goes out as it is. -/
def Transmits (buff : Bytes) : Prop :=
  ∀ sock : Socket, sock.SendReliable →
    ∃ sock', peerSendBuff sock buff = .ok (true, sock') ∧ sock'.out = sock.out ++ buff

/-- A count of 32 bits never reaches `len`, and wraps before the buffer is sent. -/
theorem sendLoop_outOfRange {len : ℕ} (hlen : 2 ^ 32 ≤ len) (fuel : ℕ) {sock : Socket} {buff : Bytes}
    (h : sock.SendReliable) {total : ℕ} (htotal : total < 2 ^ 32)
    (hbuff : buff.length ≤ len - total) (hfuel : buff.length < fuel) :
    sendLoop len fuel sock buff total = .error .outOfRange := by
  induction fuel generalizing sock buff total with
  | zero => omega
  | succ fuel ih =>
      rw [sendLoop, if_pos (by omega)]
      by_cases hshort : buff.length < len - total
      · rw [if_pos hshort]
      · have hne : buff ≠ [] := by
          rw [List.ne_nil_iff_length_pos]
          omega
        rw [if_neg hshort, List.take_of_length_le hbuff]
        obtain ⟨-, -, -, hfail⟩ | ⟨sent, sock₁, hsend, hstep, hpos, hle⟩ := send_cases sock hne
        · exact absurd h hfail
        rw [hsend]
        have hmod : (total + sent) % 2 ^ 32 ≤ total + sent := Nat.mod_le _ _
        refine ih (hstep.reliable h) (Nat.mod_lt _ (by decide)) ?_ ?_
        · rw [List.length_drop]
          omega
        · rw [List.length_drop]
          omega

theorem peerSendBuff_outOfRange {sock : Socket} (h : sock.SendReliable) {buff : Bytes}
    (hlen : 2 ^ 32 ≤ buff.length) : peerSendBuff sock buff = .error .outOfRange :=
  sendLoop_outOfRange hlen _ h (by decide) (by omega) (Nat.lt_succ_self _)

theorem transmits_of_lt {buff : Bytes} (h : buff.length < 2 ^ 32) : Transmits buff := by
  intro sock hrel
  obtain ⟨ok, sock', sent, heq, hstep, hall, hok⟩ := peerSendBuff_spec sock h
  have htrue : ok = true := hok hrel
  subst htrue
  refine ⟨sock', heq, ?_⟩
  rw [hstep.out, hall rfl]

theorem transmits_iff (buff : Bytes) : Transmits buff ↔ buff.length < 2 ^ 32 := by
  constructor
  · intro h
    by_contra hlen
    have hrel : (⟨[], [], [], []⟩ : Socket).SendReliable := by simp [Socket.SendReliable]
    obtain ⟨sock', heq, -⟩ := h _ hrel
    rw [peerSendBuff_outOfRange hrel (Nat.le_of_not_lt hlen)] at heq
    cases heq
  · exact transmits_of_lt

/-! ### Receiving -/

/-- However `recv` cuts the stream `inp`, asking for `len` bytes succeeds exactly
when there are as many, and takes these. -/
def Delivers (inp : Bytes) (len : ℕ) : Prop :=
  ∀ sock : Socket, sock.RecvReliable → sock.inp = inp →
    ((peerRecvBuff sock len).1 = true ↔ len ≤ inp.length) ∧
      ((peerRecvBuff sock len).1 = true →
        (peerRecvBuff sock len).2.1 = inp.take len ∧ (peerRecvBuff sock len).2.2.inp = inp.drop len)

theorem delivers_of_lt (inp : Bytes) {len : ℕ} (hlen : 0 < len) (hlen32 : len < 2 ^ 32) :
    Delivers inp len := by
  rintro sock hrel rfl
  obtain ⟨hok, hbytes, hrest⟩ := peerRecvBuff_reliable hrel hlen hlen32
  exact ⟨by rw [hok, decide_eq_true_iff], fun _ => ⟨hbytes, hrest⟩⟩

theorem delivers_of_short {inp : Bytes} {len : ℕ} (h : inp.length < len) : Delivers inp len := by
  rintro sock - rfl
  obtain ⟨hstep, hlen⟩ := peerRecvBuff_spec sock len
  have hfalse : (peerRecvBuff sock len).1 ≠ true := by
    intro hok
    have hinp := congrArg List.length hstep.inp
    rw [List.length_append, (hlen hok).2] at hinp
    omega
  exact ⟨iff_of_false hfalse (by omega), fun hok => absurd hok hfalse⟩

theorem delivers_iff (inp : Bytes) {len : ℕ} (hlen : 0 < len) :
    Delivers inp len ↔ len < 2 ^ 32 ∨ inp.length < len := by
  constructor
  · intro h
    have hrel : (⟨inp, [], [], []⟩ : Socket).RecvReliable := by simp [Socket.RecvReliable]
    by_cases hle : len ≤ inp.length
    · exact .inl ((peerRecvBuff_spec _ len).2 ((h _ hrel rfl).1.mpr hle)).1
    · exact .inr (by omega)
  · rintro (h | h)
    · exact delivers_of_lt inp hlen h
    · exact delivers_of_short h

/-! ### Messages -/

/-- Two sockets that hold the same stream, cut in different ways. -/
structure SameStream (sock sock' : Socket) : Prop where
  inp : sock.inp = sock'.inp
  left : sock.RecvReliable
  right : sock'.RecvReliable

inductive SameEnd : Except Crash Received → Except Crash Received → Prop
  | ok {sock sock' : Socket} (msg : Option PeerMsg) (disk : Disk) (h : SameStream sock sock') :
      SameEnd (.ok (msg, sock, disk)) (.ok (msg, sock', disk))
  | error (crash : Crash) : SameEnd (.error crash) (.error crash)

def Oblivious (call : Socket → Except Crash Received) : Prop :=
  ∀ sock sock', SameStream sock sock' → SameEnd (call sock) (call sock')

theorem peerRecvBuff_sameStream {sock sock' : Socket} (h : SameStream sock sock') {len : ℕ}
    (hlen32 : len < 2 ^ 32) :
    (peerRecvBuff sock len).1 = (peerRecvBuff sock' len).1 ∧
      (peerRecvBuff sock len).2.1 = (peerRecvBuff sock' len).2.1 ∧
      SameStream (peerRecvBuff sock len).2.2 (peerRecvBuff sock' len).2.2 := by
  rcases Nat.eq_zero_or_pos len with rfl | hlen
  · exact ⟨rfl, rfl, h⟩
  obtain ⟨hok, hbytes, hrest⟩ := peerRecvBuff_reliable h.left hlen hlen32
  obtain ⟨hok', hbytes', hrest'⟩ := peerRecvBuff_reliable h.right hlen hlen32
  refine ⟨?_, ?_, ?_, (peerRecvBuff_spec sock len).1.reliable h.left,
    (peerRecvBuff_spec sock' len).1.reliable h.right⟩
  · rw [hok, hok', h.inp]
  · rw [hbytes, hbytes', h.inp]
  · rw [hrest, hrest', h.inp]

theorem oblivious_ok (msg : Option PeerMsg) (disk : Disk) :
    Oblivious fun sock => .ok (msg, sock, disk) :=
  fun _ _ h => .ok msg disk h

theorem oblivious_error (crash : Crash) : Oblivious fun _ => .error crash :=
  fun _ _ _ => .error crash

theorem Oblivious.recvThen {len : ℕ} (hlen32 : len < 2 ^ 32) {disk : Disk}
    {next : Bytes → Socket → Except Crash Received} (h : ∀ bytes, Oblivious (next bytes)) :
    Oblivious fun sock => recvThen sock disk len next := by
  intro sock sock' hsame
  obtain ⟨hok, hbytes, hrest⟩ := peerRecvBuff_sameStream hsame hlen32
  simp only [Daobell.recvThen, hok, hbytes]
  split
  · exact h _ _ _ hrest
  · exact .ok none disk hrest

theorem recvMems_sameStream (torrent : TorrentInfo) {mems : List FileMem} {sock sock' : Socket}
    (h : SameStream sock sock') (hsize : ∀ mem ∈ mems, mem.size < 2 ^ 32) (disk : Disk) :
    (recvMems torrent mems sock disk).2 = (recvMems torrent mems sock' disk).2 ∧
      SameStream (recvMems torrent mems sock disk).1 (recvMems torrent mems sock' disk).1 := by
  induction mems generalizing sock sock' disk with
  | nil => exact ⟨rfl, h⟩
  | cons mem mems ih =>
      have hrest : ∀ mem ∈ mems, mem.size < 2 ^ 32 := fun _ hmem =>
        hsize _ (List.mem_cons_of_mem _ hmem)
      simp only [recvMems]
      split
      · obtain ⟨-, hbytes, hsame⟩ := peerRecvBuff_sameStream h (hsize mem List.mem_cons_self)
        rw [hbytes]
        exact ih hsame hrest _
      · exact ih h hrest disk

/-- The block of a PIECE message, which may lie in several files. -/
theorem oblivious_block (torrent : TorrentInfo) (disk : Disk) (index begin : UInt32) (left : ℕ) :
    Oblivious fun sock => peerMsgRecvBlock sock torrent disk index begin left := by
  intro sock sock' h
  simp only [peerMsgRecvBlock]
  cases hblock : pieceRequestBlockAt (pieceRequestCreate torrent.layout index) begin.toNat with
  | none => exact .error _
  | some block =>
      have hsize : ∀ mem ∈ block.fileMems, mem.size < 2 ^ 32 := fun _ hmem =>
        mem_size_lt torrent.layout (List.mem_of_find?_eq_some hblock) hmem
      obtain ⟨hdisk, hsame⟩ := recvMems_sameStream torrent h hsize disk
      simp only [hdisk]
      exact .ok _ _ hsame

theorem oblivious_peerMsgRecv (torrent : TorrentInfo) (disk : Disk) :
    Oblivious fun sock => peerMsgRecv sock torrent disk :=
  peerMsgRecv_closed torrent disk (oblivious_ok · disk) (oblivious_error _)
    (fun hlen32 h => Oblivious.recvThen hlen32 h) (oblivious_block torrent disk)

/-- What a call that receives leaves behind: the message or -1, the files, and
what is left of the stream. -/
def outcome (r : Except Crash Received) : Except Crash (Option PeerMsg × Disk × Bytes) :=
  r.map fun (msg, sock, disk) => (msg, disk, sock.inp)

theorem SameEnd.outcome_eq {r r' : Except Crash Received} (h : SameEnd r r') :
    outcome r = outcome r' := by
  cases h with
  | ok msg disk h =>
      simp only [outcome, Except.map, h.inp]
  | error crash => rfl

/-- **Segmentation.** The sender puts a buffer on the stream as it is, the
receiver takes as many bytes as it is asked for, as long as a count of 32 bits
holds their number; what becomes of a message never depends on how its stream
is cut. -/
theorem segmentation_iff (torrent : TorrentInfo) (disk : Disk) (buff inp : Bytes) {len : ℕ}
    (hlen : 0 < len) :
    (Transmits buff ↔ buff.length < 2 ^ 32) ∧
      (Delivers inp len ↔ len < 2 ^ 32 ∨ inp.length < len) ∧
      ∀ sock sock' : Socket, sock.RecvReliable → sock'.RecvReliable → sock.inp = inp →
        sock'.inp = inp → outcome (peerMsgRecv sock torrent disk) =
          outcome (peerMsgRecv sock' torrent disk) := by
  refine ⟨transmits_iff buff, delivers_iff inp hlen, ?_⟩
  intro sock sock' hrel hrel' hinp hinp'
  exact (oblivious_peerMsgRecv torrent disk sock sock' ⟨hinp.trans hinp'.symm, hrel, hrel'⟩).outcome_eq

theorem segmentation_iff_word :
    (Transmits (wordBytes 1) ↔ (wordBytes 1).length < 2 ^ 32) ∧
      (Delivers (wordBytes 1) 4 ↔ 4 < 2 ^ 32 ∨ (wordBytes 1).length < 4) ∧
      ∀ sock sock' : Socket, sock.RecvReliable → sock'.RecvReliable → sock.inp = wordBytes 1 →
        sock'.inp = wordBytes 1 → outcome (peerMsgRecv sock twoPieces blankDisk) =
          outcome (peerMsgRecv sock' twoPieces blankDisk) :=
  segmentation_iff twoPieces blankDisk (wordBytes 1) (wordBytes 1) (by decide)

/-- With 4 GiB to send and 4 GiB to receive, the counts come back to 0. -/
theorem segmentation_fails :
    ¬ Transmits (List.replicate (2 ^ 32) 0) ∧ ¬ Delivers (List.replicate (2 ^ 32) 0) (2 ^ 32) := by
  constructor
  · rw [transmits_iff, List.length_replicate]
    exact lt_irrefl _
  · rw [delivers_iff _ (Nat.two_pow_pos 32), List.length_replicate]
    exact fun h => h.elim (lt_irrefl _) (lt_irrefl _)

end Daobell
