import Daobell.Peer.MessageStream

/-!
What the first bytes of a message decide. Only a CANCEL message with its length
stops the receiver at once, and only a PIECE message with its header reaches the
files; every other message is taken off the stream or refused.
-/

namespace Daobell

open Lib

/-- At the head of the stream is a PIECE message whose length is valid and whose
header is all there. -/
def PieceHeader (inp : Bytes) : Prop :=
  13 ≤ inp.length ∧ inp[4]? = some 7 ∧ 10 ≤ (wordAt inp).toNat ∧
    (wordAt inp).toNat ≤ 9 + peerRequestSize

instance : DecidablePred PieceHeader := fun _ => inferInstanceAs (Decidable (_ ∧ _))

/-- At the head of the stream is a CANCEL message whose length is valid. -/
def CancelHeader (inp : Bytes) : Prop :=
  5 ≤ inp.length ∧ inp[4]? = some 8 ∧ (wordAt inp).toNat = 1

instance : DecidablePred CancelHeader := fun _ => inferInstanceAs (Decidable (_ ∧ _))

theorem ofByte_eq_some {b : UInt8} {type : MsgType} (h : MsgType.ofByte b = some type) :
    b = type.toByte ∧ type ≠ .msgKeepalive := by
  have hlt : b.toNat < 10 := (List.getElem?_eq_some_iff.mp h).1
  have hb : UInt8.ofNat b.toNat = b := UInt8.ofNat_toNat
  rw [MsgType.ofByte] at h
  rw [← hb]
  generalize b.toNat = n at h hlt
  interval_cases n <;> (cases h; exact ⟨rfl, by decide⟩)

/-- The call comes back without a PIECE message, and leaves the files alone. -/
def LeavesFiles (r : Except Crash Received) (disk : Disk) : Prop :=
  ∃ msg sock, r = .ok (msg, sock, disk) ∧ ∀ m ∈ msg, m.type ≠ .msgPiece

theorem leavesFiles_none (sock : Socket) (disk : Disk) : LeavesFiles (.ok (none, sock, disk)) disk :=
  ⟨none, sock, rfl, nofun⟩

theorem leavesFiles_some (msg : PeerMsg) (h : msg.type ≠ .msgPiece) (sock : Socket) (disk : Disk) :
    LeavesFiles (.ok (some msg, sock, disk)) disk := by
  refine ⟨some msg, sock, rfl, ?_⟩
  rintro _ ⟨⟩
  exact h

theorem LeavesFiles.recvThen {sock : Socket} {disk : Disk} {len : ℕ}
    {next : Bytes → Socket → Except Crash Received}
    (h : ∀ bytes sock', LeavesFiles (next bytes sock') disk) :
    LeavesFiles (recvThen sock disk len next) disk := by
  rcases recvThen_cases sock disk len next with ⟨sock', heq⟩ | ⟨bytes, sock', -, -, heq⟩
  · rw [heq]
    exact leavesFiles_none _ _
  · rw [heq]
    exact h bytes sock'

theorem leavesFiles_field (sock : Socket) (disk : Disk) (n : ℕ) (f : Bytes → PeerMsg)
    (h : ∀ buff, (f buff).type ≠ .msgPiece) :
    LeavesFiles (recvThen sock disk n fun buff sock => .ok (some (f buff), sock, disk)) disk :=
  LeavesFiles.recvThen fun buff sock => leavesFiles_some (f buff) (h buff) sock disk

/-- The asserts on `left` say what `valid_len` has checked. -/
theorem leavesFiles_payload (torrent : TorrentInfo) (sock : Socket) (disk : Disk) {type : MsgType}
    (hpiece : type ≠ .msgPiece) (hcancel : type ≠ .msgCancel) :
    LeavesFiles (peerMsgRecvPayload sock torrent disk type (msgLength type torrent - 1)) disk := by
  cases type with
  | msgPiece => exact absurd rfl hpiece
  | msgCancel => exact absurd rfl hcancel
  | msgBitfield =>
      exact leavesFiles_field sock disk _ (fun buff => .bitfield ((List.range
        ((msgLength .msgBitfield torrent - 1) * 8 % 2 ^ 32)).map (bitfieldIsset · buff)))
        fun _ => nofun
  | msgRequest =>
      exact leavesFiles_field sock disk (msgLength .msgRequest torrent - 1) (fun buff =>
        .request ⟨wordAt buff, wordAt (buff.drop 4), wordAt (buff.drop 8)⟩) fun _ => nofun
  | msgHave =>
      exact leavesFiles_field sock disk (msgLength .msgHave torrent - 1)
        (fun buff => .haveMsg (wordAt buff)) fun _ => nofun
  | msgPort =>
      exact leavesFiles_field sock disk (msgLength .msgPort torrent - 1)
        (fun buff => .port (wordAt buff)) fun _ => nofun
  | msgKeepalive => exact leavesFiles_none _ _
  | msgChoke => exact leavesFiles_some .choke nofun sock disk
  | msgUnchoke => exact leavesFiles_some .unchoke nofun sock disk
  | msgInterested => exact leavesFiles_some .interested nofun sock disk
  | msgNotInterested => exact leavesFiles_some .notInterested nofun sock disk

/-- Where the receiver of a PIECE message is when it has read the header. -/
def AtBlock (r : Except Crash Received) (torrent : TorrentInfo) (disk : Disk) (inp : Bytes) : Prop :=
  PieceHeader inp ∧ ∃ sock', sock'.inp = inp.drop 13 ∧
    r = peerMsgRecvBlock sock' torrent disk (wordAt (inp.drop 5)) (wordAt (inp.drop 9))
      ((wordAt inp).toNat - 9)

/-- What is left of the length of a PIECE message behind its header. -/
theorem subUnsigned_header {len : ℕ} (h10 : 10 ≤ len) (h32 : len < 2 ^ 32) :
    subUnsigned (subUnsigned (len - 1) 4) 4 = len - 9 := by
  have hindex : subUnsigned (len - 1) 4 = len - 5 := by
    rw [subUnsigned_of_le (by omega) (by omega)]
    omega
  rw [hindex, subUnsigned_of_le (by omega) (by omega)]
  omega

theorem peerMsgRecvPiece_cases (torrent : TorrentInfo) (sock : Socket) (disk : Disk) (len : ℕ) :
    LeavesFiles (peerMsgRecvPiece sock torrent disk len) disk ∨
      8 ≤ sock.inp.length ∧ ∃ sock', sock'.inp = sock.inp.drop 8 ∧
        peerMsgRecvPiece sock torrent disk len = peerMsgRecvBlock sock' torrent disk
          (wordAt sock.inp) (wordAt (sock.inp.drop 4)) (subUnsigned (subUnsigned len 4) 4) := by
  rw [peerMsgRecvPiece]
  rcases recvThen_cases sock disk 4 _ with ⟨s₁, heq⟩ | ⟨b₀, s₁, hlen₀, hinp₀, heq⟩
  · exact .inl (heq ▸ leavesFiles_none _ _)
  rw [heq]
  rcases recvThen_cases s₁ disk 4 _ with ⟨s₂, heq⟩ | ⟨b₁, s₂, hlen₁, hinp₁, heq⟩
  · exact .inl (heq ▸ leavesFiles_none _ _)
  rw [heq]
  have hindex : wordAt sock.inp = wordAt b₀ := by
    rw [← wordAt_take sock.inp 4 le_rfl, hinp₀, List.take_left' hlen₀]
  have hbegin : wordAt (sock.inp.drop 4) = wordAt b₁ := by
    rw [hinp₀, List.drop_left' hlen₀, ← wordAt_take s₁.inp 4 le_rfl, hinp₁, List.take_left' hlen₁]
  refine .inr ⟨?_, s₂, ?_, by rw [hindex, hbegin]⟩
  · rw [hinp₀, hinp₁, List.length_append, List.length_append]
    omega
  · rw [hinp₀, hinp₁, ← List.append_assoc, List.drop_left' (by simp [hlen₀, hlen₁])]

/-- **What the receiver does.** It comes back without touching the files, or an
assert stops it at a CANCEL message, or it comes to the block of a PIECE
message. -/
theorem peerMsgRecv_cases (torrent : TorrentInfo) (sock : Socket) (disk : Disk) :
    LeavesFiles (peerMsgRecv sock torrent disk) disk ∨
      CancelHeader sock.inp ∧ peerMsgRecv sock torrent disk = .error .assertFailed ∨
      AtBlock (peerMsgRecv sock torrent disk) torrent disk sock.inp := by
  rw [peerMsgRecv]
  rcases recvThen_cases sock disk 4 _ with ⟨s₁, heq⟩ | ⟨b, s₁, hlen, hinp, heq⟩
  · exact .inl (heq ▸ leavesFiles_none _ _)
  have hword : wordAt sock.inp = wordAt b := by
    rw [← wordAt_take sock.inp 4 le_rfl, hinp, List.take_left' hlen]
  rw [heq, ← hword, peerMsgRecvPastlen]
  by_cases h0 : (wordAt sock.inp).toNat = 0
  · rw [if_pos h0]
    exact .inl (leavesFiles_some .keepalive (by decide) _ _)
  rw [if_neg h0]
  rcases recvThen_cases s₁ disk 1 _ with ⟨s₂, heq⟩ | ⟨b', s₂, hlen', hinp', heq⟩
  · exact .inl (heq ▸ leavesFiles_none _ _)
  obtain ⟨c, rfl⟩ := List.length_eq_one_iff.mp hlen'
  have hdrop : sock.inp.drop 4 = c :: s₂.inp := by
    rw [hinp, List.drop_left' hlen, hinp']
    rfl
  have hdrop₅ : sock.inp.drop 5 = s₂.inp := by
    rw [← List.drop_drop (i := 1) (j := 4), hdrop]
    rfl
  have h5 : sock.inp.length = s₂.inp.length + 5 := by
    have h := congrArg List.length hdrop
    rw [List.length_drop, List.length_cons] at h
    omega
  have hc : sock.inp[4]? = some c := by
    rw [← List.head?_drop, hdrop]
    rfl
  rw [heq, List.headD_cons, peerMsgRecvTyped]
  cases htype : MsgType.ofByte c with
  | none => exact .inl (leavesFiles_none _ _)
  | some type =>
      obtain ⟨hbyte, -⟩ := ofByte_eq_some htype
      by_cases hvalid : validLen type torrent (wordAt sock.inp).toNat = true
      swap
      · simp only [hvalid]
        exact .inl (leavesFiles_none _ _)
      simp only [hvalid, if_true]
      by_cases hpiece : type = .msgPiece
      · subst hpiece
        have hlen : 10 ≤ (wordAt sock.inp).toNat ∧ (wordAt sock.inp).toNat ≤ 9 + peerRequestSize := by
          simpa [validLen] using hvalid
        have hlen32 : (wordAt sock.inp).toNat < 2 ^ 32 := (wordAt sock.inp).toNat_lt
        rw [peerMsgRecvPayload, assertThen, if_pos (show 0 < (wordAt sock.inp).toNat - 1 by omega)]
        rcases peerMsgRecvPiece_cases torrent s₂ disk ((wordAt sock.inp).toNat - 1) with
          hleaves | ⟨h8, s₃, hinp₃, heq⟩
        · exact .inl hleaves
        · refine .inr (.inr ⟨⟨by omega, hc.trans (congrArg some hbyte), hlen⟩, s₃, ?_, ?_⟩)
          · rw [hinp₃, ← hdrop₅, List.drop_drop]
          · rw [heq, subUnsigned_header hlen.1 hlen32, ← hdrop₅, List.drop_drop]
      · have hmsgLength : (wordAt sock.inp).toNat = msgLength type torrent := by
          simpa [validLen, hpiece] using hvalid
        by_cases hcancel : type = .msgCancel
        · subst hcancel
          exact .inr (.inl ⟨⟨by omega, hc.trans (congrArg some hbyte), hmsgLength⟩, rfl⟩)
        · rw [hmsgLength]
          exact .inl (leavesFiles_payload torrent s₂ disk hpiece hcancel)

/-- A stream on which no call fails, with the header of a message on it, brings
the receiver behind the type of the message. -/
theorem peerMsgRecv_of_header (torrent : TorrentInfo) (disk : Disk) {sock : Socket}
    (hrel : sock.RecvReliable) {b : UInt8} (h5 : 5 ≤ sock.inp.length) (hb : sock.inp[4]? = some b)
    (hlen : (wordAt sock.inp).toNat ≠ 0) :
    ∃ sock', sock'.RecvReliable ∧ sock'.inp = sock.inp.drop 5 ∧ peerMsgRecv sock torrent disk =
      peerMsgRecvTyped sock' torrent disk (wordAt sock.inp).toNat b := by
  obtain ⟨s₁, hrel₁, hinp₁, heq₁⟩ := recvThen_reliable hrel disk (by decide) (by decide)
    (show 4 ≤ sock.inp.length by omega) fun b s => peerMsgRecvPastlen s torrent disk (wordAt b).toNat
  have h1 : 1 ≤ s₁.inp.length := by
    rw [hinp₁, List.length_drop]
    omega
  obtain ⟨s₂, hrel₂, hinp₂, heq₂⟩ := recvThen_reliable hrel₁ disk (by decide) (by decide) h1
    fun b s => peerMsgRecvTyped s torrent disk (wordAt sock.inp).toNat (b.headD 0)
  have hhead : (s₁.inp.take 1).headD 0 = b := by
    rw [List.headD_eq_head?_getD, List.head?_take, hinp₁]
    simp [hb]
  refine ⟨s₂, hrel₂, by rw [hinp₂, hinp₁, List.drop_drop], ?_⟩
  rw [peerMsgRecv, heq₁, wordAt_take _ 4 le_rfl, peerMsgRecvPastlen, if_neg hlen, heq₂, hhead]

theorem peerMsgRecv_of_pieceHeader (torrent : TorrentInfo) (disk : Disk) {sock : Socket}
    (hrel : sock.RecvReliable) (h : PieceHeader sock.inp) :
    ∃ sock', sock'.RecvReliable ∧ sock'.inp = sock.inp.drop 13 ∧ peerMsgRecv sock torrent disk =
      peerMsgRecvBlock sock' torrent disk (wordAt (sock.inp.drop 5)) (wordAt (sock.inp.drop 9))
        ((wordAt sock.inp).toNat - 9) := by
  obtain ⟨h13, h7, hlo, hhi⟩ := h
  have hlen32 : (wordAt sock.inp).toNat < 2 ^ 32 := (wordAt sock.inp).toNat_lt
  obtain ⟨s₂, hrel₂, hinp₂, heq₂⟩ := peerMsgRecv_of_header torrent disk hrel
    (show 5 ≤ sock.inp.length by omega) h7 (by omega)
  obtain ⟨s₃, hrel₃, hinp₃, heq₃⟩ := recvThen_reliable hrel₂ disk (by decide) (by decide)
    (show 4 ≤ s₂.inp.length by rw [hinp₂, List.length_drop]; omega) fun b₀ s =>
      recvThen s disk 4 fun b₁ s => peerMsgRecvBlock s torrent disk (wordAt b₀) (wordAt b₁)
        (subUnsigned (subUnsigned ((wordAt sock.inp).toNat - 1) 4) 4)
  obtain ⟨s₄, hrel₄, hinp₄, heq₄⟩ := recvThen_reliable hrel₃ disk (by decide) (by decide)
    (show 4 ≤ s₃.inp.length by rw [hinp₃, hinp₂, List.length_drop, List.length_drop]; omega)
    fun b₁ s => peerMsgRecvBlock s torrent disk (wordAt (s₂.inp.take 4)) (wordAt b₁)
      (subUnsigned (subUnsigned ((wordAt sock.inp).toNat - 1) 4) 4)
  have hvalid : validLen .msgPiece torrent (wordAt sock.inp).toNat = true := by
    simpa [validLen] using And.intro hlo hhi
  have htype : MsgType.ofByte 7 = some .msgPiece := rfl
  have hleft : 0 < (wordAt sock.inp).toNat - 1 := by omega
  refine ⟨s₄, hrel₄, by rw [hinp₄, hinp₃, hinp₂, List.drop_drop, List.drop_drop], ?_⟩
  rw [heq₂, peerMsgRecvTyped]
  simp only [htype, hvalid, if_true, peerMsgRecvPayload, assertThen, hleft]
  rw [peerMsgRecvPiece, heq₃, heq₄, subUnsigned_header hlo hlen32, wordAt_take _ 4 le_rfl,
    wordAt_take _ 4 le_rfl, hinp₃, hinp₂, List.drop_drop]

end Daobell
