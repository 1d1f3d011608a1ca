import Daobell.Peer.Accounting

/-!
Indices from the wire. The bit sets of a connection and the states of the pieces
have an entry for each piece, and so has a bit field that is received, as its
length was checked. The index of a HAVE message is used as it came.
-/

namespace Daobell

open Lib

/-! ### What the receiver hands on -/

/-- The messages that a call may return are among those that `P` holds of. -/
def HandsOn (P : PeerMsg → Prop) (r : Except Crash Received) : Prop :=
  ∀ msg sock disk, r = .ok (some msg, sock, disk) → P msg

theorem handsOn_none (P : PeerMsg → Prop) (sock : Socket) (disk : Disk) :
    HandsOn P (.ok (none, sock, disk)) := by
  intro msg sock' disk' h
  cases h

theorem handsOn_some {P : PeerMsg → Prop} {msg : PeerMsg} (h : P msg) (sock : Socket)
    (disk : Disk) : HandsOn P (.ok (some msg, sock, disk)) := by
  intro msg' sock' disk' heq
  cases heq
  exact h

theorem handsOn_error (P : PeerMsg → Prop) (crash : Crash) : HandsOn P (.error crash) := by
  intro msg sock disk h
  cases h

theorem HandsOn.recvThen {P : PeerMsg → Prop} {sock : Socket} {disk : Disk} {len : ℕ}
    {next : Bytes → Socket → Except Crash Received}
    (h : ∀ bytes sock', HandsOn P (next bytes sock')) : HandsOn P (recvThen sock disk len next) := by
  rcases recvThen_cases sock disk len next with ⟨sock', heq⟩ | ⟨bytes, sock', -, -, heq⟩
  · exact heq ▸ handsOn_none P sock' disk
  · exact heq ▸ h bytes sock'

theorem HandsOn.assertThen {P : PeerMsg → Prop} {p : Prop} [Decidable p]
    {next : Except Crash Received} (h : HandsOn P next) : HandsOn P (assertThen p next) := by
  rw [Daobell.assertThen]
  split
  · exact h
  · exact handsOn_error P _

def PeerMsg.Checked (n : ℕ) (msg : PeerMsg) : Prop := msg.type ≠ .msgHave → msg.InRange n

theorem peerMsgRecvPiece_handsOn (torrent : TorrentInfo) (disk : Disk) (sock : Socket) (len n : ℕ) :
    HandsOn (PeerMsg.Checked n) (peerMsgRecvPiece sock torrent disk len) := by
  rw [peerMsgRecvPiece]
  refine HandsOn.recvThen fun b₀ s => HandsOn.recvThen fun b₁ s' => ?_
  rw [peerMsgRecvBlock]
  split
  · exact handsOn_error _ _
  · exact handsOn_some (fun _ => trivial) _ _

theorem peerMsgRecvPayload_handsOn (torrent : TorrentInfo) (disk : Disk) (sock : Socket)
    (type : MsgType) {len : ℕ} (hvalid : validLen type torrent len = true) :
    HandsOn (PeerMsg.Checked torrent.pieces.length)
      (peerMsgRecvPayload sock torrent disk type (len - 1)) := by
  cases type with
  | msgKeepalive => exact handsOn_none _ _ _
  | msgCancel => exact handsOn_error _ _
  | msgPiece => exact (peerMsgRecvPiece_handsOn torrent disk sock _ _).assertThen
  | msgHave =>
      exact (HandsOn.recvThen fun b s => handsOn_some (fun hne => absurd rfl hne) s disk).assertThen
  | msgRequest =>
      exact HandsOn.recvThen fun b s => (handsOn_some (fun _ => trivial) s disk).assertThen
  | msgPort =>
      exact (HandsOn.recvThen fun b s => handsOn_some (fun _ => trivial) s disk).assertThen
  | msgBitfield =>
      refine HandsOn.recvThen fun b s => handsOn_some (fun _ => ?_) s disk
      -- the length was checked against the number of pieces
      have hlen : len = 1 + bitfieldNumBytes torrent.pieces.length := by
        rw [← msgLength_bitfield]
        simpa [validLen] using hvalid
      have hle := torrent.pieces_le
      have hnum := bitfieldNumBytes_eq torrent.pieces.length
      rw [PeerMsg.InRange, List.length_map, List.length_range, hlen, Nat.add_sub_cancel_left, hnum,
        Nat.mod_eq_of_lt (by omega)]
      omega
  | _ => exact (handsOn_some (fun _ => trivial) sock disk).assertThen

/-- **What is accepted is in range**, but for the index of a HAVE message. -/
theorem peerMsgRecv_handsOn (torrent : TorrentInfo) (disk : Disk) (sock : Socket) :
    HandsOn (PeerMsg.Checked torrent.pieces.length) (peerMsgRecv sock torrent disk) := by
  rw [peerMsgRecv]
  refine HandsOn.recvThen fun b s => ?_
  rw [peerMsgRecvPastlen]
  split
  · exact handsOn_some (fun _ => trivial) s disk
  · refine HandsOn.recvThen fun b' s' => ?_
    rw [peerMsgRecvTyped]
    split
    · exact handsOn_none _ _ _
    · rename_i type _
      split
      · rename_i hvalid
        exact peerMsgRecvPayload_handsOn torrent disk s' type hvalid
      · exact handsOn_none _ _ _

/-! ### What processing does with it -/

/-- `process_msg` stays inside `local_have`, `peer_have`, the bit field it is given
and `pieces_state`. -/
def IndexesInRange (s : Session) (msg : PeerMsg) : Prop :=
  processMsg Session.sha1Verify s msg ≠ .error .outOfRange

theorem indexesInRange_of_inRange {s : Session} (h : s.Accounted) {msg : PeerMsg}
    (hrange : msg.InRange s.torrent.pieces.length) : IndexesInRange s msg := by
  intro herror
  rcases processMsg_spec Session.sha1Verify h msg with
    ⟨s', heq, -⟩ | ⟨crash, heq, ⟨index, -, hverify⟩ | ⟨-, hnot⟩⟩
  · cases heq.symm.trans herror
  · cases heq.symm.trans herror
    -- the check of a piece is stopped by an assert or by memory that is unmapped
    rw [Session.sha1Verify, torrentSha1Verify] at hverify
    split at hverify
    · cases hverify
    · dsimp only at hverify
      split at hverify <;> cases hverify
  · exact hnot hrange

theorem not_indexesInRange {s : Session} (h : s.Accounted) {index : UInt32}
    (hindex : s.torrent.pieces.length ≤ index.toNat) : ¬ IndexesInRange s (.haveMsg index) := by
  intro hrange
  apply hrange
  rw [processMsg, processHave]
  by_cases hinterested : s.state.localState.interested = true
  · have hpeer : ¬ index.toNat < s.state.peerHave.length := by
      rw [h.peerHave]
      exact Nat.not_lt.mpr hindex
    rw [if_pos hinterested, ok_bind, if_neg hpeer]
  · have hlocal : s.state.localHave[index.toNat]? = none := by
      rw [List.getElem?_eq_none_iff, h.localHave]
      exact hindex
    rw [if_neg hinterested, hlocal]
    rfl

theorem accounted_of_run {c c' : Client} (h : c.Accounted)
    {acts : List (Act (PeerMsg × (Session → UInt32 → Bool)))}
    (hrun : run (clientStep processAnswered) c acts = .ok c') : c'.Accounted := by
  refine run_invariant_of_step _ (fun c₁ a c₂ h₁ hstep => ?_) h hrun
  rcases clientStep_answered h₁ a with ⟨c₃, heq, hgoes⟩ | ⟨_, heq, -⟩
  · cases heq.symm.trans hstep
    exact hgoes.accounted
  · cases heq.symm.trans hstep

/-- **Indices stay in range**, in every state that processing messages leads to and
for every message that is accepted, if and only if the message is not a HAVE
message for a piece that there is not. -/
theorem processMsg_indexesInRange_iff {env : Environment} {metainfo : BencodeValue}
    {destdir : Bytes} {torrent : TorrentInfo}
    (hinit : torrentInit env metainfo destdir = .ok torrent) (disk : Disk)
    (acts : List (Act (PeerMsg × (Session → UInt32 → Bool)))) (s : Session)
    (hrun : run (clientStep processAnswered) (.idle torrent disk []) acts = .ok (.connected s))
    (sock : Socket) (msg : PeerMsg) (sock' : Socket) (disk' : Disk)
    (hrecv : peerMsgRecv sock s.torrent s.disk = .ok (some msg, sock', disk')) :
    IndexesInRange { s with sock := sock', disk := disk' } msg ↔
      ∀ index, msg = .haveMsg index → index.toNat < s.torrent.pieces.length := by
  have hstart : Client.Accounted (.idle torrent disk []) := accounted_torrentInit hinit
  have hs : s.Accounted := accounted_of_run hstart hrun
  have ht := hs.received sock' disk'
  have hchecked := peerMsgRecv_handsOn s.torrent s.disk sock msg sock' disk' hrecv
  constructor
  · rintro hin index rfl
    by_contra hge
    exact not_indexesInRange ht (Nat.not_lt.mp hge) hin
  · intro hhave
    refine indexesInRange_of_inRange ht ?_
    cases msg with
    | haveMsg index => exact hhave index rfl
    | bitfield bits => exact hchecked (by simp [PeerMsg.type])
    | _ => trivial

/-- A new connection, for two pieces, on which a HAVE message comes. -/
theorem exists_connected (index : UInt32) : ∃ (s : Session) (sock sock' : Socket) (disk' : Disk),
    run (clientStep processAnswered) (.idle twoPieces blankDisk []) [.connect ⟨[], [], [], []⟩] =
        .ok (.connected s) ∧ s.torrent.pieces.length = 2 ∧
      peerMsgRecv sock s.torrent s.disk = .ok (some (.haveMsg index), sock', disk') := by
  have hconnects : ∃ c, run (clientStep processAnswered) (.idle twoPieces blankDisk [])
      [.connect ⟨[], [], [], []⟩] = .ok c ∧ ∃ s ∈ c.session?, s.torrent.pieces.length = 2 := by
    decide +kernel
  obtain ⟨c, hrun, s, hs, hlength⟩ := hconnects
  have hstreamed : (PeerMsg.haveMsg index).Streamed s.torrent := trivial
  obtain ⟨msg, sock', hrecv, hmsg, -⟩ := peerMsgRecv_receives (by omega) s.disk hstreamed
    ⟨(PeerMsg.haveMsg index).wire s.torrent ++ [], [], [], []⟩ [] (by simp [Socket.RecvReliable]) rfl
  cases hmsg
  exact ⟨s, _, sock', s.disk, hrun.trans (congrArg _ (Client.mem_session?.mp hs)), hlength, hrecv⟩

theorem processMsg_indexesInRange_iff_twoPieces : ∃ (s : Session) (sock' : Socket) (disk' : Disk),
    s.torrent.pieces.length = 2 ∧
      (IndexesInRange { s with sock := sock', disk := disk' } (.haveMsg 1) ↔
        ∀ index, PeerMsg.haveMsg 1 = .haveMsg index → index.toNat < s.torrent.pieces.length) := by
  obtain ⟨s, sock, sock', disk', hrun, hlength, hrecv⟩ := exists_connected 1
  exact ⟨s, sock', disk', hlength, processMsg_indexesInRange_iff torrentInit_twoPieces blankDisk _ s
    hrun sock _ sock' disk' hrecv⟩

/-- The third of two pieces. -/
theorem have_outOfRange : ∃ (s : Session) (sock sock' : Socket) (disk' : Disk),
    run (clientStep processAnswered) (.idle twoPieces blankDisk []) [.connect ⟨[], [], [], []⟩] =
        .ok (.connected s) ∧
      peerMsgRecv sock s.torrent s.disk = .ok (some (.haveMsg 2), sock', disk') ∧
      ¬ IndexesInRange { s with sock := sock', disk := disk' } (.haveMsg 2) := by
  obtain ⟨s, sock, sock', disk', hrun, hlength, hrecv⟩ := exists_connected 2
  have hstart : Client.Accounted (.idle twoPieces blankDisk []) :=
    accounted_torrentInit torrentInit_twoPieces
  have hs : s.Accounted := accounted_of_run hstart hrun
  have hlast : s.torrent.pieces.length ≤ (2 : UInt32).toNat := by
    rw [hlength]
    decide
  exact ⟨s, sock, sock', disk', hrun, hrecv, not_indexesInRange (hs.received sock' disk') hlast⟩

end Daobell
