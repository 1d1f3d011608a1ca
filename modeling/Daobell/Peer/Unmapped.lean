import Daobell.Peer.Asserts
import Daobell.Peer.Log

/-!
Who touches the memory of the files. The receiver hands it to `recv`, a ranges at
a time, the check of a piece reads it, and a PIECE message is sent out of it.
Once the download is complete the files are unmapped, the threads go on with the
messages that have come, and nobody looks whether a block that such a message
names is still wanted.
-/

namespace Daobell

open Lib

/-! ### What the receiver touches -/

/-- Go on with `len` bytes from the stream, as `recvThen` does. -/
def touchThen (sock : Socket) (len : ℕ) (next : Bytes → Socket → List FileMem) : List FileMem :=
  let (ok, bytes, sock) := peerRecvBuff sock len
  if ok then next bytes sock else []

def blockMems (torrent : Layout) (index begin : UInt32) : List FileMem :=
  match pieceRequestBlockAt (pieceRequestCreate torrent index) begin.toNat with
  | none => []
  | some block => block.fileMems

/-- The ranges that `peer_msg_recv` hands to `recv`: those of the block of a PIECE
message, once its header has been received. -/
def recvTouches (sock : Socket) (torrent : TorrentInfo) : List FileMem :=
  touchThen sock 4 fun b sock =>
  if (wordAt b).toNat = 0 then []
  else touchThen sock 1 fun b' sock =>
    if MsgType.ofByte (b'.headD 0) = some .msgPiece ∧
        validLen .msgPiece torrent (wordAt b).toNat = true then
      touchThen sock 4 fun b₀ sock => touchThen sock 4 fun b₁ _ =>
      blockMems torrent.layout (wordAt b₀) (wordAt b₁)
    else []

/-- A call goes with the ranges it touches: it touches none and leaves the files
alone, or it ends with the loop over the ranges of a block. -/
inductive Follows (torrent : TorrentInfo) (disk : Disk) : Except Crash Received → List FileMem → Prop
  | untouched {r : Except Crash Received} (h : ∀ msg sock disk', r = .ok (msg, sock, disk') →
      disk' = disk) : Follows torrent disk r []
  | block {index : UInt32} {block : BlockRequest}
      (hblock : block ∈ (pieceRequestCreate torrent.layout index).blockRequests)
      (sock : Socket) (msg : PieceMsg) : Follows torrent disk
        (.ok (some (.piece msg), recvMems torrent block.fileMems sock disk)) block.fileMems

section

variable {torrent : TorrentInfo} {disk : Disk}

theorem follows_ok (msg : Option PeerMsg) (sock : Socket) :
    Follows torrent disk (.ok (msg, sock, disk)) [] := by
  refine .untouched ?_
  rintro _ _ _ ⟨⟩
  rfl

theorem follows_error (crash : Crash) : Follows torrent disk (.error crash) [] := by
  refine .untouched ?_
  rintro _ _ _ ⟨⟩

theorem follows_of_leavesFiles {r : Except Crash Received} (h : LeavesFiles r disk) :
    Follows torrent disk r [] := by
  obtain ⟨msg, sock, rfl, -⟩ := h
  exact follows_ok msg sock

theorem Follows.recvThen {sock : Socket} {len : ℕ} {next : Bytes → Socket → Except Crash Received}
    {touches : Bytes → Socket → List FileMem}
    (h : ∀ bytes sock, Follows torrent disk (next bytes sock) (touches bytes sock)) :
    Follows torrent disk (recvThen sock disk len next) (touchThen sock len touches) := by
  simp only [Daobell.recvThen, touchThen]
  split
  · exact h _ _
  · exact follows_ok none _

theorem follows_block (sock : Socket) (index begin : UInt32) (left : ℕ) :
    Follows torrent disk (peerMsgRecvBlock sock torrent disk index begin left)
      (blockMems torrent.layout index begin) := by
  rw [peerMsgRecvBlock, blockMems]
  cases hblock : pieceRequestBlockAt (pieceRequestCreate torrent.layout index) begin.toNat with
  | none => exact follows_error _
  | some block => exact .block (List.mem_of_find?_eq_some hblock) sock _

/-- A message that is not a PIECE, with a length that is valid. -/
theorem follows_payload (sock : Socket) {type : MsgType} (hpiece : type ≠ .msgPiece) {len : ℕ}
    (hvalid : validLen type torrent len = true) :
    Follows torrent disk (peerMsgRecvPayload sock torrent disk type (len - 1)) [] := by
  have hlen : len = msgLength type torrent := by simpa [validLen, hpiece] using hvalid
  by_cases hcancel : type = .msgCancel
  · subst hcancel
    exact follows_error _
  · rw [hlen]
    exact follows_of_leavesFiles (leavesFiles_payload torrent sock disk hpiece hcancel)

/-- **What the receiver touches** is the block of a PIECE message, or nothing. -/
theorem follows_peerMsgRecv (torrent : TorrentInfo) (sock : Socket) (disk : Disk) :
    Follows torrent disk (peerMsgRecv sock torrent disk) (recvTouches sock torrent) := by
  apply Follows.recvThen
  intro b sock
  rw [peerMsgRecvPastlen]
  split
  · exact follows_ok _ sock
  apply Follows.recvThen
  intro b' sock
  rw [peerMsgRecvTyped]
  cases htype : MsgType.ofByte (b'.headD 0) with
  | none =>
      rw [if_neg (by simp)]
      exact follows_ok none sock
  | some type =>
      by_cases hvalid : validLen type torrent (wordAt b).toNat = true
      swap
      · rw [if_neg (by rintro ⟨⟨⟩, h⟩; exact hvalid h)]
        simp only [hvalid]
        exact follows_ok none sock
      simp only [hvalid, if_true]
      by_cases hpiece : type = .msgPiece
      · subst hpiece
        rw [if_pos ⟨rfl, hvalid⟩, peerMsgRecvPayload, assertThen]
        have hpos : 0 < (wordAt b).toNat - 1 := by
          simp only [validLen, if_true, decide_eq_true_eq] at hvalid
          omega
        rw [if_pos hpos]
        exact .recvThen fun b₀ sock => .recvThen fun b₁ sock => follows_block sock _ _ _
      · rw [if_neg (by rintro ⟨⟨⟩, -⟩; exact hpiece rfl)]
        exact follows_payload sock hpiece hvalid

end

/-- What is touched belongs to a block, and to one that the header of a PIECE
message names. -/
theorem mem_recvTouches {torrent : TorrentInfo} {sock : Socket} {mem : FileMem}
    (hmem : mem ∈ recvTouches sock torrent) : PieceHeader sock.inp ∧ NamesBlock torrent sock.inp ∧
      ∃ index : UInt32, ∃ block ∈ (pieceRequestCreate torrent.layout index).blockRequests,
        mem ∈ block.fileMems := by
  have hfollows := follows_peerMsgRecv torrent sock fun _ => 0
  generalize hr : peerMsgRecv sock torrent (fun _ => 0) = r at hfollows
  generalize recvTouches sock torrent = mems at hfollows hmem
  cases hfollows with
  | untouched h => cases hmem
  | block hblock sock' msg =>
      rcases peerMsgRecv_cases torrent sock fun _ => 0 with ⟨msg', s, hok, hmsg⟩ | ⟨-, herror⟩ |
        ⟨hheader, s, -, heq⟩
      · rw [hr, Except.ok.injEq, Prod.mk.injEq] at hok
        exact absurd rfl (hmsg (.piece msg) (by rw [← hok.1]; rfl))
      · rw [hr] at herror
        cases herror
      · exact ⟨hheader, (peerMsgRecvBlock_returns_iff torrent (fun _ => 0) s _ _ _).mp
          ⟨_, heq.symm.trans hr⟩, _, _, hblock, hmem⟩

/-! ### What a step touches -/

def Client.recvTouches : Client → Act ℕ → List FileMem
  | .connected s, .receive avail =>
      if peerMsgBuffNonempty s.sock avail then Daobell.recvTouches s.sock s.torrent else []
  | _, _ => []

/-- A step touches no memory that is not mapped, be it to receive, to send or to
check a piece; a check that reads such memory stops the program. -/
structure TouchesMapped (c : Client) (a : Act ℕ) : Prop where
  received : ∀ mem ∈ c.recvTouches a, 0 < mem.size → c.torrent.isMapped mem = true
  sent : ∀ c', clientStep processQueued c a = .ok c' → ∀ msg ok,
    .msgSend (.piece msg) ok ∈ c'.log.drop c.log.length →
      ∀ mem ∈ blockMems c.torrent.layout msg.index msg.begin, 0 < mem.size →
        c.torrent.isMapped mem = true
  checked : clientStep processQueued c a ≠ .error .unmapped

/-- Once the download is complete, no PIECE message that names a block comes to
the head of the stream. -/
def StaysQuiet : Client → Act ℕ → Prop
  | .connected s, .receive avail => s.torrent.sh.completed = true →
      peerMsgBuffNonempty s.sock avail = true →
        ¬ (PieceHeader s.sock.inp ∧ NamesBlock s.torrent s.sock.inp)
  | _, _ => True

instance : (c : Client) → (a : Act ℕ) → Decidable (StaysQuiet c a)
  | .connected _, .receive _ => inferInstanceAs (Decidable (_ → _ → ¬ (_ ∧ _ ∧ _)))
  | .connected _, .connect _ | .connected _, .round | .connected _, .drop => isTrue trivial
  | .idle _ _ _, .connect _ | .idle _ _ _, .receive _ => isTrue trivial
  | .idle _ _ _, .round | .idle _ _ _, .drop => isTrue trivial

/-- The receiver is stopped by nothing but an assert. -/
theorem peerMsgRecv_error {torrent : TorrentInfo} {sock : Socket} {disk : Disk} {crash : Crash}
    (h : peerMsgRecv sock torrent disk = .error crash) : crash = .assertFailed := by
  rcases peerMsgRecv_cases torrent sock disk with ⟨_, _, heq, -⟩ | ⟨-, heq⟩ | ⟨-, s, -, heq⟩
  · cases heq.symm.trans h
  · exact Except.error.inj (h.symm.trans heq)
  · rw [heq, peerMsgRecvBlock] at h
    split at h
    · exact (Except.error.inj h).symm
    · cases h

/-- The check of a piece that is requested finds its memory mapped. -/
theorem not_checkStops_unmapped {s : Session} (h : s.torrent.Accounted) :
    ¬ CheckStops Session.sha1Verify s .unmapped := by
  rintro ⟨index, hrequested, hverify⟩
  have hlt : index.toNat < s.torrent.pieces.length := by
    rw [← h.length]
    exact (List.getElem?_eq_some_iff.mp hrequested).1
  obtain ⟨valid, hvalid⟩ := torrentSha1Verify_ok (h.mapped_of_requested hrequested) s.disk hlt
  rw [Session.sha1Verify, hvalid] at hverify
  cases hverify

theorem recvMsg_ne_unmapped {s : Session} (h : s.Accounted) : recvMsg s ≠ .error .unmapped := by
  intro herror
  rw [recvMsg] at herror
  cases hrecv : peerMsgRecv s.sock s.torrent s.disk with
  | error crash =>
      rw [hrecv, error_bind, peerMsgRecv_error hrecv] at herror
      cases herror
  | ok r =>
      obtain ⟨msg, sock, disk⟩ := r
      have ht := h.received sock disk
      rw [hrecv, ok_bind] at herror
      cases msg with
      | none => cases herror
      | some msg =>
          dsimp only at herror
          rcases processMsg_spec Session.sha1Verify ht msg with
            ⟨t, heq, -⟩ | ⟨crash, heq, hstops | ⟨rfl, -⟩⟩
          · rw [heq] at herror
            cases herror
          · rw [heq] at herror
            cases herror
            exact not_checkStops_unmapped ht.torrent hstops
          · rw [heq] at herror
            cases herror

theorem clientStep_ne_unmapped {c : Client} (h : c.Accounted) (a : Act ℕ) :
    clientStep processQueued c a ≠ .error .unmapped := by
  rcases clientStep_spec processQueued h a (fun _ => False) with
    ⟨_, heq, -⟩ | ⟨s, avail, rfl, rfl, heq⟩
  · intro herror
    cases heq.symm.trans herror
  · rw [heq, processQueued]
    split
    · intro herror
      cases hrecv : recvMsg s with
      | error crash =>
          rw [hrecv, error_bind, Except.error.injEq] at herror
          exact recvMsg_ne_unmapped h (hrecv.trans (congrArg _ herror))
      | ok r =>
          rw [hrecv, ok_bind] at herror
          split at herror
          · cases herror
          · cases herror
    · intro herror
      cases herror

/-- **One step.** With the books right, a step that stays quiet touches nothing
that is not mapped. -/
theorem touchesMapped_of_quiet {c : Client} (h : c.Accounted) {a : Act ℕ} (hquiet : StaysQuiet c a) :
    TouchesMapped c a := by
  refine ⟨fun mem hmem hpos => ?_, fun c' hstep msg ok hsent => ?_, clientStep_ne_unmapped h a⟩
  · cases c with
    | idle torrent disk log => cases hmem
    | connected s =>
        cases a with
        | receive avail =>
            rw [Client.recvTouches] at hmem
            split at hmem
            swap
            · cases hmem
            rename_i hnonempty
            obtain ⟨hheader, hnames, index, block, hblock, hmem⟩ := mem_recvTouches hmem
            have hcompleted : s.torrent.sh.completed = false := by
              rw [← Bool.not_eq_true]
              exact fun hcompleted => hquiet hcompleted hnonempty ⟨hheader, hnames⟩
            exact isMapped_of_mem (h.torrent.mapped hcompleted) hblock hmem hpos
        | _ => cases hmem
  · obtain ⟨events, hlog, hno⟩ := clientStep_log h hstep
    rw [hlog, List.drop_left] at hsent
    exact absurd hsent (hno msg ok)

/-- **No access after unmapping.** On a run on which no PIECE message that names a
block comes once the download is complete, no step touches memory that is not
mapped. -/
theorem run_touchesMapped {env : Environment} {metainfo : BencodeValue} {destdir : Bytes}
    {torrent : TorrentInfo} (hinit : torrentInit env metainfo destdir = .ok torrent) {disk : Disk}
    {acts : List (Act ℕ)}
    (hquiet : RunMeets (clientStep processQueued) StaysQuiet (.idle torrent disk []) acts) :
    RunMeets (clientStep processQueued) TouchesMapped (.idle torrent disk []) acts := by
  have hstart : Client.Accounted (.idle torrent disk []) := accounted_torrentInit hinit
  exact hquiet.of_invariant hstart (fun _ _ _ h _ hstep => clientStep_accounted h hstep)
    fun _ _ h => touchesMapped_of_quiet h

def oneByteInfo : BencodeValue :=
  .bencodeDict [(lengthKey, .bencodeInt 1),
    (nameKey, .bencodeString (letter 'x'.toUInt8)),
    (pieceLengthKey, .bencodeInt 16384),
    (piecesKey, .bencodeString ⟨sha1 [42], by simp [length_sha1]⟩)]

def oneByte : TorrentInfo where
  announce := []
  creationDate := 0
  pieceLength := 16384
  files := [⟨bytesOf "/x.incomplete", .new 0, 1, true, one_toNat_pos⟩]
  infoHash := sha1Compute oneByteInfo.crawl
  maxPeers := defaultMaxPeers
  pieces := [sha1 [42]]
  sh := ⟨[.stateNotRequested], 1, 0, 0, false⟩
  files_lt := by decide
  pieces_le := by decide
  pieces_length := by simp [length_sha1]

theorem torrentInit_oneByte :
    torrentInit quietEnvironment (.bencodeDict [(infoKey, oneByteInfo)]) [] = .ok oneByte := by
  decide +kernel

/-- A peer that sends the byte when it is asked for it, and then once more. -/
def eagerPeer : Socket where
  inp := [0, 0, 0, 2, 5, 128] ++ [0, 0, 0, 1, 1] ++ [0, 0, 0, 10, 7, 0, 0, 0, 0, 0, 0, 0, 0, 42] ++
    [0, 0, 0, 10, 7, 0, 0, 0, 0, 0, 0, 0, 0, 42]
  recvs := []
  out := []
  sends := []

def oneByteActs : List (Act ℕ) :=
  [.connect eagerPeer, .receive 100, .receive 100, .round, .receive 100]

theorem run_touchesMapped_oneByte :
    RunMeets (clientStep processQueued) TouchesMapped (.idle oneByte blankDisk []) oneByteActs :=
  run_touchesMapped torrentInit_oneByte (by decide +kernel)

/-- When it comes once more, `recv` is handed memory that is not mapped. -/
theorem run_touchesUnmapped :
    torrentInit quietEnvironment (.bencodeDict [(infoKey, oneByteInfo)]) [] = .ok oneByte ∧
      ¬ RunMeets (clientStep processQueued) TouchesMapped (.idle oneByte blankDisk [])
        (oneByteActs ++ [.receive 100]) := by
  refine ⟨torrentInit_oneByte, fun hmeets => ?_⟩
  obtain ⟨c, hrun, -, mem, hmem, hpos, hunmapped⟩ :
      ∃ c, run (clientStep processQueued) (.idle oneByte blankDisk []) oneByteActs = .ok c ∧
        c.torrent.sh.completed = true ∧ ∃ mem ∈ c.recvTouches (.receive 100), 0 < mem.size ∧
          c.torrent.isMapped mem = false := by
    decide +kernel
  have hmapped := (hmeets.last _ hrun).received mem hmem hpos
  rw [hunmapped] at hmapped
  cases hmapped

end Daobell
