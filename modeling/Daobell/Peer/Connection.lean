import Daobell.Peer.Message

/-!
The thread of a connection, `peer_connection.cpp`, cut at the places where it
can be interrupted: it connects, it takes one message from its queue, it goes
round the rest of its loop, or it ends. One connection follows another, as
`peer_connection_create` joins each thread. Opening the socket and the
handshake are left out, and so is the message queue, which nothing reads.
-/

namespace Daobell

open Lib

structure PeerState where
  choked : Bool
  interested : Bool
  deriving DecidableEq

/-- A `conn_state`; `local` and `remote` are the two peer states. -/
structure ConnState where
  localState : PeerState
  remoteState : PeerState
  peerHave : List Bool
  peerWants : List Bool
  localHave : List Bool
  bitlen : ℕ
  blocksSent : ℕ
  blocksRecvd : ℕ
  peerRequests : List RequestMsg
  localRequests : List PieceRequest
  deriving DecidableEq

/-- What a thread does that is seen from outside: each call of `peer_msg_send`
and of `torrent_sha1_verify`, with what it returns. -/
inductive Event
  | msgSend (msg : PeerMsg) (ok : Bool)
  | sha1Verify (index : UInt32) (valid : Bool)
  deriving DecidableEq

structure Session where
  torrent : TorrentInfo
  disk : Disk
  sock : Socket
  state : ConnState
  log : List Event

/-- The program between two interruptions: without a connection, or with one. -/
inductive Client
  | idle (torrent : TorrentInfo) (disk : Disk) (log : List Event)
  | connected (s : Session)

def Client.torrent : Client → TorrentInfo
  | .idle torrent _ _ => torrent
  | .connected s => s.torrent

def Client.disk : Client → Disk
  | .idle _ disk _ => disk
  | .connected s => s.disk

def Client.session? : Client → Option Session
  | .idle _ _ _ => none
  | .connected s => some s

theorem Client.mem_session? {c : Client} {s : Session} : s ∈ c.session? ↔ c = .connected s := by
  cases c <;> simp [Client.session?]

def Session.hangUp (s : Session) : Client := .idle s.torrent s.disk s.log

/-! ### Sending a message -/

/-- The session behind a call of `peer_msg_send`. -/
def Session.sent (s : Session) (msg : PeerMsg) (ok : Bool) (sock : Socket) : Session :=
  { s with sock := sock, log := s.log ++ [.msgSend msg ok] }

def Session.msgSend (s : Session) (msg : PeerMsg) : Except Crash (Bool × Session) :=
  peerMsgSend s.sock s.torrent s.disk msg >>= fun r => .ok (r.1, s.sent msg r.1 r.2)

def Session.announce (s : Session) (msg : PeerMsg) (note : ConnState → ConnState) :
    Except Crash Session :=
  s.msgSend msg >>= fun r =>
  .ok (if r.1 then { r.2 with state := note r.2.state } else r.2)

def unchoke (s : Session) : Except Crash Session :=
  s.announce .unchoke fun state =>
    { state with remoteState := { state.remoteState with choked := false } }

def showInterested (s : Session) : Except Crash Session :=
  s.announce .interested fun state =>
    { state with localState := { state.localState with interested := true } }

def showNotInterested (s : Session) : Except Crash Session :=
  s.announce .notInterested fun state =>
    { state with localState := { state.localState with interested := false } }

/-! ### Receiving a piece -/

def TorrentInfo.countPiece (torrent : TorrentInfo) (index : ℕ) : TorrentInfo :=
  { torrent with sh := { torrent.sh with
      piecesState := torrent.sh.piecesState.set index .stateHave
      piecesLeft := subUnsigned torrent.sh.piecesLeft 1 } }

/-- The locked part of `handle_piece_dnld_completion`, and `torrent_complete`. -/
def TorrentInfo.gotPiece (torrent : TorrentInfo) (index : ℕ) : Except Crash TorrentInfo :=
  match torrent.sh.piecesState[index]? with
  | none => .error .outOfRange
  | some state =>
      if state = .stateHave then .ok torrent
      else
        -- the assert is on the count after it went down
        let torrent := torrent.countPiece index
        if ¬ torrent.sh.piecesLeft < torrent.pieces.length then .error .assertFailed
        else if torrent.sh.piecesLeft = 0 then .ok (torrentComplete torrent)
        else .ok torrent

def handlePieceDnldCompletion (s : Session) (index : UInt32) : Except Crash Session :=
  if ¬ index.toNat < s.torrent.pieces.length then .error .assertFailed
  else
    s.torrent.gotPiece index.toNat >>= fun torrent =>
    { s with torrent := torrent }.msgSend (.haveMsg index) >>= fun r => .ok r.2

/-- The loop over the blocks of a request: mark the first one that the message
brings. -/
def markBlock (msg : PieceMsg) : List BlockRequest → Option (List BlockRequest)
  | [] => none
  | block :: blocks =>
      if block.len = msg.blockLen ∧ block.begin = msg.begin.toNat then
        some ({ block with completed := true } :: blocks)
      else (markBlock msg blocks).map (block :: ·)

def BlockRequest.Matches (block : BlockRequest) (msg : PieceMsg) : Prop :=
  block.len = msg.blockLen ∧ block.begin = msg.begin.toNat

/-- Either no block matches, or the first one that does is marked. -/
theorem markBlock_cases (msg : PieceMsg) (blocks : List BlockRequest) :
    (markBlock msg blocks = none ∧ ∀ block ∈ blocks, ¬ block.Matches msg) ∨
      ∃ before block after, blocks = before ++ block :: after ∧ block.Matches msg ∧
        (∀ block ∈ before, ¬ block.Matches msg) ∧
        markBlock msg blocks = some (before ++ { block with completed := true } :: after) := by
  induction blocks with
  | nil => exact .inl ⟨rfl, by simp⟩
  | cons block blocks ih =>
      rw [markBlock]
      by_cases hmatch : block.len = msg.blockLen ∧ block.begin = msg.begin.toNat
      · exact .inr ⟨[], block, blocks, rfl, hmatch, by simp, if_pos hmatch⟩
      · rw [if_neg hmatch]
        have hno : ¬ block.Matches msg := hmatch
        rcases ih with ⟨hnone, hall⟩ | ⟨before, found, after, rfl, hfound, hbefore, heq⟩
        · exact .inl ⟨by rw [hnone]; rfl, by simpa using ⟨hno, hall⟩⟩
        · exact .inr ⟨block :: before, found, after, rfl, hfound, by simpa using ⟨hno, hbefore⟩,
            by rw [heq]; rfl⟩

def PieceRequest.receive (request : PieceRequest) (msg : PieceMsg) : PieceRequest :=
  match markBlock msg request.blockRequests with
  | some blocks =>
      { request with blockRequests := blocks, blocksLeft := subUnsigned request.blocksLeft 1 }
  | none => request

section

-- what `torrent_sha1_verify` answers
variable (verify : Session → UInt32 → Except Crash Bool)

def pieceReceived (s : Session) (index : UInt32) : Except Crash Session :=
  verify s index >>= fun valid =>
  let s := { s with log := s.log ++ [.sha1Verify index valid] }
  if valid then handlePieceDnldCompletion s index
  else if index.toNat < s.torrent.sh.piecesState.length then
    .ok { s with torrent := s.torrent.setState index.toNat .stateNotRequested }
  else .error .outOfRange

/-- The loop of `process_piece_msg` over the requests, at place `p`. Removing a
request takes the iterator past the one behind it; the list is circular, and
from its end the iterator comes to its start. -/
def processPieceLoop (msg : PieceMsg) (s : Session) (requests : List PieceRequest) (p : ℕ) :
    Except Crash Session :=
  match _h : requests[p]? with
  | none => .ok { s with state := { s.state with localRequests := requests } }
  | some request =>
      if request.pieceIndex ≠ msg.index then processPieceLoop msg s requests (p + 1)
      else
        let request := request.receive msg
        if request.blocksLeft ≠ 0 then
          processPieceLoop msg s (requests.set p request) (p + 1)
        else
          match pieceReceived verify s request.pieceIndex with
          | .error c => .error c
          | .ok s =>
              processPieceLoop msg s (requests.eraseIdx p)
                (if p < (requests.eraseIdx p).length then p + 1 else 0)
termination_by requests.length * (requests.length + 1) + (requests.length - p)
decreasing_by
  all_goals have hp : p < requests.length := (List.getElem?_eq_some_iff.mp _h).1
  · omega
  · rw [List.length_set]
    omega
  · rw [List.length_eraseIdx_of_lt hp]
    generalize requests.length = k at *
    obtain ⟨m, rfl⟩ := Nat.exists_eq_add_of_le' (Nat.one_le_of_lt hp)
    have hsquare : (m + 1) * (m + 1 + 1) = m * (m + 1) + 2 * (m + 1) := by ring
    rw [Nat.add_sub_cancel, hsquare]
    omega

def processPieceMsg (s : Session) (msg : PieceMsg) : Except Crash Session :=
  processPieceLoop verify msg s s.state.localRequests 0

/-! ### The messages -/

/-- Is there, among the first `n` pieces, one that the peer has and we do not? -/
def interestLoop : ℕ → List PieceState → List Bool → Except Crash Bool
  | 0, _, _ => .ok false
  | _ + 1, [], _ => .error .outOfRange
  | n + 1, .stateHave :: states, peerHave => interestLoop n states peerHave.tail
  | _ + 1, _ :: _, [] => .error .outOfRange
  | n + 1, _ :: states, has :: peerHave =>
      if has then .ok true else interestLoop n states peerHave

def processBitfield (s : Session) (bits : List Bool) : Except Crash Session :=
  if bits.length < s.state.peerHave.length then .error .outOfRange
  else
    let peerHave := bits.take s.state.peerHave.length
    let s := { s with state := { s.state with peerHave := peerHave } }
    interestLoop s.torrent.pieces.length s.torrent.sh.piecesState peerHave >>= fun interested =>
    if interested then showInterested s else .ok s

def processHave (s : Session) (index : ℕ) : Except Crash Session :=
  let interest :=
    if s.state.localState.interested then .ok s
    else
      -- `local_have`, though it is the peer that has the piece
      match s.state.localHave[index]? with
      | none => .error .outOfRange
      | some has => if has then showInterested s else .ok s
  interest >>= fun s =>
  if index < s.state.peerHave.length then
    .ok { s with state := { s.state with peerHave := s.state.peerHave.set index true } }
  else .error .outOfRange

def processMsg (s : Session) : PeerMsg → Except Crash Session
  | .choke => .ok { s with state := { s.state with
      localState := { s.state.localState with choked := true } } }
  | .unchoke => .ok { s with state := { s.state with
      localState := { s.state.localState with choked := false } } }
  | .interested => .ok { s with state := { s.state with
      remoteState := { s.state.remoteState with interested := true } } }
  | .notInterested => .ok { s with state := { s.state with
      remoteState := { s.state.remoteState with interested := false } } }
  | .haveMsg index => processHave s index.toNat
  | .bitfield bits => processBitfield s bits
  | .request msg => .ok { s with state := { s.state with
      peerRequests := s.state.peerRequests ++ [msg] } }
  | .piece msg =>
      processPieceMsg verify s msg >>= fun s =>
      .ok { s with state := { s.state with
        blocksRecvd := (s.state.blocksRecvd + 1) % 2 ^ 32 } }
  | .keepalive => .ok s
  | .cancel => .ok s
  | .port _ => .ok s

end

def Session.sha1Verify (s : Session) (index : UInt32) : Except Crash Bool :=
  torrentSha1Verify s.torrent s.disk index

/-- The body of the loop of `process_queued_msgs`: receive a message and process
it. Whether the thread goes on, and the session. -/
def recvMsg (s : Session) : Except Crash (Bool × Session) :=
  peerMsgRecv s.sock s.torrent s.disk >>= fun r =>
  let s := { s with sock := r.2.1, disk := r.2.2 }
  match r.1 with
  | none => .ok (false, s)
  | some msg => processMsg Session.sha1Verify s msg >>= fun s => .ok (true, s)

/-! ### Requests -/

def peerNumOutstandingRequests : ℕ := 1

/-- A REQUEST message for every block of a piece; whether all were sent. -/
def requestBlocks (index : UInt32) : List BlockRequest → Session → Except Crash (Bool × Session)
  | [], s => .ok (true, s)
  | block :: blocks, s =>
      s.msgSend (.request ⟨index, UInt32.ofNat block.begin, UInt32.ofNat block.len⟩) >>= fun r =>
      if r.1 then requestBlocks index blocks r.2 else .ok (false, r.2)

/-- The loop of `send_requests`, for `n` requests: `not_interested`, or `none`
where it returns -1. -/
def requestLoop : ℕ → Session → Except Crash (Option Bool × Session)
  | 0, s => .ok (some false, s)
  | n + 1, s =>
      torrentNextRequest s.torrent s.state.peerHave >>= fun next =>
      match next with
      | none => .ok (some true, s)
      | some (reqIndex, torrent) =>
          -- the request stays on the list when it cannot be sent
          let request := pieceRequestCreate torrent.layout (UInt32.ofNat reqIndex)
          let s := { s with
            torrent := torrent
            state := { s.state with localRequests := s.state.localRequests ++ [request] } }
          requestBlocks request.pieceIndex request.blockRequests s >>= fun r =>
          if r.1 then requestLoop n r.2 else .ok (none, r.2)

/-- How many requests `send_requests` makes when there are some already: a
`size_t` that becomes an `int`. -/
def requestCount (outstanding : ℕ) : ℤ :=
  (subSize peerNumOutstandingRequests outstanding : ℤ).bmod (2 ^ 32)

def sendRequests (s : Session) : Except Crash (Bool × Session) :=
  let n := requestCount s.state.localRequests.length
  if n ≤ 0 then .ok (true, s)
  else
    requestLoop n.toNat s >>= fun r =>
    match r.1 with
    | none => .ok (false, r.2)
    | some notInterested =>
        if r.2.state.localState.interested ∧ notInterested then
          showNotInterested r.2 >>= fun s => .ok (true, s)
        else .ok (true, r.2)

/-! ### The thread -/

def connStateInit (torrent : TorrentInfo) : Except Crash ConnState :=
  torrentMakeBitfield torrent >>= fun localHave =>
  .ok {
    localState := ⟨true, false⟩
    remoteState := ⟨true, false⟩
    peerHave := List.replicate torrent.pieces.length false
    peerWants := List.replicate torrent.pieces.length false
    localHave := localHave
    bitlen := torrent.pieces.length
    blocksSent := 0
    blocksRecvd := 0
    peerRequests := []
    localRequests := [] }

/-- `peer_connection` from the end of the handshake to its loop. -/
def connectionStart (torrent : TorrentInfo) (disk : Disk) (log : List Event) (sock : Socket) :
    Except Crash Client :=
  connStateInit torrent >>= fun state =>
  Session.msgSend ⟨torrent, disk, sock, state, log⟩
    (.bitfield (List.replicate torrent.pieces.length false)) >>= fun r =>
  if r.1 then unchoke r.2 >>= fun s => .ok (.connected s) else .ok r.2.hangUp

/-- One round of the loop of `peer_connection`, behind `process_queued_msgs`. -/
def connectionRound (s : Session) : Except Crash Client :=
  let requests :=
    if s.state.peerRequests.length = 0 ∧
        ¬ s.state.localState.choked ∧ s.state.localState.interested then sendRequests s
    else .ok (true, s)
  requests >>= fun r =>
  if r.1 ∧ ¬ r.2.torrent.sh.completed then .ok (.connected r.2) else .ok r.2.hangUp

/-- What a thread does between two interruptions; `μ` tells what it receives. -/
inductive Act (μ : Type)
  | connect (sock : Socket)
  | receive (m : μ)
  | round
  | drop

/-- A step of the program. What only one of the threads can do does nothing
without it. -/
def clientStep {μ : Type} (receive : Session → μ → Except Crash Client) :
    Client → Act μ → Except Crash Client
  | .idle torrent disk log, .connect sock => connectionStart torrent disk log sock
  | .connected s, .receive m => receive s m
  | .connected s, .round => connectionRound s
  | .connected s, .drop => .ok s.hangUp
  | client, _ => .ok client

/-- One round of the loop of `process_queued_msgs`, when `avail` bytes have
arrived. -/
def processQueued (s : Session) (avail : ℕ) : Except Crash Client :=
  if peerMsgBuffNonempty s.sock avail then
    recvMsg s >>= fun r => if r.1 then .ok (.connected r.2) else .ok r.2.hangUp
  else .ok (.connected s)

/-- A message as `peer_msg_recv` hands it on, processed whatever
`torrent_sha1_verify` answers. -/
def processAnswered (s : Session) (m : PeerMsg × (Session → UInt32 → Bool)) :
    Except Crash Client :=
  processMsg (fun s index => .ok (m.2 s index)) s m.1 >>= fun s => .ok (.connected s)

end Daobell
