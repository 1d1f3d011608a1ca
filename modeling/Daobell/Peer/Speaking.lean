import Daobell.Peer.Choking
import Daobell.Peer.Framing

/-!
What a thread says on a stream that works. Every call that sends puts whole
messages behind those that have been sent, and which messages these are depends
on the state of the session alone.
-/

namespace Daobell

open Lib

/-! ### The messages on the wire -/

theorem msgLength_congr {torrent torrent' : TorrentInfo} (h : torrent'.pieces = torrent.pieces)
    (type : MsgType) : msgLength type torrent' = msgLength type torrent := by
  cases type <;> simp only [msgLength, h]

/-- The byte string of a message depends on the number of pieces alone. -/
theorem wire_congr {torrent torrent' : TorrentInfo} (h : torrent'.pieces = torrent.pieces) :
    PeerMsg.wire torrent' = PeerMsg.wire torrent := by
  funext msg
  rw [PeerMsg.wire, PeerMsg.wire, msgLength_congr h]

theorem streamed_congr {torrent torrent' : TorrentInfo} (h : torrent'.pieces = torrent.pieces)
    (msg : PeerMsg) : msg.Streamed torrent' ↔ msg.Streamed torrent := by
  cases msg <;> simp only [PeerMsg.Streamed, h]

/-- The length in front of a message is that of what comes behind it. -/
theorem length_wire {torrent : TorrentInfo} {msg : PeerMsg} (h : msg.Streamed torrent) :
    (msg.wire torrent).length = 4 + msgLength msg.type torrent := by
  have hlen : (if msg = .keepalive then ([] : Bytes) else [msg.type.toByte] ++ msg.payload).length =
      msgLength msg.type torrent := by
    cases msg with
    | piece _ => exact h.elim
    | cancel => exact h.elim
    | bitfield bits =>
        have hbits : bits.length = torrent.pieces.length := h
        rw [if_neg (by simp), PeerMsg.type, msgLength_bitfield, PeerMsg.payload, List.length_append,
          length_bitfieldLoop, List.length_replicate, hbits]
        rfl
    | _ => simp [PeerMsg.type, PeerMsg.payload, msgLength, length_wordBytes]
  rw [PeerMsg.wire, List.length_append, hlen, length_wordBytes]

theorem peerMsgBuffNonempty_of_wire {sock : Socket} {avail len : ℕ} {payload rest : Bytes}
    (hlen : len < 2 ^ 32) (hpayload : payload.length = len)
    (hinp : sock.inp = wordBytes (UInt32.ofNat len) ++ payload ++ rest)
    (havail : sock.inp.length ≤ avail) : peerMsgBuffNonempty sock avail = true := by
  have harrived : sock.inp.take avail = sock.inp := List.take_of_length_le havail
  have hword : wordAt sock.inp = UInt32.ofNat len := by
    rw [hinp, List.append_assoc, wordAt_wordBytes]
  have hle : len + 4 ≤ sock.inp.length := by
    rw [hinp, List.length_append, List.length_append, length_wordBytes, hpayload]
    omega
  simp only [peerMsgBuffNonempty, harrived, hword, UInt32.toNat_ofNat_of_lt' hlen]
  rw [if_neg (by omega), decide_eq_true_eq]
  omega

/-! ### Calls that send -/

/-- From one session to the other nothing happens but that these messages are
sent. -/
structure Speaks (s s' : Session) (msgs : List PeerMsg) : Prop where
  torrent : s'.torrent = s.torrent
  disk : s'.disk = s.disk
  sock : SendStep s.sock s'.sock (msgs.flatMap (PeerMsg.wire s.torrent))

theorem Speaks.refl (s : Session) : Speaks s s [] := ⟨rfl, rfl, SendStep.refl s.sock⟩

theorem Speaks.trans {a b c : Session} {msgs msgs' : List PeerMsg} (h₁ : Speaks a b msgs)
    (h₂ : Speaks b c msgs') : Speaks a c (msgs ++ msgs') where
  torrent := h₂.torrent.trans h₁.torrent
  disk := h₂.disk.trans h₁.disk
  sock := by
    have h := h₁.sock.trans h₂.sock
    rwa [h₁.torrent, ← List.flatMap_append] at h

theorem Speaks.state {s s' : Session} {msgs : List PeerMsg} (h : Speaks s s' msgs)
    (state : ConnState) : Speaks s { s' with state := state } msgs := ⟨h.torrent, h.disk, h.sock⟩

theorem Speaks.of_state {s : Session} {state : ConnState} {s' : Session} {msgs : List PeerMsg}
    (h : Speaks { s with state := state } s' msgs) : Speaks s s' msgs := ⟨h.torrent, h.disk, h.sock⟩

theorem Speaks.reliable {s s' : Session} {msgs : List PeerMsg} (h : Speaks s s' msgs)
    (hsend : s.sock.SendReliable) : s'.sock.SendReliable := h.sock.reliable hsend

theorem msgSend_speaks {s : Session} (hsend : s.sock.SendReliable) {msg : PeerMsg}
    (h : msg.Streamed s.torrent) :
    ∃ s', s.msgSend msg = .ok (true, s') ∧ Speaks s s' [msg] ∧ s'.state = s.state := by
  obtain ⟨ok, sock, bytes, heq, hstep, hok, hrel⟩ := msgSend_spec s msg h
  obtain rfl : ok = true := hrel hsend
  obtain rfl := hok rfl
  exact ⟨_, heq, ⟨rfl, rfl, by simpa [Session.sent] using hstep⟩, rfl⟩

theorem announce_speaks {s : Session} (hsend : s.sock.SendReliable) {msg : PeerMsg}
    (h : msg.Streamed s.torrent) (note : ConnState → ConnState) :
    ∃ s', s.announce msg note = .ok s' ∧ Speaks s s' [msg] ∧ s'.state = note s.state := by
  obtain ⟨t, heq, hspeaks, hstate⟩ := msgSend_speaks hsend h
  refine ⟨{ t with state := note t.state }, ?_, hspeaks.state _, congrArg note hstate⟩
  rw [Session.announce, heq, ok_bind]
  rfl

def ConnState.setInterested (state : ConnState) (interested : Bool) : ConnState :=
  { state with localState := { state.localState with interested := interested } }

theorem showInterested_speaks {s : Session} (hsend : s.sock.SendReliable) :
    ∃ s', showInterested s = .ok s' ∧ Speaks s s' [.interested] ∧
      s'.state = s.state.setInterested true :=
  announce_speaks hsend (show PeerMsg.Streamed s.torrent .interested from trivial) _

theorem showNotInterested_speaks {s : Session} (hsend : s.sock.SendReliable) :
    ∃ s', showNotInterested s = .ok s' ∧ Speaks s s' [.notInterested] ∧
      s'.state = s.state.setInterested false :=
  announce_speaks hsend (show PeerMsg.Streamed s.torrent .notInterested from trivial) _

/-! ### Answers to what the peer sends -/

def ConnState.setPeerHave (state : ConnState) (index : ℕ) : ConnState :=
  { state with peerHave := state.peerHave.set index true }

/-- A HAVE message sets off interest when our own bit field, as it was when the
connection began, has the piece. -/
theorem processHave_speaks {s : Session} (h : s.Accounted) (hsend : s.sock.SendReliable) {index : ℕ}
    (hindex : index < s.torrent.pieces.length) :
    ∃ s', processHave s index = .ok s' ∧
      (Speaks s s' [] ∧ s'.state = s.state.setPeerHave index ∨
        s.state.localState.interested = false ∧ Speaks s s' [.interested] ∧
          s'.state = (s.state.setInterested true).setPeerHave index) := by
  rw [processHave]
  have hpeer : index < s.state.peerHave.length := h.peerHave ▸ hindex
  obtain ⟨has, hhas⟩ : ∃ has, s.state.localHave[index]? = some has :=
    ⟨_, List.getElem?_eq_getElem (h.localHave ▸ hindex)⟩
  have hquiet : ∃ s', (if index < s.state.peerHave.length then
        .ok { s with state := { s.state with peerHave := s.state.peerHave.set index true } }
      else .error .outOfRange : Except Crash Session) = .ok s' ∧
        (Speaks s s' [] ∧ s'.state = s.state.setPeerHave index) := by
    rw [if_pos hpeer]
    exact ⟨_, rfl, (Speaks.refl s).state _, rfl⟩
  cases hinterested : s.state.localState.interested with
  | true =>
      obtain ⟨s', heq, hs'⟩ := hquiet
      exact ⟨s', by simpa [hinterested] using heq, .inl hs'⟩
  | false =>
      simp only [Bool.false_eq_true, if_false, hhas]
      cases has with
      | false =>
          obtain ⟨s', heq, hs'⟩ := hquiet
          exact ⟨s', by simpa using heq, .inl hs'⟩
      | true =>
          obtain ⟨t, heq, hspeaks, hstate⟩ := showInterested_speaks hsend
          have hpeer' : index < t.state.peerHave.length := by
            rw [hstate]
            exact hpeer
          simp only [if_true, heq, ok_bind, if_pos hpeer']
          refine ⟨_, rfl, .inr ⟨trivial, hspeaks.state _, ?_⟩⟩
          rw [hstate]
          rfl

/-- A bit field sets off interest when the peer has a piece that we lack. -/
theorem processBitfield_speaks {s : Session} (h : s.Accounted) (hsend : s.sock.SendReliable)
    {bits : List Bool} (hbits : s.torrent.pieces.length ≤ bits.length) :
    ∃ s', processBitfield s bits = .ok s' ∧
      ((∀ i : ℕ, (bits.take s.torrent.pieces.length)[i]? = some true →
            ¬ Lacks s.torrent.sh.piecesState i) ∧ Speaks s s' [] ∧
          s'.state = { s.state with peerHave := bits.take s.torrent.pieces.length } ∨
        Speaks s s' [.interested] ∧ s'.state = ConnState.setInterested
          { s.state with peerHave := bits.take s.torrent.pieces.length } true) := by
  have hlen : (bits.take s.torrent.pieces.length).length = s.torrent.pieces.length := by
    rw [List.length_take]
    omega
  obtain ⟨interested, heq, hiff⟩ := interestLoop_spec h.torrent.length hlen
  rw [processBitfield, h.peerHave, if_neg (by omega)]
  simp only [heq, ok_bind]
  cases interested with
  | false =>
      simp only [Bool.false_eq_true, false_iff, not_exists, not_and] at hiff
      exact ⟨_, rfl, .inl ⟨hiff, (Speaks.refl s).state _, rfl⟩⟩
  | true =>
      obtain ⟨s', heq', hspeaks, hstate⟩ := showInterested_speaks
        (s := { s with state := { s.state with peerHave := bits.take s.torrent.pieces.length } })
        hsend
      exact ⟨s', heq', .inr ⟨hspeaks.of_state, hstate⟩⟩

def ConnState.note (n : ℕ) (state : ConnState) : PeerMsg → ConnState
  | .choke => { state with localState := { state.localState with choked := true } }
  | .unchoke => { state with localState := { state.localState with choked := false } }
  | .interested => { state with remoteState := { state.remoteState with interested := true } }
  | .notInterested => { state with remoteState := { state.remoteState with interested := false } }
  | .haveMsg index => state.setPeerHave index.toNat
  | .bitfield bits => { state with peerHave := bits.take n }
  | .request msg => { state with peerRequests := state.peerRequests ++ [msg] }
  | _ => state

/-- What a message that is no PIECE comes to, with the messages sent on account of
it: it is noted, and it may set off interest. -/
inductive Noted (torrent : TorrentInfo) (state state' : ConnState) (msg : PeerMsg) :
    List PeerMsg → Prop
  | silent (hstate : state' = state.note torrent.pieces.length msg)
      (hlacks : ∀ bits, msg = .bitfield bits → ∀ i : ℕ,
        (bits.take torrent.pieces.length)[i]? = some true → ¬ Lacks torrent.sh.piecesState i) :
      Noted torrent state state' msg []
  | interested (hstate : state' = (state.note torrent.pieces.length msg).setInterested true)
      (hwhy : state.localState.interested = false ∨ msg.type = .msgBitfield) :
      Noted torrent state state' msg [.interested]

theorem processMsg_speaks (verify : Session → UInt32 → Except Crash Bool) {s : Session}
    (h : s.Accounted) (hsend : s.sock.SendReliable) {msg : PeerMsg} (hmsg : msg.type ≠ .msgPiece)
    (hrange : msg.InRange s.torrent.pieces.length) :
    ∃ s' msgs, processMsg verify s msg = .ok s' ∧ Speaks s s' msgs ∧
      Noted s.torrent s.state s'.state msg msgs := by
  cases msg with
  | piece msg => exact absurd rfl hmsg
  | haveMsg index =>
      obtain ⟨s', heq, ⟨hspeaks, hstate⟩ | ⟨hwhy, hspeaks, hstate⟩⟩ :=
        processHave_speaks h hsend hrange
      · exact ⟨s', [], heq, hspeaks, .silent hstate nofun⟩
      · exact ⟨s', _, heq, hspeaks, .interested hstate (.inl hwhy)⟩
  | bitfield bits =>
      obtain ⟨s', heq, ⟨hlacks, hspeaks, hstate⟩ | ⟨hspeaks, hstate⟩⟩ :=
        processBitfield_speaks h hsend hrange
      · refine ⟨s', [], heq, hspeaks, .silent hstate ?_⟩
        rintro _ ⟨⟩
        exact hlacks
      · exact ⟨s', _, heq, hspeaks, .interested hstate (.inr rfl)⟩
  | _ => exact ⟨_, [], rfl, (Speaks.refl s).state _, .silent rfl nofun⟩

section

variable {torrent : TorrentInfo} {state state' : ConnState} {msg : PeerMsg} {msgs : List PeerMsg}

theorem Noted.sent_cases (h : Noted torrent state state' msg msgs) :
    msgs = [] ∨ msgs = [.interested] := by
  cases h with
  | silent => exact .inl rfl
  | interested => exact .inr rfl

theorem Noted.localRequests (h : Noted torrent state state' msg msgs) :
    state'.localRequests = state.localRequests := by
  have hnote : ∀ n, (state.note n msg).localRequests = state.localRequests := by
    intro n
    cases msg <;> rfl
  cases h with
  | silent hstate => rw [hstate, hnote]
  | interested hstate => rw [hstate, ConnState.setInterested, hnote]

end

/-! ### Requests -/

theorem requestBlocks_speaks (r : PieceRequest) (blocks : List BlockRequest) {s : Session}
    (hsend : s.sock.SendReliable) :
    ∃ s', requestBlocks r.pieceIndex blocks s = .ok (true, s') ∧
      Speaks s s' (blocks.map r.ask) ∧ s'.state = s.state := by
  induction blocks generalizing s with
  | nil => exact ⟨s, rfl, Speaks.refl s, rfl⟩
  | cons block blocks ih =>
      obtain ⟨t, heq, hspeaks, hstate⟩ := msgSend_speaks hsend
        (show PeerMsg.Streamed s.torrent (r.ask block) from trivial)
      obtain ⟨s', heq', hspeaks', hstate'⟩ := ih (hspeaks.reliable hsend)
      refine ⟨s', ?_, hspeaks.trans hspeaks', hstate'.trans hstate⟩
      change s.msgSend (r.ask block) >>= _ = _
      rw [heq, ok_bind]
      exact heq'

/-- The session in which piece `i` has just been requested, and nothing sent. -/
def Session.asking (s : Session) (i : ℕ) : Session :=
  { s with
    torrent := s.torrent.setState i .stateRequested
    state := { s.state with
      localRequests := [pieceRequestCreate s.torrent.layout (UInt32.ofNat i)] } }

/-- What a round of the thread comes to, before it is seen whether the download
is complete. -/
inductive RoundStep (s s' : Session) : Prop
  | rests (h : s' = s) (hwhy : s.state.peerRequests ≠ [] ∨ s.state.localState.choked = true ∨
      s.state.localState.interested = false ∨ s.state.localRequests ≠ [])
  | losesInterest (hchoked : s.state.localState.choked = false)
      (hnone : s.state.localRequests = [])
      (hlacks : ∀ i : ℕ, s.state.peerHave[i]? = some true → ¬ Lacks s.torrent.sh.piecesState i)
      (hspeaks : Speaks s s' [.notInterested]) (hstate : s'.state = s.state.setInterested false)
  | asks (i : ℕ) (hchoked : s.state.localState.choked = false)
      (hinterested : s.state.localState.interested = true)
      (hnone : s.state.localRequests = []) (hpeer : s.state.peerHave[i]? = some true)
      (hlacks : Lacks s.torrent.sh.piecesState i)
      (hspeaks : Speaks (s.asking i) s'
        ((pieceRequestCreate s.torrent.layout (UInt32.ofNat i)).blockRequests.map
          (pieceRequestCreate s.torrent.layout (UInt32.ofNat i)).ask))
      (hstate : s'.state = (s.asking i).state)

theorem sendRequests_speaks {s : Session} (h : s.Accounted) (hsend : s.sock.SendReliable)
    (hchoked : s.state.localState.choked = false)
    (hinterested : s.state.localState.interested = true) :
    ∃ s', sendRequests s = .ok (true, s') ∧ RoundStep s s' := by
  by_cases hnone : s.state.localRequests = []
  swap
  · exact ⟨s, sendRequests_outstanding h hnone, .rests rfl (.inr (.inr (.inr hnone)))⟩
  rw [sendRequests, hnone, List.length_nil, requestCount_zero, if_neg (by decide),
    Int.toNat_one, requestLoop]
  rcases torrentNextRequest_of_length h.torrent.length h.peerHave with ⟨i, heq, hi⟩ | ⟨heq, hno⟩
  · have hcandidate : s.state.peerHave[i]? = some true ∧ Lacks s.torrent.sh.piecesState i := by
      rcases hi with hi | ⟨-, hi⟩
      · exact ⟨hi.1.2, _, hi.1.1, by decide⟩
      · exact ⟨hi.1.2, _, hi.1.1, by decide⟩
    obtain ⟨s', hblocks, hspeaks, hstate⟩ := requestBlocks_speaks
      (pieceRequestCreate s.torrent.layout (UInt32.ofNat i))
      (pieceRequestCreate s.torrent.layout (UInt32.ofNat i)).blockRequests (s := s.asking i) hsend
    have hlayout : (s.torrent.setState i .stateRequested).layout = s.torrent.layout := rfl
    simp only [heq, ok_bind, hlayout, hnone, List.nil_append]
    rw [Session.asking] at hblocks
    rw [hblocks, ok_bind, if_pos rfl, requestLoop, ok_bind]
    refine ⟨s', ?_, .asks i hchoked hinterested hnone hcandidate.1 hcandidate.2 hspeaks hstate⟩
    simp
  · obtain ⟨s', hshow, hspeaks, hstate⟩ := showNotInterested_speaks hsend
    simp only [heq, ok_bind, hinterested, true_and, if_true, hshow]
    refine ⟨s', rfl, .losesInterest hchoked hnone (fun i hi => ?_) hspeaks hstate⟩
    rintro ⟨state, hlacks, hne⟩
    exact hno state hne i ⟨hlacks, hi⟩

/-- **A round of the thread.** It rests, loses interest or asks for a piece, and the
connection ends when the download is complete. -/
theorem connectionRound_speaks {s : Session} (h : s.Accounted) (hsend : s.sock.SendReliable) :
    ∃ s', RoundStep s s' ∧
      connectionRound s = .ok (if s.torrent.sh.completed then s'.hangUp else .connected s') := by
  have hrequests : ∃ s', (if s.state.peerRequests.length = 0 ∧ ¬ s.state.localState.choked ∧
      s.state.localState.interested then sendRequests s else .ok (true, s)) = .ok (true, s') ∧
        RoundStep s s' := by
    split
    · rename_i heligible
      exact sendRequests_speaks h hsend (by simpa using heligible.2.1) heligible.2.2
    · rename_i hidle
      refine ⟨s, rfl, .rests rfl ?_⟩
      rw [List.length_eq_zero_iff] at hidle
      cases hchoked : s.state.localState.choked <;>
        cases hinterested : s.state.localState.interested <;> simp_all
  obtain ⟨s', heq, hstep⟩ := hrequests
  have hcompleted : s'.torrent.sh.completed = s.torrent.sh.completed := by
    cases hstep with
    | rests h => rw [h]
    | losesInterest hchoked hnone hlacks hspeaks hstate => rw [hspeaks.torrent]
    | asks i hchoked hinterested hnone hpeer hlacks hspeaks hstate =>
        rw [hspeaks.torrent]
        rfl
  refine ⟨s', hstep, ?_⟩
  rw [connectionRound, heq]
  simp only [ok_bind, true_and, hcompleted]
  cases s.torrent.sh.completed <;> rfl

/-- **The beginning of a connection.** A bit field and an UNCHOKE message go out, and
the peer is taken to have nothing. -/
theorem connectionStart_speaks {torrent : TorrentInfo} (h : torrent.Accounted) (disk : Disk)
    (log : List Event) {sock : Socket} (hsend : sock.SendReliable) :
    ∃ s, connectionStart torrent disk log sock = .ok (.connected s) ∧ s.Accounted ∧
      s.torrent = torrent ∧ s.disk = disk ∧
      SendStep sock s.sock ([PeerMsg.bitfield (List.replicate torrent.pieces.length false),
        .unchoke].flatMap (PeerMsg.wire torrent)) ∧
      s.state.localState = ⟨true, false⟩ ∧ s.state.peerRequests = [] ∧
      s.state.localRequests = [] ∧
      s.state.peerHave = List.replicate torrent.pieces.length false := by
  obtain ⟨c, heq, hgoes⟩ := connectionStart_spec h disk log sock fun _ => False
  obtain ⟨bits, hbits, -⟩ := torrentMakeBitfield_spec h
  obtain ⟨state, hinit, hlocal, hpeer, hrequests, hhave⟩ : ∃ state,
      connStateInit torrent = .ok state ∧ state.localState = ⟨true, false⟩ ∧
        state.peerRequests = [] ∧ state.localRequests = [] ∧
        state.peerHave = List.replicate torrent.pieces.length false := by
    rw [connStateInit, hbits, ok_bind]
    exact ⟨_, rfl, rfl, rfl, rfl, rfl⟩
  obtain ⟨t, ht, hspeaks, hstate⟩ := msgSend_speaks (s := ⟨torrent, disk, sock, state, log⟩) hsend
    (show PeerMsg.Streamed torrent (.bitfield (List.replicate torrent.pieces.length false)) from
      List.length_replicate)
  obtain ⟨s, hs, hspeaks', hstate'⟩ := announce_speaks (hspeaks.reliable hsend)
    (show PeerMsg.Streamed t.torrent .unchoke from trivial) fun state =>
      { state with remoteState := { state.remoteState with choked := false } }
  have hstart : connectionStart torrent disk log sock = .ok (.connected s) := by
    have hunchoke : unchoke t = .ok s := hs
    rw [connectionStart, hinit, ok_bind, ht, ok_bind, if_pos rfl, hunchoke, ok_bind]
  cases heq.symm.trans hstart
  have hall := hspeaks.trans hspeaks'
  refine ⟨s, hstart, hgoes.accounted, hall.torrent, hall.disk, hall.sock, ?_⟩
  rw [hstate', hstate]
  exact ⟨hlocal, hpeer, hrequests, hhave⟩

end Daobell
