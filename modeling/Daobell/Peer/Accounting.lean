import Daobell.Peer.Connection
import Daobell.Peer.MessageStream
import Daobell.Torrent.Selection

/-!
The books of a download. `pieces_left` counts the pieces that are not there,
`completed` says that there are none of these, and each connection has at most
one request outstanding, for a piece that is marked as requested. No step of a
thread breaks this, so that no assert on it fails, and no step takes back a
piece that is there.
-/

namespace Daobell

open Lib

/-! ### The torrent -/

def TorrentInfo.Has (torrent : TorrentInfo) (i : ℕ) : Prop :=
  torrent.sh.piecesState[i]? = some .stateHave

/-- The books are right. As long as the download is not complete, all the files
are mapped. -/
structure TorrentInfo.Accounted (torrent : TorrentInfo) : Prop where
  length : torrent.sh.piecesState.length = torrent.pieces.length
  left : torrent.sh.piecesLeft = torrent.sh.piecesState.countP (· ≠ .stateHave)
  completed : torrent.sh.completed = true ↔
    torrent.sh.piecesLeft = 0 ∧ 0 < torrent.pieces.length
  mapped : torrent.sh.completed = false → ∀ f ∈ torrent.files, f.mapped = true

/-- What may happen to a torrent: pieces stay when they are there, and only
those that `P` allows come to be there. -/
structure Advances (P : ℕ → Prop) (torrent torrent' : TorrentInfo) : Prop where
  pieces : torrent'.pieces = torrent.pieces
  layout : torrent'.layout = torrent.layout
  place : torrent'.place = torrent.place
  stays : ∀ i, torrent.Has i → torrent'.Has i
  gained : ∀ i, torrent'.Has i → torrent.Has i ∨ P i

theorem Advances.refl (P : ℕ → Prop) (torrent : TorrentInfo) : Advances P torrent torrent :=
  ⟨rfl, rfl, rfl, fun _ => id, fun _ => .inl⟩

theorem Advances.mono {P Q : ℕ → Prop} {a b : TorrentInfo} (h : Advances P a b)
    (hPQ : ∀ i, P i → Q i) : Advances Q a b :=
  ⟨h.pieces, h.layout, h.place, h.stays, fun i hi => (h.gained i hi).imp_right (hPQ i)⟩

theorem has_setState {torrent : TorrentInfo} {i j : ℕ} {state : PieceState}
    (hi : i < torrent.sh.piecesState.length) :
    (torrent.setState i state).Has j ↔ if i = j then state = .stateHave else torrent.Has j := by
  simp only [TorrentInfo.Has, TorrentInfo.setState, List.getElem?_set, hi, if_true]
  split <;> simp

/-- How many pieces are not there after one of them changes its state. -/
theorem missing_set {states : List PieceState} {i : ℕ} {old : PieceState}
    (hold : states[i]? = some old) (hne : old ≠ .stateHave) (new : PieceState) :
    (states.set i new).countP (· ≠ .stateHave) + 1 =
      states.countP (· ≠ .stateHave) + if new ≠ .stateHave then 1 else 0 := by
  obtain ⟨hi, rfl⟩ := List.getElem?_eq_some_iff.mp hold
  have hpos : 0 < states.countP (· ≠ .stateHave) :=
    List.countP_pos_iff.mpr ⟨_, List.getElem_mem hi, by simpa using hne⟩
  rw [List.countP_set hi, if_pos (by simpa using hne)]
  simp only [decide_eq_true_eq]
  omega

theorem TorrentInfo.Accounted.setState {torrent : TorrentInfo} (h : torrent.Accounted) {i : ℕ}
    {old : PieceState} (hold : torrent.sh.piecesState[i]? = some old) (hne : old ≠ .stateHave)
    {new : PieceState} (hnew : new ≠ .stateHave) :
    (torrent.setState i new).Accounted ∧
      Advances (fun _ => False) torrent (torrent.setState i new) := by
  obtain ⟨hi, rfl⟩ := List.getElem?_eq_some_iff.mp hold
  constructor
  · refine ⟨?_, ?_, h.completed, h.mapped⟩
    · rw [TorrentInfo.setState, List.length_set]
      exact h.length
    · have hcount := missing_set hold hne new
      rw [if_pos hnew] at hcount
      exact h.left.trans (Nat.add_right_cancel hcount).symm
  · refine ⟨rfl, rfl, rfl, fun j hj => ?_, fun j hj => ?_⟩
    · rw [has_setState hi]
      split
      · rename_i heq
        subst heq
        rw [TorrentInfo.Has, hold, Option.some.injEq] at hj
        exact absurd hj hne
      · exact hj
    · rw [has_setState hi] at hj
      split at hj
      · exact absurd hj hnew
      · exact .inl hj

theorem TorrentInfo.Accounted.mapped_of_requested {torrent : TorrentInfo} (h : torrent.Accounted)
    {i : ℕ} (hi : torrent.sh.piecesState[i]? = some .stateRequested) :
    ∀ f ∈ torrent.files, f.mapped = true := by
  obtain ⟨hlt, hstate⟩ := List.getElem?_eq_some_iff.mp hi
  have hpos : 0 < torrent.sh.piecesLeft := by
    rw [h.left]
    exact List.countP_pos_iff.mpr ⟨_, List.getElem_mem hlt, by rw [hstate]; decide⟩
  refine h.mapped ?_
  rw [← Bool.not_eq_true, h.completed]
  omega

theorem layout_torrentComplete (torrent : TorrentInfo) :
    (torrentComplete torrent).layout = torrent.layout := by
  have hsizes : (torrent.files.map DnldFile.complete).map (fun f => f.size.toNat) =
      torrent.files.map fun f => f.size.toNat := by
    rw [List.map_map]
    refine List.map_congr_left fun f _ => ?_
    simp only [Function.comp_apply, DnldFile.complete]
    split <;> rfl
  simp only [TorrentInfo.layout, torrentComplete, hsizes]

theorem place_torrentComplete (torrent : TorrentInfo) :
    (torrentComplete torrent).place = torrent.place := by
  funext p
  have hfile : (torrentComplete torrent).files[p.1]? = torrent.files[p.1]?.map DnldFile.complete :=
    List.getElem?_map
  rw [TorrentInfo.place, TorrentInfo.place, hfile]
  cases torrent.files[p.1]? with
  | none => rfl
  | some f =>
      rw [Option.map_some, DnldFile.complete]
      dsimp only
      split <;> rfl

theorem TorrentInfo.Accounted.countPiece {torrent : TorrentInfo} (h : torrent.Accounted) {i : ℕ}
    {old : PieceState} (hold : torrent.sh.piecesState[i]? = some old) (hne : old ≠ .stateHave) :
    (torrent.countPiece i).sh.piecesLeft =
        (torrent.countPiece i).sh.piecesState.countP (· ≠ .stateHave) ∧
      (torrent.countPiece i).sh.piecesLeft + 1 = torrent.sh.piecesLeft ∧
      Advances (· = i) torrent (torrent.countPiece i) ∧ (torrent.countPiece i).Has i := by
  have hi := (List.getElem?_eq_some_iff.mp hold).1
  have hmissing := missing_set hold hne .stateHave
  rw [if_neg (by simp), ← h.left, Nat.add_zero] at hmissing
  have hle : torrent.sh.piecesLeft ≤ torrent.pieces.length := by
    rw [h.left, ← h.length]
    exact List.countP_le_length
  have hbound := torrent.pieces_le
  have hleft : (torrent.countPiece i).sh.piecesLeft = torrent.sh.piecesLeft - 1 :=
    subUnsigned_of_le (by omega) (by omega)
  have hmark : ∀ j, (torrent.countPiece i).Has j ↔ i = j ∨ torrent.Has j := by
    intro j
    simp only [TorrentInfo.Has, TorrentInfo.countPiece, List.getElem?_set, hi, if_true]
    by_cases hij : i = j <;> simp [hij]
  refine ⟨?_, by omega, ⟨rfl, rfl, rfl, fun j hj => (hmark j).mpr (.inr hj),
    fun j hj => ((hmark j).mp hj).symm.imp_right Eq.symm⟩, (hmark i).mpr (.inl rfl)⟩
  rw [hleft]
  exact (Nat.eq_sub_of_add_eq hmissing).symm

/-- **A piece has come.** The assert on `pieces_left` holds, and a piece that
was not there is now. -/
theorem TorrentInfo.Accounted.gotPiece {torrent : TorrentInfo} (h : torrent.Accounted) {i : ℕ}
    {old : PieceState} (hold : torrent.sh.piecesState[i]? = some old) (hne : old ≠ .stateHave) :
    ∃ torrent', torrent.gotPiece i = .ok torrent' ∧ torrent'.Accounted ∧
      Advances (· = i) torrent torrent' ∧ torrent'.Has i ∧
      torrent'.sh.piecesLeft + 1 = torrent.sh.piecesLeft := by
  obtain ⟨hleft, hcount, hadvances, hhas⟩ := h.countPiece hold hne
  have hi := (List.getElem?_eq_some_iff.mp hold).1
  have hn : 0 < torrent.pieces.length := h.length ▸ Nat.zero_lt_of_lt hi
  have hlen : (torrent.countPiece i).sh.piecesState.length = torrent.pieces.length := by
    rw [← h.length]
    exact List.length_set
  have hless : (torrent.countPiece i).sh.piecesLeft < (torrent.countPiece i).pieces.length := by
    have hle : torrent.sh.piecesLeft ≤ torrent.pieces.length := by
      rw [h.left, ← h.length]
      exact List.countP_le_length
    rw [hadvances.pieces]
    omega
  rw [TorrentInfo.gotPiece, hold]
  simp only [if_neg hne]
  rw [if_neg (not_not.mpr hless)]
  by_cases h0 : (torrent.countPiece i).sh.piecesLeft = 0
  -- that was the last one
  · rw [if_pos h0]
    refine ⟨_, rfl, ⟨hlen, hleft, ?_, by simp [torrentComplete]⟩, ?_, hhas, hcount⟩
    · exact iff_of_true rfl ⟨h0, hn⟩
    · exact ⟨hadvances.pieces, layout_torrentComplete _, place_torrentComplete _, hadvances.stays,
        hadvances.gained⟩
  · rw [if_neg h0]
    have hnot : torrent.sh.completed = false := by
      rw [← Bool.not_eq_true, h.completed]
      omega
    refine ⟨_, rfl, ⟨hlen, hleft, ?_, h.mapped⟩, hadvances, hhas, hcount⟩
    exact iff_of_false (by simp [TorrentInfo.countPiece, hnot]) (fun hcontra => h0 hcontra.1)

/-! ### The next request -/

/-- The asserts of `torrent_next_request` hold, and what it finds is a piece
that is not there. -/
theorem torrentNextRequest_spec {torrent : TorrentInfo} (h : torrent.Accounted)
    {peerHave : List Bool} (hhave : peerHave.length = torrent.pieces.length) :
    torrentNextRequest torrent peerHave = .ok none ∨
      ∃ i old, torrentNextRequest torrent peerHave =
          .ok (some (i, torrent.setState i .stateRequested)) ∧
        torrent.sh.piecesState[i]? = some old ∧ old ≠ .stateHave := by
  rcases torrentNextRequest_of_length h.length hhave with ⟨i, heq, hi | ⟨-, hi⟩⟩ | ⟨heq, -⟩
  · exact .inr ⟨i, _, heq, hi.1.1, by decide⟩
  · exact .inr ⟨i, _, heq, hi.1.1, by decide⟩
  · exact .inl heq

/-! ### The session -/

structure Session.Accounted (s : Session) : Prop where
  torrent : s.torrent.Accounted
  peerHave : s.state.peerHave.length = s.torrent.pieces.length
  localHave : s.state.localHave.length = s.torrent.pieces.length
  outstanding : s.state.localRequests.length ≤ 1
  requested : ∀ r ∈ s.state.localRequests,
    s.torrent.sh.piecesState[r.pieceIndex.toNat]? = some .stateRequested

/-- What sending a message leaves alone, together with the notes in the state
that it goes with. -/
structure Frame (s s' : Session) : Prop where
  torrent : s'.torrent = s.torrent
  disk : s'.disk = s.disk
  peerHave : s'.state.peerHave = s.state.peerHave
  localHave : s'.state.localHave = s.state.localHave
  localRequests : s'.state.localRequests = s.state.localRequests

theorem Frame.refl (s : Session) : Frame s s := ⟨rfl, rfl, rfl, rfl, rfl⟩

theorem Frame.trans {a b c : Session} (h₁ : Frame a b) (h₂ : Frame b c) : Frame a c :=
  ⟨h₂.torrent.trans h₁.torrent, h₂.disk.trans h₁.disk, h₂.peerHave.trans h₁.peerHave,
    h₂.localHave.trans h₁.localHave, h₂.localRequests.trans h₁.localRequests⟩

theorem Session.Accounted.frame {s s' : Session} (h : s.Accounted) (hframe : Frame s s') :
    s'.Accounted := by
  obtain ⟨htorrent, -, hpeer, hlocal, hrequests⟩ := hframe
  exact ⟨htorrent ▸ h.torrent, by rw [hpeer, htorrent, h.peerHave],
    by rw [hlocal, htorrent, h.localHave], by rw [hrequests]; exact h.outstanding,
    by rw [hrequests, htorrent]; exact h.requested⟩

/-- What a step of a thread does: the books stay right, the torrent goes on, and
the files keep what they hold. -/
structure Session.Goes (P : ℕ → Prop) (s s' : Session) : Prop where
  accounted : s'.Accounted
  advances : Advances P s.torrent s'.torrent
  disk : s'.disk = s.disk

theorem Session.Accounted.goes {s s' : Session} (h : s.Accounted) (hframe : Frame s s')
    (P : ℕ → Prop) : s.Goes P s' :=
  ⟨h.frame hframe, hframe.torrent ▸ Advances.refl P s.torrent, hframe.disk⟩

theorem Session.Goes.frame {P : ℕ → Prop} {s t s' : Session} (h : s.Goes P t) (hframe : Frame t s') :
    s.Goes P s' :=
  ⟨h.accounted.frame hframe, hframe.torrent ▸ h.advances, hframe.disk.trans h.disk⟩

theorem frame_sent (s : Session) (msg : PeerMsg) (ok : Bool) (sock : Socket) :
    Frame s (s.sent msg ok sock) := ⟨rfl, rfl, rfl, rfl, rfl⟩

/-- `peer_msg_send` never stops the program on these messages. -/
theorem msgSend_spec (s : Session) (msg : PeerMsg) (h : msg.Streamed s.torrent) :
    ∃ ok sock bytes, s.msgSend msg = .ok (ok, s.sent msg ok sock) ∧ SendStep s.sock sock bytes ∧
      (ok = true → bytes = msg.wire s.torrent) ∧ (s.sock.SendReliable → ok = true) := by
  obtain ⟨ok, sock, bytes, heq, hstep, hok, hrel⟩ := peerMsgSend_sends s.sock s.torrent s.disk h
  refine ⟨ok, sock, bytes, ?_, hstep, fun h => (hok h).2, fun h => hrel h trivial⟩
  rw [Session.msgSend, heq, ok_bind]

theorem announce_spec (s : Session) (msg : PeerMsg) (h : msg.Streamed s.torrent)
    {note : ConnState → ConnState} (hpeer : ∀ state, (note state).peerHave = state.peerHave)
    (hlocal : ∀ state, (note state).localHave = state.localHave)
    (hrequests : ∀ state, (note state).localRequests = state.localRequests) :
    ∃ s', s.announce msg note = .ok s' ∧ Frame s s' := by
  obtain ⟨ok, sock, bytes, heq, -⟩ := msgSend_spec s msg h
  rw [Session.announce, heq, ok_bind]
  cases ok with
  | false => exact ⟨_, rfl, frame_sent s _ _ _⟩
  | true => exact ⟨_, rfl, ⟨rfl, rfl, hpeer _, hlocal _, hrequests _⟩⟩

theorem unchoke_spec (s : Session) : ∃ s', unchoke s = .ok s' ∧ Frame s s' :=
  announce_spec s .unchoke trivial (fun _ => rfl) (fun _ => rfl) fun _ => rfl

theorem showInterested_spec (s : Session) : ∃ s', showInterested s = .ok s' ∧ Frame s s' :=
  announce_spec s .interested trivial (fun _ => rfl) (fun _ => rfl) fun _ => rfl

theorem showNotInterested_spec (s : Session) :
    ∃ s', showNotInterested s = .ok s' ∧ Frame s s' :=
  announce_spec s .notInterested trivial (fun _ => rfl) (fun _ => rfl) fun _ => rfl

/-! ### A piece that has come -/

/-- What the check of an outstanding piece does: hash it, and mark it as there or
as not requested. -/
structure Checked (s s' : Session) (index : UInt32) (valid : Bool) : Prop where
  state : s'.state = s.state
  disk : s'.disk = s.disk
  accounted : s'.torrent.Accounted
  advances : Advances (fun i => i = index.toNat ∧ valid = true) s.torrent s'.torrent
  verified : valid = true → s'.torrent.Has index.toNat ∧
    s'.torrent.sh.piecesLeft + 1 = s.torrent.sh.piecesLeft ∧
    ∃ ok bytes, s'.log = s.log ++ [.sha1Verify index true, .msgSend (.haveMsg index) ok] ∧
      SendStep s.sock s'.sock bytes ∧
      (ok = true → bytes = (PeerMsg.haveMsg index).wire s'.torrent) ∧
      (s.sock.SendReliable → ok = true)
  failed : valid = false → s'.sock = s.sock ∧
    s'.torrent.sh.piecesState[index.toNat]? = some .stateNotRequested ∧
    s'.torrent.sh.piecesLeft = s.torrent.sh.piecesLeft ∧
    s'.log = s.log ++ [.sha1Verify index false]

theorem pieceReceived_spec (verify : Session → UInt32 → Except Crash Bool) {s : Session}
    {index : UInt32} (h : s.torrent.Accounted)
    (hrequested : s.torrent.sh.piecesState[index.toNat]? = some .stateRequested) {valid : Bool}
    (hvalid : verify s index = .ok valid) :
    ∃ s', pieceReceived verify s index = .ok s' ∧ Checked s s' index valid := by
  have hi := (List.getElem?_eq_some_iff.mp hrequested).1
  rw [pieceReceived, hvalid, ok_bind]
  cases valid with
  | false =>
      obtain ⟨haccounted, hadvances⟩ := h.setState hrequested (by decide)
        (show PieceState.stateNotRequested ≠ .stateHave by decide)
      simp only [Bool.false_eq_true, if_false, if_pos hi]
      refine ⟨_, rfl, rfl, rfl, haccounted, hadvances.mono fun _ => False.elim, by simp, fun _ => ?_⟩
      exact ⟨rfl, by simp [TorrentInfo.setState, hi], rfl, rfl⟩
  | true =>
      obtain ⟨torrent, heq, haccounted, hadvances, hhas, hleft⟩ :=
        h.gotPiece hrequested (by decide)
      simp only [if_true, handlePieceDnldCompletion]
      rw [if_neg (not_not.mpr (h.length ▸ hi)), heq, ok_bind]
      obtain ⟨ok, sock, bytes, hsend, hstep, hok, hrel⟩ := msgSend_spec
        { s with torrent := torrent, log := s.log ++ [.sha1Verify index true] }
        (.haveMsg index) trivial
      rw [hsend, ok_bind]
      refine ⟨_, rfl, rfl, rfl, haccounted, hadvances.mono fun _ h => ⟨h, rfl⟩, fun _ => ?_, by simp⟩
      exact ⟨hhas, hleft, ok, bytes, by simp [Session.sent], hstep, hok, hrel⟩

section

variable {verify : Session → UInt32 → Except Crash Bool} {msg : PieceMsg} {s : Session}
  {requests : List PieceRequest} {p : ℕ}

/-- Behind the last request the loop ends. -/
theorem processPieceLoop_none (h : requests[p]? = none) :
    processPieceLoop verify msg s requests p =
      .ok { s with state := { s.state with localRequests := requests } } := by
  rw [processPieceLoop]
  split
  · rfl
  · rename_i hsome
    cases h.symm.trans hsome

/-- A turn of the loop. -/
theorem processPieceLoop_some {request : PieceRequest} (h : requests[p]? = some request) :
    processPieceLoop verify msg s requests p =
      if request.pieceIndex ≠ msg.index then processPieceLoop verify msg s requests (p + 1)
      else if (request.receive msg).blocksLeft ≠ 0 then
        processPieceLoop verify msg s (requests.set p (request.receive msg)) (p + 1)
      else
        pieceReceived verify s (request.receive msg).pieceIndex >>= fun s =>
        processPieceLoop verify msg s (requests.eraseIdx p)
          (if p < (requests.eraseIdx p).length then p + 1 else 0) := by
  rw [processPieceLoop]
  split
  · rename_i hnone
    cases h.symm.trans hnone
  · rename_i found hfound
    cases h.symm.trans hfound
    refine if_congr Iff.rfl rfl (if_congr Iff.rfl rfl ?_)
    cases pieceReceived verify s (request.receive msg).pieceIndex <;> rfl

end

theorem processPieceLoop_nil (verify : Session → UInt32 → Except Crash Bool) (msg : PieceMsg)
    (s : Session) (p : ℕ) :
    processPieceLoop verify msg s [] p =
      .ok { s with state := { s.state with localRequests := [] } } :=
  processPieceLoop_none rfl

/-- With one request outstanding, the loop looks at it once. -/
theorem processPieceLoop_singleton (verify : Session → UInt32 → Except Crash Bool)
    (msg : PieceMsg) (s : Session) (request : PieceRequest) :
    processPieceLoop verify msg s [request] 0 =
      if request.pieceIndex ≠ msg.index then
        .ok { s with state := { s.state with localRequests := [request] } }
      else if (request.receive msg).blocksLeft ≠ 0 then
        .ok { s with state := { s.state with localRequests := [request.receive msg] } }
      else
        pieceReceived verify s (request.receive msg).pieceIndex >>= fun s =>
        .ok { s with state := { s.state with localRequests := [] } } := by
  have hend : ∀ r : PieceRequest, processPieceLoop verify msg s [r] 1 =
      .ok { s with state := { s.state with localRequests := [r] } } :=
    fun r => processPieceLoop_none rfl
  rw [processPieceLoop_some (p := 0) (show [request][0]? = some request from rfl)]
  simp only [Nat.zero_add, List.set_cons_zero, List.eraseIdx_cons_zero, hend, processPieceLoop_nil]

theorem pieceIndex_receive (request : PieceRequest) (msg : PieceMsg) :
    (request.receive msg).pieceIndex = request.pieceIndex := by
  rw [PieceRequest.receive]
  split <;> rfl

/-- The pieces that a message may bring: those that the check finds valid. -/
def FoundValid (verify : Session → UInt32 → Except Crash Bool) (s : Session) (i : ℕ) : Prop :=
  ∃ index : UInt32, index.toNat = i ∧ verify s index = .ok true

/-- A session with other requests, when these are in order. -/
theorem Session.Goes.requests {P : ℕ → Prop} {s t : Session} (haccounted : t.torrent.Accounted)
    (hadvances : Advances P s.torrent t.torrent) (hdisk : t.disk = s.disk)
    (hstate : t.state = s.state) (h : s.Accounted) {requests : List PieceRequest}
    (hone : requests.length ≤ 1)
    (hrequested : ∀ r ∈ requests,
      t.torrent.sh.piecesState[r.pieceIndex.toNat]? = some .stateRequested) :
    s.Goes P { t with state := { t.state with localRequests := requests } } := by
  refine ⟨⟨haccounted, ?_, ?_, hone, hrequested⟩, hadvances, hdisk⟩
  · simp only [hstate, hadvances.pieces, h.peerHave]
  · simp only [hstate, hadvances.pieces, h.localHave]

def CheckStops (verify : Session → UInt32 → Except Crash Bool) (s : Session) (c : Crash) : Prop :=
  ∃ index : UInt32, s.torrent.sh.piecesState[index.toNat]? = some .stateRequested ∧
    verify s index = .error c

/-- **A PIECE message.** The books stay right, or the check stops the program. -/
theorem processPieceMsg_spec (verify : Session → UInt32 → Except Crash Bool) {s : Session}
    (h : s.Accounted) (msg : PieceMsg) :
    (∃ s', processPieceMsg verify s msg = .ok s' ∧ s.Goes (FoundValid verify s) s') ∨
      ∃ c, processPieceMsg verify s msg = .error c ∧ CheckStops verify s c := by
  have hrefl := Advances.refl (FoundValid verify s) s.torrent
  rw [processPieceMsg]
  rcases hrequests : s.state.localRequests with _ | ⟨request, _ | ⟨_, _⟩⟩
  · rw [processPieceLoop_nil]
    exact .inl ⟨_, rfl, .requests h.torrent hrefl rfl rfl h (by simp) (by simp)⟩
  · have hrequested := h.requested request (by simp [hrequests])
    rw [processPieceLoop_singleton, pieceIndex_receive]
    split
    · exact .inl ⟨_, rfl, .requests h.torrent hrefl rfl rfl h (by simp) (by simpa using hrequested)⟩
    split
    · refine .inl ⟨_, rfl, .requests h.torrent hrefl rfl rfl h (by simp) ?_⟩
      simpa [pieceIndex_receive] using hrequested
    · cases hverify : verify s request.pieceIndex with
      | error c =>
          refine .inr ⟨c, ?_, _, hrequested, hverify⟩
          rw [pieceReceived, hverify, error_bind, error_bind]
      | ok valid =>
          obtain ⟨t, heq, hchecked⟩ := pieceReceived_spec verify h.torrent hrequested hverify
          rw [heq, ok_bind]
          refine .inl ⟨_, rfl, .requests hchecked.accounted ?_ hchecked.disk hchecked.state h
            (by simp) (by simp)⟩
          refine hchecked.advances.mono ?_
          rintro _ ⟨rfl, rfl⟩
          exact ⟨request.pieceIndex, rfl, hverify⟩
  · have hone := h.outstanding
    simp [hrequests] at hone

/-- What becomes of a PIECE message: nothing, or it counts down the one request
that is outstanding, and when nothing is left of it the piece is checked. -/
theorem processPieceMsg_cases {verify : Session → UInt32 → Except Crash Bool} {s s' : Session}
    (h : s.Accounted) {msg : PieceMsg} (heq : processPieceMsg verify s msg = .ok s') :
    (∀ r ∈ s.state.localRequests, r.pieceIndex ≠ msg.index) ∧ s' = s ∨
      ∃ r, s.state.localRequests = [r] ∧ r.pieceIndex = msg.index ∧
        ((r.receive msg).blocksLeft ≠ 0 ∧
            s' = { s with state := { s.state with localRequests := [r.receive msg] } } ∨
          (r.receive msg).blocksLeft = 0 ∧ ∃ valid t, Checked s t r.pieceIndex valid ∧
            s' = { t with state := { t.state with localRequests := [] } }) := by
  rw [processPieceMsg] at heq
  rcases hrequests : s.state.localRequests with _ | ⟨request, _ | ⟨_, _⟩⟩
  · rw [hrequests, processPieceLoop_nil, ← hrequests] at heq
    cases heq
    exact .inl ⟨by simp, rfl⟩
  · have hrequested := h.requested request (by simp [hrequests])
    rw [hrequests, processPieceLoop_singleton, pieceIndex_receive] at heq
    split at heq
    · rename_i hindex
      rw [← hrequests] at heq
      cases heq
      exact .inl ⟨by simpa using hindex, rfl⟩
    rename_i hindex
    refine .inr ⟨request, rfl, not_not.mp hindex, ?_⟩
    split at heq
    · rename_i hleft
      cases heq
      exact .inl ⟨hleft, rfl⟩
    rename_i hleft
    obtain ⟨t, ht, hs'⟩ := bind_eq_ok.mp heq
    obtain ⟨valid, hvalid, -⟩ := bind_eq_ok.mp ht
    obtain ⟨t', ht', hchecked⟩ := pieceReceived_spec verify h.torrent hrequested hvalid
    cases ht.symm.trans ht'
    cases hs'
    exact .inr ⟨not_not.mp hleft, valid, t, hchecked, rfl⟩
  · have hone := h.outstanding
    simp [hrequests] at hone

/-! ### The other messages -/

def Lacks (states : List PieceState) (i : ℕ) : Prop :=
  ∃ state, states[i]? = some state ∧ state ≠ .stateHave

/-- The loop finds a piece that the peer has and we lack, if there is one. -/
theorem interestLoop_spec {n : ℕ} {states : List PieceState} {has : List Bool}
    (hstates : states.length = n) (hhas : has.length = n) :
    ∃ interested, interestLoop n states has = .ok interested ∧
      (interested = true ↔ ∃ i : ℕ, has[i]? = some true ∧ Lacks states i) := by
  induction n generalizing states has with
  | zero =>
      have hnil : states = [] := List.length_eq_zero_iff.mp hstates
      exact ⟨false, by rw [interestLoop], by simp [hnil, Lacks]⟩
  | succ n ih =>
      obtain ⟨state, states, rfl⟩ := List.exists_of_length_succ states hstates
      obtain ⟨b, has, rfl⟩ := List.exists_of_length_succ has hhas
      obtain ⟨interested, heq, hiff⟩ := ih (Nat.succ_inj.mp hstates) (Nat.succ_inj.mp hhas)
      -- the first piece decides, or the rest does
      have hcons : (∃ i : ℕ, (b :: has)[i]? = some true ∧ Lacks (state :: states) i) ↔
          b = true ∧ state ≠ .stateHave ∨ ∃ i : ℕ, has[i]? = some true ∧ Lacks states i := by
        constructor
        · rintro ⟨_ | i, hi, hlacks⟩
          · exact .inl (by simpa [Lacks] using And.intro hi hlacks)
          · exact .inr ⟨i, hi, hlacks⟩
        · rintro (⟨rfl, hne⟩ | ⟨i, hi, hlacks⟩)
          · exact ⟨0, rfl, state, rfl, hne⟩
          · exact ⟨i + 1, hi, hlacks⟩
      rw [hcons]
      by_cases hstate : state = .stateHave
      · subst hstate
        exact ⟨interested, heq, by simp [hiff]⟩
      · have hstep : interestLoop (n + 1) (state :: states) (b :: has) =
            if b then .ok true else interestLoop n states has := by
          cases state with
          | stateHave => exact absurd rfl hstate
          | _ => rfl
        rw [hstep]
        cases b with
        | true => exact ⟨true, rfl, by simp [hstate]⟩
        | false => exact ⟨interested, heq, by simp [hiff]⟩

/-- The messages with no piece index out of range; a received bit field has a
bit for every piece. -/
def PeerMsg.InRange (n : ℕ) : PeerMsg → Prop
  | .haveMsg index => index.toNat < n
  | .bitfield bits => n ≤ bits.length
  | _ => True

theorem processBitfield_spec {s : Session} (h : s.Accounted) (bits : List Bool) (P : ℕ → Prop) :
    (∃ s', processBitfield s bits = .ok s' ∧ s.Goes P s') ∨
      processBitfield s bits = .error .outOfRange ∧ bits.length < s.torrent.pieces.length := by
  rw [processBitfield, h.peerHave]
  split
  · rename_i hlt
    exact .inr ⟨rfl, hlt⟩
  · left
    have hlen : (bits.take s.torrent.pieces.length).length = s.torrent.pieces.length := by
      rw [List.length_take]
      omega
    obtain ⟨interested, heq, -⟩ := interestLoop_spec h.torrent.length hlen
    have hgoes : s.Goes P { s with state := { s.state with
        peerHave := bits.take s.torrent.pieces.length } } :=
      ⟨⟨h.torrent, hlen, h.localHave, h.outstanding, h.requested⟩, Advances.refl P _, rfl⟩
    simp only [heq, ok_bind]
    split
    · obtain ⟨s', heq', hframe⟩ := showInterested_spec { s with state := { s.state with
        peerHave := bits.take s.torrent.pieces.length } }
      exact ⟨s', heq', hgoes.frame hframe⟩
    · exact ⟨_, rfl, hgoes⟩

theorem processHave_spec {s : Session} (h : s.Accounted) (index : ℕ) (P : ℕ → Prop) :
    (∃ s', processHave s index = .ok s' ∧ s.Goes P s') ∨
      processHave s index = .error .outOfRange ∧ s.torrent.pieces.length ≤ index := by
  have hset : ∀ t, Frame s t → (∃ s', (if index < t.state.peerHave.length then
        .ok { t with state := { t.state with peerHave := t.state.peerHave.set index true } }
      else .error .outOfRange : Except Crash Session) = .ok s' ∧ s.Goes P s') ∨
      (if index < t.state.peerHave.length then
        .ok { t with state := { t.state with peerHave := t.state.peerHave.set index true } }
      else .error .outOfRange : Except Crash Session) = .error .outOfRange ∧
        s.torrent.pieces.length ≤ index := by
    intro t hframe
    rw [hframe.peerHave, h.peerHave]
    obtain ⟨ht, hadvances, hdisk⟩ := h.goes hframe P
    split
    · refine .inl ⟨_, rfl, ⟨ht.torrent, ?_, ht.localHave, ht.outstanding, ht.requested⟩,
        hadvances, hdisk⟩
      rw [List.length_set, h.peerHave, hframe.torrent]
    · exact .inr ⟨rfl, by omega⟩
  rw [processHave]
  by_cases hinterested : s.state.localState.interested = true
  · simp only [hinterested, if_true, ok_bind]
    exact hset s (Frame.refl s)
  · simp only [hinterested, Bool.false_eq_true, if_false]
    cases hlocal : s.state.localHave[index]? with
    | none =>
        refine .inr ⟨rfl, ?_⟩
        rw [← h.localHave]
        exact List.getElem?_eq_none_iff.mp hlocal
    | some has =>
        cases has with
        | false => exact hset s (Frame.refl s)
        | true =>
            obtain ⟨t, heq, hframe⟩ := showInterested_spec s
            simp only [if_true, heq, ok_bind]
            exact hset t hframe

/-- **What processing a message does.** The books stay right; and the program is
stopped only by the check of a piece or by an index out of range. -/
theorem processMsg_spec (verify : Session → UInt32 → Except Crash Bool) {s : Session}
    (h : s.Accounted) (msg : PeerMsg) :
    (∃ s', processMsg verify s msg = .ok s' ∧ s.Goes (FoundValid verify s) s') ∨
      ∃ c, processMsg verify s msg = .error c ∧
        (CheckStops verify s c ∨ c = .outOfRange ∧ ¬ msg.InRange s.torrent.pieces.length) := by
  cases msg with
  | haveMsg index =>
      refine (processHave_spec h index.toNat _).imp_right fun ⟨heq, hge⟩ => ⟨_, heq, .inr ⟨rfl, ?_⟩⟩
      exact Nat.not_lt.mpr hge
  | bitfield bits =>
      refine (processBitfield_spec h bits _).imp_right fun ⟨heq, hlt⟩ => ⟨_, heq, .inr ⟨rfl, ?_⟩⟩
      exact Nat.not_le.mpr hlt
  | piece msg =>
      rcases processPieceMsg_spec verify h msg with ⟨t, heq, hgoes⟩ | ⟨c, heq, hverify⟩
      · rw [processMsg, heq, ok_bind]
        refine .inl ⟨_, rfl, hgoes.frame ?_⟩
        exact ⟨rfl, rfl, rfl, rfl, rfl⟩
      · exact .inr ⟨c, by rw [processMsg, heq, error_bind], .inl hverify⟩
  | _ =>
      refine .inl ⟨_, rfl, h.goes ?_ _⟩
      exact ⟨rfl, rfl, rfl, rfl, rfl⟩

/-! ### Requests -/

theorem requestBlocks_spec (index : UInt32) (blocks : List BlockRequest) (s : Session) :
    ∃ ok s', requestBlocks index blocks s = .ok (ok, s') ∧ Frame s s' := by
  induction blocks generalizing s with
  | nil => exact ⟨true, s, rfl, Frame.refl s⟩
  | cons block blocks ih =>
      obtain ⟨ok, sock, bytes, heq, -⟩ := msgSend_spec s
        (.request ⟨index, UInt32.ofNat block.begin, UInt32.ofNat block.len⟩) trivial
      rw [requestBlocks, heq, ok_bind]
      cases ok with
      | false => exact ⟨false, _, rfl, frame_sent s _ _ _⟩
      | true =>
          obtain ⟨ok, s', heq', hframe⟩ := ih (s.sent _ true sock)
          exact ⟨ok, s', heq', (frame_sent s _ _ _).trans hframe⟩

/-- A request is for a piece of the torrent, with all its blocks. -/
def Fresh (torrent : TorrentInfo) (r : PieceRequest) : Prop :=
  ∃ index : UInt32, index.toNat < torrent.pieces.length ∧
    r = pieceRequestCreate torrent.layout index

theorem requestLoop_one {s : Session} (h : s.Accounted) (hnone : s.state.localRequests = []) :
    ∃ result s', requestLoop 1 s = .ok (result, s') ∧ s.Goes (fun _ => False) s' ∧
      ∀ r ∈ s'.state.localRequests, Fresh s.torrent r := by
  rw [requestLoop]
  rcases torrentNextRequest_spec h.torrent h.peerHave with heq | ⟨i, old, heq, hold, hne⟩
  · rw [heq, ok_bind]
    exact ⟨_, s, rfl, h.goes (Frame.refl s) _, by simp [hnone]⟩
  · rw [heq, ok_bind]
    obtain ⟨haccounted, hadvances⟩ := h.torrent.setState hold hne
      (show PieceState.stateRequested ≠ .stateHave by decide)
    have hi : i < s.torrent.sh.piecesState.length := (List.getElem?_eq_some_iff.mp hold).1
    have hpieces : i < s.torrent.pieces.length := h.torrent.length ▸ hi
    have hindex : (UInt32.ofNat i).toNat = i := by
      have hle := s.torrent.pieces_le
      exact UInt32.toNat_ofNat_of_lt' (show i < 2 ^ 32 by omega)
    let request := pieceRequestCreate s.torrent.layout (UInt32.ofNat i)
    let t : Session := { s with
      torrent := s.torrent.setState i .stateRequested
      state := { s.state with localRequests := [request] } }
    have hgoes : s.Goes (fun _ => False) t := by
      refine ⟨⟨haccounted, h.peerHave, h.localHave, le_rfl, ?_⟩, hadvances, rfl⟩
      intro r hr
      rw [List.mem_singleton.mp hr]
      simp [t, request, pieceRequestCreate, hindex, TorrentInfo.setState, hi]
    obtain ⟨ok, s', hsend, hframe⟩ := requestBlocks_spec request.pieceIndex request.blockRequests t
    have hfresh : ∀ r ∈ s'.state.localRequests, Fresh s.torrent r := by
      intro r hr
      rw [hframe.localRequests] at hr
      exact ⟨UInt32.ofNat i, by rw [hindex]; exact hpieces, List.mem_singleton.mp hr⟩
    have hstep : requestBlocks request.pieceIndex request.blockRequests { s with
        torrent := s.torrent.setState i .stateRequested
        state := { s.state with localRequests := s.state.localRequests ++ [request] } } =
        .ok (ok, s') := by
      rw [hnone, List.nil_append]
      exact hsend
    have hlayout : (s.torrent.setState i .stateRequested).layout = s.torrent.layout := rfl
    simp only [hlayout, request] at hstep ⊢
    rw [hstep, ok_bind]
    cases ok with
    | false => exact ⟨_, s', rfl, hgoes.frame hframe, hfresh⟩
    | true => exact ⟨_, s', rfl, hgoes.frame hframe, hfresh⟩

theorem requestCount_zero : requestCount 0 = 1 := by decide

theorem sendRequests_outstanding {s : Session} (h : s.Accounted)
    (hne : s.state.localRequests ≠ []) : sendRequests s = .ok (true, s) := by
  have hone : s.state.localRequests.length = 1 :=
    Nat.le_antisymm h.outstanding (List.length_pos_iff.mpr hne)
  rw [sendRequests, hone]
  exact if_pos (by decide)

/-- **Sending requests.** Only with nothing outstanding a request is made, and it
is a fresh one. -/
theorem sendRequests_spec {s : Session} (h : s.Accounted) :
    ∃ ok s', sendRequests s = .ok (ok, s') ∧ s.Goes (fun _ => False) s' ∧
      (s.state.localRequests = [] → ∀ r ∈ s'.state.localRequests, Fresh s.torrent r) := by
  by_cases hnone : s.state.localRequests = []
  · obtain ⟨result, t, heq, hgoes, hfresh⟩ := requestLoop_one h hnone
    rw [sendRequests, hnone, List.length_nil, requestCount_zero, if_neg (by decide),
      Int.toNat_one, heq, ok_bind]
    cases result with
    | none => exact ⟨false, t, rfl, hgoes, fun _ => hfresh⟩
    | some notInterested =>
        dsimp only
        split
        · obtain ⟨s', heq', hframe⟩ := showNotInterested_spec t
          rw [heq', ok_bind]
          exact ⟨true, s', rfl, hgoes.frame hframe, fun _ => hframe.localRequests ▸ hfresh⟩
        · exact ⟨true, t, rfl, hgoes, fun _ => hfresh⟩
  · exact ⟨true, s, sendRequests_outstanding h hnone, h.goes (Frame.refl s) _,
      fun h => absurd h hnone⟩

/-! ### The program -/

def Client.Accounted : Client → Prop
  | .idle torrent _ _ => torrent.Accounted
  | .connected s => s.Accounted

theorem Client.Accounted.torrent {c : Client} (h : c.Accounted) : c.torrent.Accounted := by
  cases c with
  | idle torrent disk log => exact h
  | connected s => exact Session.Accounted.torrent h

structure Client.Goes (P : ℕ → Prop) (c c' : Client) : Prop where
  accounted : c'.Accounted
  advances : Advances P c.torrent c'.torrent
  disk : c'.disk = c.disk

theorem Session.Goes.connected {P : ℕ → Prop} {s s' : Session} (h : s.Goes P s') :
    Client.Goes P (.connected s) (.connected s') := ⟨h.accounted, h.advances, h.disk⟩

theorem Session.Goes.hangUp {P : ℕ → Prop} {s s' : Session} (h : s.Goes P s') :
    Client.Goes P (.connected s) s'.hangUp := ⟨h.accounted.torrent, h.advances, h.disk⟩

theorem torrentMakeBitfield_spec {torrent : TorrentInfo} (h : torrent.Accounted) :
    ∃ bits, torrentMakeBitfield torrent = .ok bits ∧ bits.length = torrent.pieces.length := by
  rw [torrentMakeBitfield, if_pos h.length.ge]
  exact ⟨_, rfl, by rw [List.length_map, ← h.length, List.take_length]⟩

theorem connStateInit_spec {torrent : TorrentInfo} (h : torrent.Accounted) :
    ∃ state, connStateInit torrent = .ok state ∧ state.localRequests = [] ∧
      state.peerHave.length = torrent.pieces.length ∧
      state.localHave.length = torrent.pieces.length := by
  obtain ⟨bits, hbits, hlen⟩ := torrentMakeBitfield_spec h
  rw [connStateInit, hbits, ok_bind]
  exact ⟨_, rfl, rfl, List.length_replicate, hlen⟩

theorem connectionStart_spec {torrent : TorrentInfo} (h : torrent.Accounted) (disk : Disk)
    (log : List Event) (sock : Socket) (P : ℕ → Prop) :
    ∃ c, connectionStart torrent disk log sock = .ok c ∧
      Client.Goes P (.idle torrent disk log) c := by
  obtain ⟨state, hinit, hnone, hpeer, hlocal⟩ := connStateInit_spec h
  have haccounted : Session.Accounted ⟨torrent, disk, sock, state, log⟩ :=
    ⟨h, hpeer, hlocal, by simp [hnone], by simp [hnone]⟩
  obtain ⟨ok, sock', bytes, heq, -⟩ := msgSend_spec ⟨torrent, disk, sock, state, log⟩
    (.bitfield (List.replicate torrent.pieces.length false)) List.length_replicate
  have hsent := haccounted.goes (frame_sent ⟨torrent, disk, sock, state, log⟩
    (.bitfield (List.replicate torrent.pieces.length false)) ok sock') P
  rw [connectionStart, hinit, ok_bind, heq, ok_bind]
  cases ok with
  | false => exact ⟨_, rfl, hsent.accounted.torrent, hsent.advances, hsent.disk⟩
  | true =>
      obtain ⟨s', heq', hframe⟩ := unchoke_spec (Session.sent ⟨torrent, disk, sock, state, log⟩
        (.bitfield (List.replicate torrent.pieces.length false)) true sock')
      obtain ⟨hs', hadvances, hdisk⟩ := hsent.frame hframe
      rw [if_pos rfl, heq', ok_bind]
      exact ⟨_, rfl, hs', hadvances, hdisk⟩

theorem connectionRound_spec {s : Session} (h : s.Accounted) (P : ℕ → Prop) :
    ∃ c, connectionRound s = .ok c ∧ Client.Goes P (.connected s) c := by
  have hrequests : ∃ ok s', (if s.state.peerRequests.length = 0 ∧
      ¬ s.state.localState.choked ∧ s.state.localState.interested then sendRequests s
      else .ok (true, s)) = .ok (ok, s') ∧ s.Goes P s' := by
    split
    · obtain ⟨ok, s', heq, hgoes, -⟩ := sendRequests_spec h
      exact ⟨ok, s', heq, hgoes.accounted, hgoes.advances.mono fun _ => False.elim, hgoes.disk⟩
    · exact ⟨true, s, rfl, h.goes (Frame.refl s) P⟩
  obtain ⟨ok, s', heq, hgoes⟩ := hrequests
  rw [connectionRound, heq]
  dsimp only [ok_bind]
  split
  · exact ⟨_, rfl, hgoes.connected⟩
  · exact ⟨_, rfl, hgoes.hangUp⟩

/-- Every step but the receipt of a message keeps the books right, brings no
piece, and succeeds. -/
theorem clientStep_spec {μ : Type} (receive : Session → μ → Except Crash Client) {c : Client}
    (h : c.Accounted) (a : Act μ) (P : ℕ → Prop) :
    (∃ c', clientStep receive c a = .ok c' ∧ c.Goes P c') ∨
      ∃ s m, c = .connected s ∧ a = .receive m ∧ clientStep receive c a = receive s m := by
  cases c with
  | idle torrent disk log =>
      cases a with
      | connect sock => exact .inl (connectionStart_spec h disk log sock P)
      | _ => exact .inl ⟨_, rfl, h, Advances.refl P torrent, rfl⟩
  | connected s =>
      cases a with
      | connect sock => exact .inl ⟨_, rfl, h, Advances.refl P s.torrent, rfl⟩
      | receive m => exact .inr ⟨s, m, rfl, rfl, rfl⟩
      | round => exact .inl (connectionRound_spec h P)
      | drop => exact .inl ⟨_, rfl, (Session.Accounted.goes h (Frame.refl s) P).hangUp⟩

theorem accounted_torrentInit {env : Environment} {metainfo : BencodeValue} {destdir : Bytes}
    {torrent : TorrentInfo} (h : torrentInit env metainfo destdir = .ok torrent) :
    torrent.Accounted := by
  have hmapped := torrentInit_mapped h
  obtain ⟨-, -, -, -, -, -, hsh⟩ := torrentInit_eq_ok h
  refine ⟨by simp [hsh], ?_, ?_, fun _ => hmapped⟩
  · rw [hsh, List.countP_replicate]
    simp
  · rw [hsh]
    simp

/-! ### Runs on a stream -/

theorem Session.Accounted.received {s : Session} (h : s.Accounted) (sock : Socket) (disk : Disk) :
    Session.Accounted { s with sock := sock, disk := disk } :=
  ⟨h.torrent, h.peerHave, h.localHave, h.outstanding, h.requested⟩

theorem recvMsg_goes {s s' : Session} {ok : Bool} (h : s.Accounted)
    (hstep : recvMsg s = .ok (ok, s')) :
    ∃ msg sock disk, peerMsgRecv s.sock s.torrent s.disk = .ok (msg, sock, disk) ∧
      Session.Goes (FoundValid Session.sha1Verify { s with sock := sock, disk := disk })
        { s with sock := sock, disk := disk } s' := by
  obtain ⟨⟨msg, sock, disk⟩, hrecv, hrest⟩ := bind_eq_ok.mp hstep
  have ht := h.received sock disk
  refine ⟨msg, sock, disk, hrecv, ?_⟩
  cases msg with
  | none =>
      cases hrest
      exact ht.goes (Frame.refl _) _
  | some msg =>
      obtain ⟨t, ht', hok⟩ := bind_eq_ok.mp hrest
      cases hok
      rcases processMsg_spec Session.sha1Verify ht msg with ⟨t', heq, hgoes⟩ | ⟨c, heq, -⟩
      · cases heq.symm.trans ht'
        exact hgoes
      · cases heq.symm.trans ht'

/-- **What a step on a stream does.** Only the receipt of a message changes the
files and brings a piece, and the piece has been found valid then. -/
theorem clientStep_queued {c c' : Client} {a : Act ℕ} (h : c.Accounted)
    (hstep : clientStep processQueued c a = .ok c') :
    Client.Goes (fun _ => False) c c' ∨
      ∃ s avail msg sock disk, c = .connected s ∧ a = .receive avail ∧
        peerMsgBuffNonempty s.sock avail = true ∧
        peerMsgRecv s.sock s.torrent s.disk = .ok (msg, sock, disk) ∧
        Client.Goes (FoundValid Session.sha1Verify { s with sock := sock, disk := disk })
          (.connected { s with sock := sock, disk := disk }) c' := by
  rcases clientStep_spec processQueued h a (fun _ => False) with
    ⟨_, heq, hgoes⟩ | ⟨s, avail, rfl, rfl, heq⟩
  · cases heq.symm.trans hstep
    exact .inl hgoes
  · rw [heq, processQueued] at hstep
    split at hstep
    · rename_i hnonempty
      obtain ⟨⟨ok, s'⟩, hrecv, hc⟩ := bind_eq_ok.mp hstep
      obtain ⟨msg, sock, disk, hmsg, hgoes⟩ := recvMsg_goes h hrecv
      refine .inr ⟨s, avail, msg, sock, disk, rfl, rfl, hnonempty, hmsg, ?_⟩
      cases ok with
      | true =>
          cases hc
          exact hgoes.connected
      | false =>
          cases hc
          exact hgoes.hangUp
    · cases hstep
      exact .inl (Session.Accounted.goes h (Frame.refl s) _).connected

theorem clientStep_accounted {c c' : Client} {a : Act ℕ} (h : c.Accounted)
    (hstep : clientStep processQueued c a = .ok c') : c'.Accounted := by
  rcases clientStep_queued h hstep with hgoes | ⟨s, -, -, sock, disk, rfl, -, -, -, hgoes⟩
  · exact hgoes.accounted
  · exact hgoes.accounted

/-- The books are right in every state that is reached, and pieces, layout and places are
those of the start. -/
theorem run_queued {torrent : TorrentInfo} (h : torrent.Accounted) {disk : Disk}
    {acts : List (Act ℕ)} {c : Client}
    (hrun : run (clientStep processQueued) (.idle torrent disk []) acts = .ok c) :
    c.Accounted ∧ c.torrent.pieces = torrent.pieces ∧ c.torrent.layout = torrent.layout ∧
      c.torrent.place = torrent.place := by
  refine run_invariant_of_step _ (I := fun c : Client => c.Accounted ∧
    c.torrent.pieces = torrent.pieces ∧ c.torrent.layout = torrent.layout ∧
      c.torrent.place = torrent.place)
    ?_ (s := .idle torrent disk []) ⟨h, rfl, rfl, rfl⟩ hrun
  rintro c a c' ⟨hc, hpieces, hlayout, hplace⟩ hstep
  rcases clientStep_queued hc hstep with hgoes | ⟨s, -, -, sock, disk, rfl, -, -, -, hgoes⟩
  · exact ⟨hgoes.accounted, hgoes.advances.pieces.trans hpieces,
      hgoes.advances.layout.trans hlayout, hgoes.advances.place.trans hplace⟩
  · exact ⟨hgoes.accounted, hgoes.advances.pieces.trans hpieces,
      hgoes.advances.layout.trans hlayout, hgoes.advances.place.trans hplace⟩

/-! ### Runs on messages, with any answers of the check -/

def Act.InRange (n : ℕ) : Act (PeerMsg × (Session → UInt32 → Bool)) → Prop
  | .receive m => m.1.InRange n
  | _ => True

theorem clientStep_answered {c : Client} (h : c.Accounted)
    (a : Act (PeerMsg × (Session → UInt32 → Bool))) :
    (∃ c', clientStep processAnswered c a = .ok c' ∧ c.Goes (fun _ => True) c') ∨
      ∃ crash, clientStep processAnswered c a = .error crash ∧
        ¬ a.InRange c.torrent.pieces.length := by
  rcases clientStep_spec processAnswered h a (fun _ => True) with hok | ⟨s, m, rfl, rfl, heq⟩
  · exact .inl hok
  · rw [heq, processAnswered]
    rcases processMsg_spec (fun s index => .ok (m.2 s index)) h m.1 with
      ⟨s', heq', hgoes⟩ | ⟨crash, heq', hverify | ⟨-, hrange⟩⟩
    · rw [heq', ok_bind]
      exact .inl ⟨_, rfl, hgoes.accounted, hgoes.advances.mono fun _ _ => trivial, hgoes.disk⟩
    · obtain ⟨_, -, hverify⟩ := hverify
      cases hverify
    · rw [heq', error_bind]
      exact .inr ⟨crash, rfl, hrange⟩

theorem run_answered {c : Client} (h : c.Accounted)
    {acts : List (Act (PeerMsg × (Session → UInt32 → Bool)))}
    (hacts : ∀ a ∈ acts, a.InRange c.torrent.pieces.length) :
    ∃ c', run (clientStep processAnswered) c acts = .ok c' ∧ c'.Accounted ∧
      c'.torrent.pieces = c.torrent.pieces := by
  refine run_progress _ (I := fun c' : Client => c'.Accounted ∧ c'.torrent.pieces = c.torrent.pieces)
    (A := Act.InRange c.torrent.pieces.length) ?_ ⟨h, rfl⟩ hacts
  rintro c₁ a ⟨h₁, hpieces⟩ ha
  rcases clientStep_answered h₁ a with ⟨c₂, heq, hgoes⟩ | ⟨_, -, hrange⟩
  · exact ⟨c₂, heq, hgoes.accounted, hgoes.advances.pieces.trans hpieces⟩
  · exact absurd (hpieces ▸ ha) hrange

theorem run_answered_stays {c c' : Client} (h : c.Accounted)
    {acts : List (Act (PeerMsg × (Session → UInt32 → Bool)))}
    (hrun : run (clientStep processAnswered) c acts = .ok c') (i : ℕ) (hi : c.torrent.Has i) :
    c'.torrent.Has i := by
  refine run_relation _ (I := Client.Accounted)
    (R := fun c c' : Client => c.torrent.Has i → c'.torrent.Has i) (fun _ => id)
    (fun _ _ _ h₁ h₂ => h₂ ∘ h₁) ?_ h hrun hi
  intro c₁ a c₂ h₁ hstep
  rcases clientStep_answered h₁ a with ⟨c₃, heq, hgoes⟩ | ⟨_, heq, -⟩
  · rw [heq] at hstep
    cases hstep
    exact ⟨hgoes.accounted, hgoes.advances.stays i⟩
  · rw [heq] at hstep
    cases hstep

/-- **Accounting.** Whatever the connections receive, whatever the check of a
piece answers and wherever a connection is dropped: no assert fails, and in
every state that is reached the books are right. -/
theorem run_accounting {env : Environment} {metainfo : BencodeValue} {destdir : Bytes}
    {torrent : TorrentInfo} (hinit : torrentInit env metainfo destdir = .ok torrent)
    (hn : 1 ≤ torrent.pieces.length) (disk : Disk)
    (acts : List (Act (PeerMsg × (Session → UInt32 → Bool))))
    (hacts : ∀ a ∈ acts, a.InRange torrent.pieces.length) :
    ∃ c, run (clientStep processAnswered) (.idle torrent disk []) acts = .ok c ∧
      c.torrent.pieces = torrent.pieces ∧
      c.torrent.sh.piecesState.length = torrent.pieces.length ∧
      c.torrent.sh.piecesLeft = c.torrent.sh.piecesState.countP (· ≠ .stateHave) ∧
      (c.torrent.sh.completed = true ↔ c.torrent.sh.piecesLeft = 0) ∧
      (∀ s, c = .connected s → s.state.localRequests.length ≤ 1 ∧
        (∀ r ∈ s.state.localRequests,
          s.torrent.sh.piecesState[r.pieceIndex.toNat]? = some .stateRequested) ∧
        s.state.peerHave.length = torrent.pieces.length) ∧
      ∀ more c', run (clientStep processAnswered) c more = .ok c' →
        ∀ i : ℕ, c.torrent.sh.piecesState[i]? = some .stateHave →
          c'.torrent.sh.piecesState[i]? = some .stateHave := by
  have hstart : Client.Accounted (.idle torrent disk []) := accounted_torrentInit hinit
  obtain ⟨c, hrun, hc, hpieces⟩ := run_answered hstart hacts
  have hpieces' : c.torrent.pieces = torrent.pieces := hpieces
  obtain ⟨hlength, hleft, hcompleted, -⟩ := hc.torrent
  rw [hpieces'] at hlength hcompleted
  refine ⟨c, hrun, hpieces', hlength, hleft, ?_, ?_, fun more c' hmore i hi => ?_⟩
  · rw [hcompleted]
    exact and_iff_left hn
  · rintro s rfl
    have hs : s.Accounted := hc
    exact ⟨hs.outstanding, hs.requested, by rw [hs.peerHave]; exact congrArg List.length hpieces'⟩
  · exact run_answered_stays hc hmore i hi

/-- A peer that has both pieces and is dropped, and another one: the check finds
the first piece invalid. -/
def twoConnections : List (Act (PeerMsg × (Session → UInt32 → Bool))) :=
  [.connect ⟨[], [], [], []⟩, .receive (.bitfield [true, true], fun _ _ => false),
    .receive (.unchoke, fun _ _ => false), .round,
    .receive (.piece ⟨0, 0, 16384⟩, fun _ _ => false), .round, .drop,
    .connect ⟨[], [], [], [.error]⟩]

theorem run_accounting_twoConnections :
    ∃ c, run (clientStep processAnswered) (.idle twoPieces blankDisk []) twoConnections = .ok c ∧
      c.torrent.sh.piecesLeft = c.torrent.sh.piecesState.countP (· ≠ .stateHave) := by
  obtain ⟨c, hrun, -, -, hleft, -⟩ := run_accounting torrentInit_twoPieces (by decide) blankDisk
    twoConnections (by simp [twoConnections, Act.InRange, PeerMsg.InRange, twoPieces])
  exact ⟨c, hrun, hleft⟩

end Daobell
