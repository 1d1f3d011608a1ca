import Daobell.Peer.Choking

/-!
Several connections at once. Their threads share the torrent, whose pieces are
read and written only with `sh_mutex` held; everything else in a `conn_state` is
a thread's own. A thread is cut where it takes the mutex: before it looks for a
piece to request, and between the check of a piece that has come and what it
writes of the result. Between these places it can do nothing that another
thread would see.
-/

namespace Daobell

open Lib

/-! ### Threads -/

/-- Where a thread is: in its loop, in the loop of `process_piece_msg` over the
requests, or there with the answer of `torrent_sha1_verify` for a piece. -/
inductive Place
  | waiting
  | scanning (msg : PieceMsg) (p : ℕ)
  | verified (msg : PieceMsg) (p : ℕ) (index : UInt32) (valid : Bool)

structure Thread where
  sock : Socket
  state : ConnState
  log : List Event
  place : Place

structure Sharing where
  torrent : TorrentInfo
  disk : Disk
  threads : List Thread

def Sharing.session (sh : Sharing) (th : Thread) : Session :=
  ⟨sh.torrent, sh.disk, th.sock, th.state, th.log⟩

def Sharing.leave (sh : Sharing) (k : ℕ) (s : Session) (place : Place) : Sharing :=
  ⟨s.torrent, s.disk, sh.threads.set k ⟨s.sock, s.state, s.log, place⟩⟩

def Session.withRequests (s : Session) (requests : List PieceRequest) : Session :=
  { s with state := { s.state with localRequests := requests } }

/-- One turn of the loop of `process_piece_msg`, up to the answer of
`torrent_sha1_verify`; or the end of the loop. -/
def Sharing.scan (sh : Sharing) (k : ℕ) (th : Thread) (msg : PieceMsg) (p : ℕ) (valid : Bool) :
    Sharing :=
  let s := sh.session th
  match th.state.localRequests[p]? with
  | none => sh.leave k { s with state := { s.state with
      blocksRecvd := (s.state.blocksRecvd + 1) % 2 ^ 32 } } .waiting
  | some request =>
      if request.pieceIndex ≠ msg.index then sh.leave k s (.scanning msg (p + 1))
      else
        let request := request.receive msg
        sh.leave k (s.withRequests (th.state.localRequests.set p request))
          (if request.blocksLeft ≠ 0 then .scanning msg (p + 1)
          else .verified msg p request.pieceIndex valid)

/-- The rest of the turn: the locked section of `process_piece_msg` or of
`handle_piece_dnld_completion`, and the removal of the request. -/
def Sharing.settle (sh : Sharing) (k : ℕ) (th : Thread) (msg : PieceMsg) (p : ℕ) (index : UInt32)
    (valid : Bool) : Except Crash Sharing :=
  pieceReceived (fun _ _ => .ok valid) (sh.session th) index >>= fun s =>
  let requests := s.state.localRequests.eraseIdx p
  .ok (sh.leave k (s.withRequests requests)
    (.scanning msg (if p < requests.length then p + 1 else 0)))

/-- What a thread does between two places. A round looks for a piece to request
at most once, so it takes the mutex at most once. -/
inductive Move
  | receive (msg : PeerMsg)
  | round
  | stop
  | scan (valid : Bool)
  | settle

/-- A move of thread `k`. What it cannot do where it is does nothing. -/
def Sharing.move (sh : Sharing) (k : ℕ) (th : Thread) (m : Move) : Except Crash Sharing :=
  match th.place, m with
  | .waiting, .receive (.piece msg) => .ok (sh.leave k (sh.session th) (.scanning msg 0))
  | .waiting, .receive msg =>
      processMsg (fun _ _ => .ok false) (sh.session th) msg >>= fun s =>
      .ok (sh.leave k s .waiting)
  | .waiting, .round =>
      connectionRound (sh.session th) >>= fun c =>
      match c with
      | .connected s => .ok (sh.leave k s .waiting)
      | .idle torrent disk _ => .ok ⟨torrent, disk, sh.threads.eraseIdx k⟩
  | .waiting, .stop => .ok { sh with threads := sh.threads.eraseIdx k }
  | .scanning msg p, .scan valid => .ok (sh.scan k th msg p valid)
  | .verified msg p index valid, .settle => sh.settle k th msg p index valid
  | _, _ => .ok sh

/-- What happens: a connection begins, or a thread makes a move. -/
inductive SharingAct
  | start (sock : Socket)
  | move (k : ℕ) (m : Move)

def sharingStep (sh : Sharing) : SharingAct → Except Crash Sharing
  | .start sock =>
      connectionStart sh.torrent sh.disk [] sock >>= fun c =>
      match c with
      | .connected s => .ok ⟨s.torrent, s.disk, sh.threads ++ [⟨s.sock, s.state, s.log, .waiting⟩]⟩
      | .idle torrent disk _ => .ok ⟨torrent, disk, sh.threads⟩
  | .move k m =>
      match sh.threads[k]? with
      | none => .ok sh
      | some th => sh.move k th m

/-- With fewer than `2^31` requests outstanding, a round makes at most one. -/
theorem requestCount_le_one {outstanding : ℕ} (h : outstanding < 2 ^ 31) :
    requestCount outstanding ≤ 1 := by
  rcases Nat.lt_or_ge outstanding 2 with hlt | hge
  · interval_cases outstanding <;> decide
  have hsub : (subSize peerNumOutstandingRequests outstanding : ℤ) =
      (1 - outstanding) + 4294967296 * 4294967296 := by
    simp only [subSize, peerNumOutstandingRequests]
    omega
  have hmod : (1 - outstanding : ℤ).bmod 4294967296 = 1 - outstanding := by
    apply Int.bmod_eq_of_le <;> omega
  have hwhole : ((1 - outstanding : ℤ) + 4294967296 * 4294967296).bmod 4294967296 =
      (1 - outstanding : ℤ).bmod 4294967296 :=
    Int.add_mul_bmod_self_left _ 4294967296 4294967296
  rw [← hsub, hmod] at hwhole
  have hcount : requestCount outstanding = 1 - outstanding := hwhole
  rw [hcount]
  omega

/-! ### A thread by itself -/

theorem leave_leave (sh : Sharing) (k : ℕ) (s s' : Session) (place place' : Place) :
    (sh.leave k s place).leave k s' place' = sh.leave k s' place' := by
  simp [Sharing.leave]

theorem session_leave (sh : Sharing) (k : ℕ) (s : Session) (place : Place) :
    (sh.leave k s place).session ⟨s.sock, s.state, s.log, place⟩ = s := rfl

@[simp] theorem localRequests_withRequests (s : Session) (requests : List PieceRequest) :
    (s.withRequests requests).state.localRequests = requests := rfl

@[simp] theorem withRequests_withRequests (s : Session) (requests requests' : List PieceRequest) :
    (s.withRequests requests).withRequests requests' = s.withRequests requests' := rfl

theorem sharingStep_leave {sh : Sharing} {k : ℕ} (hk : k < sh.threads.length) (s : Session)
    (place : Place) (m : Move) :
    sharingStep (sh.leave k s place) (.move k m) =
      (sh.leave k s place).move k ⟨s.sock, s.state, s.log, place⟩ m := by
  have hth : (sh.leave k s place).threads[k]? = some ⟨s.sock, s.state, s.log, place⟩ := by
    simp [Sharing.leave, hk]
  rw [sharingStep, hth]

theorem pieceReceived_withRequests {verify : Session → UInt32 → Except Crash Bool} {s s' : Session}
    {index : UInt32} (requests : List PieceRequest)
    (h : pieceReceived verify s index = .ok s') : ∃ valid,
      pieceReceived (fun _ _ => .ok valid) (s.withRequests requests) index =
        .ok (s'.withRequests requests) := by
  obtain ⟨valid, hvalid, hs'⟩ := bind_eq_ok.mp h
  refine ⟨valid, ?_⟩
  rw [pieceReceived, ok_bind]
  cases valid with
  | true =>
      simp only [if_true, handlePieceDnldCompletion] at hs' ⊢
      split at hs'
      · cases hs'
      rename_i hlt
      have hlt' : ¬ ¬ index.toNat < (s.withRequests requests).torrent.pieces.length := hlt
      obtain ⟨torrent, hgot, hs'⟩ := bind_eq_ok.mp hs'
      obtain ⟨⟨ok, t⟩, hsend, ht⟩ := bind_eq_ok.mp hs'
      obtain ⟨⟨ok', sock⟩, hsock, hsent⟩ := bind_eq_ok.mp hsend
      cases hsent
      cases ht
      rw [if_neg hlt']
      have hgot' : (s.withRequests requests).torrent.gotPiece index.toNat = .ok torrent := hgot
      simp only [hgot', ok_bind, Session.msgSend]
      have hsock' : peerMsgSend (s.withRequests requests).sock torrent
          (s.withRequests requests).disk (.haveMsg index) = .ok (ok', sock) := hsock
      rw [hsock']
      rfl
  | false =>
      simp only [Bool.false_eq_true, if_false] at hs' ⊢
      split at hs'
      swap
      · cases hs'
      rename_i hlt
      cases hs'
      exact if_pos hlt

/-- **A thread by itself.** When no other thread moves in between, the moves of a
thread are the loop of `process_piece_msg`. -/
theorem processPieceLoop_moves {verify : Session → UInt32 → Except Crash Bool} {msg : PieceMsg}
    {sh : Sharing} {k : ℕ} (hk : k < sh.threads.length) {s s' : Session}
    {requests : List PieceRequest} {p : ℕ}
    (h : processPieceLoop verify msg s requests p = .ok s') :
    ∃ moves : List Move,
      run sharingStep (sh.leave k (s.withRequests requests) (.scanning msg p))
          (moves.map (.move k ·)) =
        .ok (sh.leave k { s' with state := { s'.state with
          blocksRecvd := (s'.state.blocksRecvd + 1) % 2 ^ 32 } } .waiting) := by
  induction s, requests, p using processPieceLoop.induct verify msg with
  | case1 s requests p hnone =>
      rw [processPieceLoop_none hnone] at h
      cases h
      have hstep : sharingStep (sh.leave k (s.withRequests requests) (.scanning msg p))
          (.move k (.scan true)) = .ok (sh.leave k { s.withRequests requests with
            state := { (s.withRequests requests).state with
              blocksRecvd := (s.state.blocksRecvd + 1) % 2 ^ 32 } } .waiting) := by
        rw [sharingStep_leave hk]
        simp only [Sharing.move, Sharing.scan, session_leave, localRequests_withRequests, hnone,
          leave_leave]
        rfl
      exact ⟨[.scan true], run_cons_of_ok _ hstep []⟩
  | case2 s requests p request hrequest hindex ih =>
      rw [processPieceLoop_some hrequest, if_pos hindex] at h
      obtain ⟨moves, hmoves⟩ := ih h
      have hstep : sharingStep (sh.leave k (s.withRequests requests) (.scanning msg p))
          (.move k (.scan true)) =
            .ok (sh.leave k (s.withRequests requests) (.scanning msg (p + 1))) := by
        rw [sharingStep_leave hk]
        simp only [Sharing.move, Sharing.scan, session_leave, localRequests_withRequests, hrequest,
          if_pos hindex, leave_leave]
      exact ⟨.scan true :: moves, (run_cons_of_ok _ hstep _).trans hmoves⟩
  | case3 s requests p request hrequest hindex _ hleft ih =>
      have hleft' : (request.receive msg).blocksLeft ≠ 0 := hleft
      rw [processPieceLoop_some hrequest, if_neg hindex, if_pos hleft] at h
      obtain ⟨moves, hmoves⟩ := ih h
      have hstep : sharingStep (sh.leave k (s.withRequests requests) (.scanning msg p))
          (.move k (.scan true)) = .ok (sh.leave k
            (s.withRequests (requests.set p (request.receive msg))) (.scanning msg (p + 1))) := by
        rw [sharingStep_leave hk]
        simp only [Sharing.move, Sharing.scan, session_leave, localRequests_withRequests, hrequest,
          if_neg hindex, if_pos hleft', leave_leave, withRequests_withRequests]
      exact ⟨.scan true :: moves, (run_cons_of_ok _ hstep _).trans hmoves⟩
  | case4 s requests p request hrequest hindex _ hleft c hreceived =>
      rw [processPieceLoop_some hrequest, if_neg hindex, if_neg hleft, hreceived] at h
      cases h
  | case5 s requests p request hrequest hindex _ hleft t hreceived ih =>
      have hleft' : ¬ (request.receive msg).blocksLeft ≠ 0 := hleft
      have hreceived' : pieceReceived verify s (request.receive msg).pieceIndex = .ok t := hreceived
      rw [processPieceLoop_some hrequest, if_neg hindex, if_neg hleft, hreceived, ok_bind] at h
      obtain ⟨moves, hmoves⟩ := ih h
      obtain ⟨valid, hsettle⟩ := pieceReceived_withRequests
        (requests.set p (request.receive msg)) hreceived'
      have hscan : sharingStep (sh.leave k (s.withRequests requests) (.scanning msg p))
          (.move k (.scan valid)) = .ok (sh.leave k
            (s.withRequests (requests.set p (request.receive msg)))
            (.verified msg p (request.receive msg).pieceIndex valid)) := by
        rw [sharingStep_leave hk]
        simp only [Sharing.move, Sharing.scan, session_leave, localRequests_withRequests, hrequest,
          if_neg hindex, if_neg hleft', leave_leave, withRequests_withRequests]
      have hstep : sharingStep (sh.leave k (s.withRequests (requests.set p (request.receive msg)))
          (.verified msg p (request.receive msg).pieceIndex valid)) (.move k .settle) =
            .ok (sh.leave k (t.withRequests (requests.eraseIdx p)) (.scanning msg
              (if p < (requests.eraseIdx p).length then p + 1 else 0))) := by
        rw [sharingStep_leave hk]
        simp only [Sharing.move, Sharing.settle, session_leave, hsettle, ok_bind,
          localRequests_withRequests, withRequests_withRequests, List.eraseIdx_set_eq, leave_leave]
      exact ⟨.scan valid :: .settle :: moves, (run_cons_of_ok _ hscan _).trans
        ((run_cons_of_ok _ hstep _).trans hmoves)⟩

/-- A thread that is alone with a PIECE message processes it as `process_msg`
does. -/
theorem processMsg_moves {verify : Session → UInt32 → Except Crash Bool} {msg : PieceMsg}
    {sh : Sharing} {k : ℕ} (hk : k < sh.threads.length) {s s' : Session}
    (h : processMsg verify s (.piece msg) = .ok s') :
    ∃ moves : List Move,
      run sharingStep (sh.leave k s .waiting) ((.receive (.piece msg) :: moves).map (.move k ·)) =
        .ok (sh.leave k s' .waiting) := by
  obtain ⟨t, ht, hs'⟩ := bind_eq_ok.mp h
  cases hs'
  obtain ⟨moves, hmoves⟩ := processPieceLoop_moves hk ht
  have hstep : sharingStep (sh.leave k s .waiting) (.move k (.receive (.piece msg))) =
      .ok (sh.leave k (s.withRequests s.state.localRequests) (.scanning msg 0)) := by
    rw [sharingStep_leave hk]
    simp only [Sharing.move, session_leave, leave_leave]
    rfl
  exact ⟨moves, (run_cons_of_ok _ hstep _).trans hmoves⟩

/-! ### What the sections write -/

/-- A section leaves the books right, and no piece gets lost. -/
def Keeps (torrent torrent' : TorrentInfo) : Prop :=
  torrent'.Accounted ∧ ∀ i, torrent.Has i → torrent'.Has i

theorem TorrentInfo.Accounted.keeps {torrent torrent' : TorrentInfo} (h : torrent.Accounted)
    (heq : torrent' = torrent) : Keeps torrent torrent' := by
  subst heq
  exact ⟨h, fun _ => id⟩

theorem Keeps.trans {a b c : TorrentInfo} (h₁ : Keeps a b) (h₂ : Keeps b c) : Keeps a c :=
  ⟨h₂.1, fun i hi => h₂.2 i (h₁.2 i hi)⟩

theorem torrentNextRequest_keeps {torrent torrent' : TorrentInfo} (h : torrent.Accounted)
    {peerHave : List Bool} {i : ℕ}
    (heq : torrentNextRequest torrent peerHave = .ok (some (i, torrent'))) :
    Keeps torrent torrent' := by
  have hhave : peerHave.length = torrent.pieces.length := by
    by_contra hne
    rw [torrentNextRequest, if_pos (.inr (Ne.symm hne))] at heq
    cases heq
  rcases torrentNextRequest_spec h hhave with hnone | ⟨j, old, hsome, hold, hne⟩
  · cases hnone.symm.trans heq
  · cases hsome.symm.trans heq
    obtain ⟨haccounted, hadvances⟩ := h.setState hold hne
      (show PieceState.stateRequested ≠ .stateHave by decide)
    exact ⟨haccounted, hadvances.stays⟩

theorem requestLoop_keeps {n : ℕ} {s : Session} (h : s.torrent.Accounted)
    {r : Option Bool × Session} (heq : requestLoop n s = .ok r) :
    Keeps s.torrent r.2.torrent := by
  induction n generalizing s with
  | zero =>
      cases heq
      exact h.keeps rfl
  | succ n ih =>
      obtain ⟨next, hnext, heq⟩ := bind_eq_ok.mp heq
      cases next with
      | none =>
          cases heq
          exact h.keeps rfl
      | some next =>
          obtain ⟨i, torrent⟩ := next
          have hkeeps := torrentNextRequest_keeps h hnext
          obtain ⟨⟨ok, t⟩, hblocks, ht⟩ := bind_eq_ok.mp heq
          obtain ⟨ok', t', hblocks', hframe⟩ := requestBlocks_spec _ _ _
          cases hblocks'.symm.trans hblocks
          have htorrent : t.torrent = torrent := hframe.torrent
          rw [← htorrent] at hkeeps
          cases ok with
          | false =>
              cases ht
              exact hkeeps
          | true => exact hkeeps.trans (ih hkeeps.1 ht)

theorem connectionRound_keeps {s : Session} (h : s.torrent.Accounted) {c : Client}
    (heq : connectionRound s = .ok c) : Keeps s.torrent c.torrent := by
  obtain ⟨s', hfrom, hs'⟩ := connectionRound_cases heq
  have htorrent : c.torrent = s'.torrent := by
    rcases hfrom with rfl | rfl
    · rfl
    · rfl
  rw [htorrent]
  rcases hs' with rfl | ⟨ok, hsend⟩
  · exact h.keeps rfl
  rw [sendRequests] at hsend
  split at hsend
  · cases hsend
    exact h.keeps rfl
  obtain ⟨⟨result, t⟩, hloop, ht⟩ := bind_eq_ok.mp hsend
  have hkeeps := requestLoop_keeps h hloop
  cases result with
  | none =>
      cases ht
      exact hkeeps
  | some notInterested =>
      dsimp only at ht
      split at ht
      · obtain ⟨u, hshow, hu⟩ := bind_eq_ok.mp ht
        obtain ⟨u', hu', hframe⟩ := showNotInterested_spec t
        cases hu'.symm.trans hshow
        cases hu
        exact hkeeps.trans (hkeeps.1.keeps hframe.torrent)
      · cases ht
        exact hkeeps

/-- The section of `handle_piece_dnld_completion` leaves a piece alone that is
there. -/
theorem gotPiece_keeps {torrent torrent' : TorrentInfo} (h : torrent.Accounted) {i : ℕ}
    (heq : torrent.gotPiece i = .ok torrent') : Keeps torrent torrent' := by
  cases hold : torrent.sh.piecesState[i]? with
  | none =>
      rw [TorrentInfo.gotPiece, hold] at heq
      cases heq
  | some old =>
      by_cases hhave : old = .stateHave
      · rw [TorrentInfo.gotPiece, hold] at heq
        simp only [hhave, if_true, Except.ok.injEq] at heq
        exact h.keeps heq.symm
      · obtain ⟨t, ht, haccounted, hadvances, -⟩ := h.gotPiece hold hhave
        cases ht.symm.trans heq
        exact ⟨haccounted, hadvances.stays⟩

/-- The section of `process_piece_msg` does not look whether a piece is there
that it gives up. -/
theorem pieceReceived_keeps {s s' : Session} (h : s.torrent.Accounted) {index : UInt32}
    {valid : Bool} (hopen : valid = false → ¬ s.torrent.Has index.toNat)
    (heq : pieceReceived (fun _ _ => .ok valid) s index = .ok s') :
    Keeps s.torrent s'.torrent := by
  rw [pieceReceived, ok_bind] at heq
  cases valid with
  | true =>
      simp only [if_true, handlePieceDnldCompletion] at heq
      split at heq
      · cases heq
      obtain ⟨torrent, hgot, heq⟩ := bind_eq_ok.mp heq
      obtain ⟨⟨ok, t⟩, hsend, ht⟩ := bind_eq_ok.mp heq
      obtain ⟨ok', sock, bytes, hsend', -⟩ := msgSend_spec _ (.haveMsg index) trivial
      cases hsend'.symm.trans hsend
      cases ht
      exact gotPiece_keeps h hgot
  | false =>
      simp only [Bool.false_eq_true, if_false] at heq
      split at heq
      swap
      · cases heq
      rename_i hi
      cases heq
      have hold := List.getElem?_eq_getElem hi
      have hne : s.torrent.sh.piecesState[index.toNat] ≠ .stateHave := by
        intro hhave
        apply hopen rfl
        rw [TorrentInfo.Has, hold, hhave]
      obtain ⟨haccounted, hadvances⟩ := h.setState hold hne
        (show PieceState.stateNotRequested ≠ .stateHave by decide)
      exact ⟨haccounted, hadvances.stays⟩

/-- What a move does to the torrent: nothing, what a round does to it, or what the
sections behind the check of a piece do. -/
theorem move_cases {sh sh' : Sharing} {k : ℕ} {th : Thread} {m : Move}
    (heq : sh.move k th m = .ok sh') :
    sh'.torrent = sh.torrent ∨
      (∃ c, connectionRound (sh.session th) = .ok c ∧ sh'.torrent = c.torrent) ∨
      ∃ msg p index valid s, th.place = .verified msg p index valid ∧ m = .settle ∧
        pieceReceived (fun _ _ => .ok valid) (sh.session th) index = .ok s ∧
        sh'.torrent = s.torrent := by
  cases hplace : th.place with
  | waiting =>
      cases m with
      | receive msg =>
          refine .inl ?_
          by_cases hmsg : msg.type = .msgPiece
          · cases msg with
            | piece msg =>
                simp only [Sharing.move, hplace, Except.ok.injEq] at heq
                subst heq
                rfl
            | _ => cases hmsg
          · have hprocess : (processMsg (fun _ _ => .ok false) (sh.session th) msg >>= fun s =>
                .ok (sh.leave k s .waiting)) = .ok sh' := by
              rw [← heq]
              cases msg with
              | piece msg => exact absurd rfl hmsg
              | _ => simp only [Sharing.move, hplace]
            obtain ⟨s, hs, hleave⟩ := bind_eq_ok.mp hprocess
            cases hleave
            exact (processMsg_retains hmsg hs).torrent
      | round =>
          simp only [Sharing.move, hplace] at heq
          obtain ⟨c, hround, hc⟩ := bind_eq_ok.mp heq
          refine .inr (.inl ⟨c, hround, ?_⟩)
          cases c with
          | connected s =>
              cases hc
              rfl
          | idle torrent disk log =>
              cases hc
              rfl
      | _ =>
          simp only [Sharing.move, hplace, Except.ok.injEq] at heq
          subst heq
          exact .inl rfl
  | scanning msg p =>
      refine .inl ?_
      cases m with
      | scan valid =>
          simp only [Sharing.move, hplace, Except.ok.injEq] at heq
          subst heq
          simp only [Sharing.scan]
          split
          · rfl
          · split <;> rfl
      | _ =>
          simp only [Sharing.move, hplace, Except.ok.injEq] at heq
          subst heq
          rfl
  | verified msg p index valid =>
      cases m with
      | settle =>
          simp only [Sharing.move, hplace, Sharing.settle] at heq
          obtain ⟨s, hs, hleave⟩ := bind_eq_ok.mp heq
          cases hleave
          exact .inr (.inr ⟨msg, p, index, valid, s, rfl, rfl, hs, rfl⟩)
      | _ =>
          simp only [Sharing.move, hplace, Except.ok.injEq] at heq
          subst heq
          exact .inl rfl

/-- **One move** of a thread. -/
theorem move_keeps {sh sh' : Sharing} {k : ℕ} {th : Thread} {m : Move}
    (h : sh.torrent.Accounted)
    (hopen : ∀ msg p index, th.place = .verified msg p index false → m = .settle →
      ¬ sh.torrent.Has index.toNat)
    (heq : sh.move k th m = .ok sh') : Keeps sh.torrent sh'.torrent := by
  have hsession : (sh.session th).torrent = sh.torrent := rfl
  obtain hsame | ⟨c, hround, hc⟩ | ⟨msg, p, index, valid, s, hplace, rfl, hs, hsettled⟩ :=
    move_cases heq
  · exact h.keeps hsame
  · rw [hc]
    exact connectionRound_keeps (hsession ▸ h) hround
  · rw [hsettled]
    refine pieceReceived_keeps (hsession ▸ h) ?_ hs
    rintro rfl
    exact hopen msg p index hplace rfl

/-! ### Runs -/

def Sharing.givesUp (sh : Sharing) : SharingAct → Option UInt32
  | .move k .settle =>
      match sh.threads[k]? with
      | some ⟨_, _, _, .verified _ _ index false⟩ => some index
      | _ => none
  | _ => none

def GivesUpOpen (sh : Sharing) (a : SharingAct) : Prop :=
  ∀ index ∈ sh.givesUp a, ¬ sh.torrent.Has index.toNat

instance (sh : Sharing) (a : SharingAct) : Decidable (GivesUpOpen sh a) :=
  Option.decidableForallMem (p := fun index : UInt32 =>
    ¬ sh.torrent.sh.piecesState[index.toNat]? = some .stateHave) (sh.givesUp a)

/-- Every piece that is there stays, and the number of those that are missing is
counted right, before and after a step. -/
structure HavePermanent (sh : Sharing) (a : SharingAct) : Prop where
  left : sh.torrent.sh.piecesLeft = sh.torrent.sh.piecesState.countP (· ≠ .stateHave)
  stays : ∀ sh', sharingStep sh a = .ok sh' → ∀ i : ℕ,
    sh.torrent.sh.piecesState[i]? = some .stateHave →
      sh'.torrent.sh.piecesState[i]? = some .stateHave
  left_after : ∀ sh', sharingStep sh a = .ok sh' →
    sh'.torrent.sh.piecesLeft = sh'.torrent.sh.piecesState.countP (· ≠ .stateHave)

theorem sharingStep_keeps {sh sh' : Sharing} {a : SharingAct} (h : sh.torrent.Accounted)
    (hopen : GivesUpOpen sh a) (heq : sharingStep sh a = .ok sh') :
    Keeps sh.torrent sh'.torrent := by
  cases a with
  | start sock =>
      obtain ⟨c, hstart, hc⟩ := bind_eq_ok.mp heq
      obtain ⟨c', hstart', hgoes⟩ := connectionStart_spec h sh.disk [] sock (fun _ => False)
      cases hstart'.symm.trans hstart
      have hkeeps : Keeps sh.torrent c.torrent := ⟨hgoes.accounted.torrent, hgoes.advances.stays⟩
      cases c with
      | connected s =>
          cases hc
          exact hkeeps
      | idle torrent disk log =>
          cases hc
          exact hkeeps
  | move k m =>
      rw [sharingStep] at heq
      cases hth : sh.threads[k]? with
      | none =>
          rw [hth] at heq
          cases heq
          exact h.keeps rfl
      | some th =>
          rw [hth] at heq
          refine move_keeps h ?_ heq
          rintro msg p index hplace rfl
          apply hopen
          obtain ⟨sock, state, log, place⟩ := th
          cases hplace
          simp only [Sharing.givesUp, hth, Option.mem_some_iff]

theorem HavePermanent.givesUpOpen {sh : Sharing} {a : SharingAct} (h : HavePermanent sh a) :
    GivesUpOpen sh a := by
  intro index hindex hhas
  cases a with
  | start sock => cases hindex
  | move k m =>
      cases m with
      | settle =>
          rw [Sharing.givesUp] at hindex
          split at hindex
          · rename_i sock state log msg p index' hth
            cases hindex
            obtain ⟨hi, hstate⟩ := List.getElem?_eq_some_iff.mp hhas
            have hreceived : pieceReceived (fun _ _ => .ok false)
                (sh.session ⟨sock, state, log, .verified msg p index false⟩) index =
                .ok { sh.session ⟨sock, state, log, .verified msg p index false⟩ with
                  log := log ++ [.sha1Verify index false]
                  torrent := sh.torrent.setState index.toNat .stateNotRequested } :=
              if_pos hi
            have hstep : ∃ sh', sharingStep sh (.move k .settle) = .ok sh' ∧
                sh'.torrent = sh.torrent.setState index.toNat .stateNotRequested := by
              rw [sharingStep, hth]
              simp only [Sharing.move, Sharing.settle, hreceived, ok_bind]
              exact ⟨_, rfl, rfl⟩
            obtain ⟨sh', hsh', htorrent⟩ := hstep
            have hlost := h.stays sh' hsh' index.toNat hhas
            rw [htorrent] at hlost
            simp [TorrentInfo.setState, hi] at hlost
          · cases hindex
      | _ => cases hindex

/-- **Sharing a torrent.** However the moves of any number of threads follow one
another and whatever the checks answer: a piece that is there stays, and the
pieces that are missing are counted right, at every point of a run, if and only
if no thread gives up a piece that is there. -/
theorem run_havePermanent_iff {env : Environment} {metainfo : BencodeValue} {destdir : Bytes}
    {torrent : TorrentInfo} (hinit : torrentInit env metainfo destdir = .ok torrent) (disk : Disk)
    (acts : List SharingAct) :
    RunMeets sharingStep HavePermanent ⟨torrent, disk, []⟩ acts ↔
      RunMeets sharingStep GivesUpOpen ⟨torrent, disk, []⟩ acts := by
  constructor
  · exact fun h => h.mono fun sh a => HavePermanent.givesUpOpen
  · intro h
    refine h.of_invariant (I := fun sh : Sharing => sh.torrent.Accounted)
      (accounted_torrentInit hinit) ?_ ?_
    · exact fun sh a sh' haccounted hopen hstep => (sharingStep_keeps haccounted hopen hstep).1
    · intro sh a haccounted hopen
      exact ⟨haccounted.left,
        fun sh' hstep => (sharingStep_keeps haccounted hopen hstep).2,
        fun sh' hstep => (sharingStep_keeps haccounted hopen hstep).1.left⟩

def askMoves (k : ℕ) : List SharingAct :=
  [.move k (.receive (.bitfield [true, false])), .move k (.receive .unchoke), .move k .round]

/-- The piece comes from two peers; for the one the check finds it valid, and for
the other it does not. -/
def sharedActs : List SharingAct :=
  [.start ⟨[], [], [], []⟩, .start ⟨[], [], [], []⟩] ++ askMoves 0 ++ askMoves 1 ++
    [.move 0 (.receive (.piece ⟨0, 0, 16384⟩)), .move 0 (.scan true), .move 0 .settle,
      .move 1 (.receive (.piece ⟨0, 0, 16384⟩)), .move 1 (.scan false)]

theorem run_havePermanent_twoThreads :
    RunMeets sharingStep HavePermanent ⟨twoPieces, blankDisk, []⟩ sharedActs :=
  (run_havePermanent_iff torrentInit_twoPieces blankDisk sharedActs).mpr (by decide +kernel)

/-- The second thread gives up the piece that the first one has got. -/
theorem run_haveLost :
    torrentInit quietEnvironment twoPiecesMetainfo [] = .ok twoPieces ∧
      ¬ RunMeets sharingStep HavePermanent ⟨twoPieces, blankDisk, []⟩
        (sharedActs ++ [.move 1 .settle]) := by
  refine ⟨torrentInit_twoPieces, fun hmeets => ?_⟩
  obtain ⟨sh, hrun, hhas, sh', hstep, hlost⟩ :
      ∃ sh, run sharingStep ⟨twoPieces, blankDisk, []⟩ sharedActs = .ok sh ∧
        sh.torrent.sh.piecesState[0]? = some .stateHave ∧
        ∃ sh', sharingStep sh (.move 1 .settle) = .ok sh' ∧
          sh'.torrent.sh.piecesState[0]? = some .stateNotRequested := by
    decide +kernel
  have hkept := (hmeets.last _ hrun).stays sh' hstep 0 hhas
  rw [hlost] at hkept
  cases hkept

end Daobell
