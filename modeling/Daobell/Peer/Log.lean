import Daobell.Peer.Accounting

/-!
What a thread puts into the log. A connection begins with a bit field; from then
on, whatever the thread does, it tells the peer of each piece that comes to be
there, of no other piece, and sends nothing out of the files.
-/

namespace Daobell

open Lib

/-! ### Chatter -/

def Event.Chatter : Event → Prop
  | .msgSend msg _ => msg.type ≠ .msgBitfield ∧ msg.type ≠ .msgHave ∧ msg.type ≠ .msgPiece
  | .sha1Verify _ _ => False

def Chats (s s' : Session) : Prop :=
  ∃ events, s'.log = s.log ++ events ∧ (∀ e ∈ events, e.Chatter) ∧
    (s.sock.SendReliable → s'.sock.SendReliable)

theorem chats_of_eq {s s' : Session} (hlog : s'.log = s.log) (hsock : s'.sock = s.sock) :
    Chats s s' :=
  ⟨[], by simp [hlog], by simp, fun h => hsock ▸ h⟩

theorem Chats.trans {s t s' : Session} (h₁ : Chats s t) (h₂ : Chats t s') : Chats s s' := by
  obtain ⟨events₁, hlog₁, hchat₁, hrel₁⟩ := h₁
  obtain ⟨events₂, hlog₂, hchat₂, hrel₂⟩ := h₂
  refine ⟨events₁ ++ events₂, by rw [hlog₂, hlog₁, List.append_assoc], ?_, hrel₂ ∘ hrel₁⟩
  rintro e he
  rcases List.mem_append.mp he with he | he
  · exact hchat₁ e he
  · exact hchat₂ e he

theorem msgSend_chats {s s' : Session} (msg : PeerMsg) {ok : Bool} (h : msg.Streamed s.torrent)
    (hchat : (Event.msgSend msg ok).Chatter) (hsend : s.msgSend msg = .ok (ok, s')) :
    Chats s s' := by
  obtain ⟨ok', sock, bytes, heq, hstep, -⟩ := msgSend_spec s msg h
  rw [heq] at hsend
  cases hsend
  exact ⟨_, rfl, by simpa using hchat, hstep.reliable⟩

theorem announce_chats {s s' : Session} (msg : PeerMsg) {note : ConnState → ConnState}
    (h : msg.Streamed s.torrent) (hchat : ∀ ok, (Event.msgSend msg ok).Chatter)
    (hannounce : s.announce msg note = .ok s') : Chats s s' := by
  obtain ⟨⟨ok, t⟩, hsend, ht⟩ := bind_eq_ok.mp hannounce
  have hchats := msgSend_chats msg h (hchat ok) hsend
  cases ht
  exact hchats.trans (chats_of_eq (by split <;> rfl) (by split <;> rfl))

theorem showInterested_chats {s s' : Session} (h : showInterested s = .ok s') : Chats s s' :=
  announce_chats .interested trivial (fun _ => by simp [Event.Chatter, PeerMsg.type]) h

theorem showNotInterested_chats {s s' : Session} (h : showNotInterested s = .ok s') :
    Chats s s' :=
  announce_chats .notInterested trivial (fun _ => by simp [Event.Chatter, PeerMsg.type]) h

theorem unchoke_chats {s s' : Session} (h : unchoke s = .ok s') : Chats s s' :=
  announce_chats .unchoke trivial (fun _ => by simp [Event.Chatter, PeerMsg.type]) h

theorem processHave_chats {s s' : Session} {index : ℕ} (h : processHave s index = .ok s') :
    Chats s s' := by
  obtain ⟨t, ht, hs'⟩ := bind_eq_ok.mp h
  have hchats : Chats s t := by
    split at ht
    · cases ht
      exact chats_of_eq rfl rfl
    split at ht
    · cases ht
    split at ht
    · exact showInterested_chats ht
    · cases ht
      exact chats_of_eq rfl rfl
  split at hs'
  · cases hs'
    exact hchats.trans (chats_of_eq rfl rfl)
  · cases hs'

theorem processBitfield_chats {s s' : Session} {bits : List Bool}
    (h : processBitfield s bits = .ok s') : Chats s s' := by
  rw [processBitfield] at h
  split at h
  · cases h
  obtain ⟨interested, -, hs'⟩ := bind_eq_ok.mp h
  split at hs'
  · exact (showInterested_chats hs').trans (chats_of_eq rfl rfl)
  · cases hs'
    exact chats_of_eq rfl rfl

theorem requestBlocks_chats {index : UInt32} {blocks : List BlockRequest} {s : Session}
    {r : Bool × Session} (h : requestBlocks index blocks s = .ok r) : Chats s r.2 := by
  induction blocks generalizing s with
  | nil =>
      cases h
      exact chats_of_eq rfl rfl
  | cons block blocks ih =>
      obtain ⟨⟨ok, t⟩, hsend, ht⟩ := bind_eq_ok.mp h
      have hchats := msgSend_chats (.request _) trivial (by simp [Event.Chatter, PeerMsg.type]) hsend
      cases ok with
      | false =>
          cases ht
          exact hchats
      | true => exact hchats.trans (ih ht)

theorem requestLoop_chats {n : ℕ} {s : Session} {r : Option Bool × Session}
    (h : requestLoop n s = .ok r) : Chats s r.2 := by
  induction n generalizing s with
  | zero =>
      cases h
      exact chats_of_eq rfl rfl
  | succ n ih =>
      obtain ⟨next, -, h⟩ := bind_eq_ok.mp h
      cases next with
      | none =>
          cases h
          exact chats_of_eq rfl rfl
      | some next =>
          obtain ⟨⟨ok, t⟩, hblocks, ht⟩ := bind_eq_ok.mp h
          have hchats : Chats s t := Chats.trans (chats_of_eq rfl rfl) (requestBlocks_chats hblocks)
          cases ok with
          | false =>
              cases ht
              exact hchats
          | true => exact hchats.trans (ih ht)

theorem sendRequests_chats {s : Session} {r : Bool × Session} (h : sendRequests s = .ok r) :
    Chats s r.2 := by
  rw [sendRequests] at h
  split at h
  · cases h
    exact chats_of_eq rfl rfl
  obtain ⟨⟨result, t⟩, hloop, ht⟩ := bind_eq_ok.mp h
  have hchats : Chats s t := requestLoop_chats hloop
  cases result with
  | none =>
      cases ht
      exact hchats
  | some notInterested =>
      dsimp only at ht
      split at ht
      · obtain ⟨s', hshow, hs'⟩ := bind_eq_ok.mp ht
        cases hs'
        exact hchats.trans (showNotInterested_chats hshow)
      · cases ht
        exact hchats

/-! ### What the peer is told -/

/-- The events that a thread leaves behind once its bit field is sent. -/
def Event.Tame : Event → Prop
  | .msgSend msg _ => msg.type ≠ .msgBitfield ∧ msg.type ≠ .msgPiece
  | .sha1Verify _ _ => True

def Announced (events : List Event) (i : ℕ) : Prop :=
  ∃ index : UInt32, .msgSend (.haveMsg index) true ∈ events ∧ index.toNat = i

/-- Between two sessions the peer is told of the pieces that have come. -/
def Tells (s s' : Session) : Prop :=
  ∃ events, s'.log = s.log ++ events ∧ (∀ e ∈ events, e.Tame) ∧
    (s.sock.SendReliable → s'.sock.SendReliable ∧
      ∀ i, s'.torrent.Has i ↔ s.torrent.Has i ∨ Announced events i)

theorem Advances.has_iff {torrent torrent' : TorrentInfo}
    (h : Advances (fun _ => False) torrent torrent') (i : ℕ) :
    torrent'.Has i ↔ torrent.Has i :=
  ⟨fun hi => (h.gained i hi).elim id False.elim, h.stays i⟩

theorem not_announced {events : List Event} (h : ∀ e ∈ events, e.Chatter) (i : ℕ) :
    ¬ Announced events i := by
  rintro ⟨index, hmem, -⟩
  exact (h _ hmem).2.1 rfl

theorem Chats.tells {s s' : Session} (h : Chats s s')
    (hhas : ∀ i, s'.torrent.Has i ↔ s.torrent.Has i) : Tells s s' := by
  obtain ⟨events, hlog, hchat, hrel⟩ := h
  refine ⟨events, hlog, fun e he => ?_, fun h => ⟨hrel h, fun i => ?_⟩⟩
  · have hquiet := hchat e he
    cases e with
    | msgSend msg ok => exact ⟨hquiet.1, hquiet.2.2⟩
    | sha1Verify index valid => trivial
  · rw [hhas, or_iff_left (not_announced hchat i)]

theorem tells_of_eq {s s' : Session} (htorrent : s'.torrent = s.torrent) (hlog : s'.log = s.log)
    (hsock : s'.sock = s.sock) : Tells s s' :=
  (chats_of_eq hlog hsock).tells fun _ => by rw [htorrent]

theorem Checked.tells {s s' : Session} {index : UInt32} {valid : Bool}
    (h : Checked s s' index valid) : Tells s s' := by
  cases valid with
  | false =>
      obtain ⟨hsock, -, -, hlog⟩ := h.failed rfl
      refine ⟨_, hlog, by simp [Event.Tame], fun hrel => ⟨hsock ▸ hrel, fun i => ?_⟩⟩
      have hhas := (h.advances.mono fun _ h => absurd h.2 (by simp)).has_iff i
      rw [hhas, or_iff_left]
      rintro ⟨_, hmem, -⟩
      simp at hmem
  | true =>
      obtain ⟨hhas, -, ok, bytes, hlog, hstep, -, hok⟩ := h.verified rfl
      refine ⟨_, hlog, by simp [Event.Tame, PeerMsg.type], fun hrel => ⟨hstep.reliable hrel, ?_⟩⟩
      have htrue : ok = true := hok hrel
      subst htrue
      intro i
      constructor
      · intro hi
        rcases h.advances.gained i hi with hi | ⟨rfl, -⟩
        · exact .inl hi
        · exact .inr ⟨index, by simp, rfl⟩
      · rintro (hi | ⟨index', hmem, rfl⟩)
        · exact h.advances.stays i hi
        · simp only [List.mem_cons, reduceCtorEq, List.not_mem_nil, or_false, false_or,
            Event.msgSend.injEq, PeerMsg.haveMsg.injEq, and_true] at hmem
          exact hmem ▸ hhas

theorem Tells.congr_right {s t s' : Session} (h : Tells s t) (htorrent : s'.torrent = t.torrent)
    (hlog : s'.log = t.log) (hsock : s'.sock = t.sock) : Tells s s' := by
  obtain ⟨events, heq, htame, hrel⟩ := h
  refine ⟨events, hlog.trans heq, htame, fun h => ?_⟩
  rw [hsock, htorrent]
  exact hrel h

theorem processPieceMsg_tells {verify : Session → UInt32 → Except Crash Bool} {s s' : Session}
    (h : s.Accounted) {msg : PieceMsg} (heq : processPieceMsg verify s msg = .ok s') :
    Tells s s' := by
  obtain ⟨-, rfl⟩ | ⟨r, -, -, ⟨-, rfl⟩ | ⟨-, valid, t, hchecked, rfl⟩⟩ :=
    processPieceMsg_cases h heq
  · exact tells_of_eq rfl rfl rfl
  · exact tells_of_eq rfl rfl rfl
  · exact hchecked.tells.congr_right rfl rfl rfl

theorem processMsg_tells {verify : Session → UInt32 → Except Crash Bool} {s s' : Session}
    (h : s.Accounted) {msg : PeerMsg} (heq : processMsg verify s msg = .ok s') : Tells s s' := by
  cases msg with
  | haveMsg index =>
      rcases processHave_spec h index.toNat (fun _ => False) with ⟨t, ht, hgoes⟩ | ⟨herror, -⟩
      · rw [processMsg, ht] at heq
        cases heq
        exact (processHave_chats ht).tells hgoes.advances.has_iff
      · cases herror.symm.trans heq
  | bitfield bits =>
      rcases processBitfield_spec h bits (fun _ => False) with ⟨t, ht, hgoes⟩ | ⟨herror, -⟩
      · rw [processMsg, ht] at heq
        cases heq
        exact (processBitfield_chats ht).tells hgoes.advances.has_iff
      · cases herror.symm.trans heq
  | piece msg =>
      obtain ⟨t, ht, hs'⟩ := bind_eq_ok.mp heq
      cases hs'
      exact (processPieceMsg_tells h ht).congr_right rfl rfl rfl
  | _ =>
      cases heq
      exact tells_of_eq rfl rfl rfl

theorem recvMsg_tells {s : Session} (h : s.Accounted) {r : Bool × Session}
    (heq : recvMsg s = .ok r) : Tells s r.2 := by
  obtain ⟨⟨msg, sock, disk⟩, hrecv, hr⟩ := bind_eq_ok.mp heq
  obtain ⟨bytes, hstep⟩ := peerMsgRecv_onlyReceives s.torrent s.disk s.sock _ hrecv
  have hsends : s.sock.SendReliable → sock.SendReliable := fun h => by
    rw [Socket.SendReliable, hstep.sends]
    exact h
  have hrecvd : ∀ {s'}, Tells { s with sock := sock, disk := disk } s' → Tells s s' := by
    rintro s' ⟨events, hlog, htame, hrel⟩
    exact ⟨events, hlog, htame, fun h => hrel (hsends h)⟩
  cases msg with
  | none =>
      cases hr
      exact hrecvd (tells_of_eq rfl rfl rfl)
  | some msg =>
      obtain ⟨s', hs', hok⟩ := bind_eq_ok.mp hr
      cases hok
      exact hrecvd (processMsg_tells (h.received sock disk) hs')

theorem sendRequests_tells {s : Session} (h : s.Accounted) {r : Bool × Session}
    (heq : sendRequests s = .ok r) : Tells s r.2 := by
  obtain ⟨ok, s', hs', hgoes, -⟩ := sendRequests_spec h
  have hchats := sendRequests_chats heq
  rw [heq] at hs'
  cases hs'
  exact hchats.tells hgoes.advances.has_iff

/-! ### The thread -/

def Client.log : Client → List Event
  | .idle _ _ log => log
  | .connected s => s.log

/-- The connection goes on with this session, or it has ended with it. -/
def Client.From (c : Client) (s : Session) : Prop := c = .connected s ∨ c = s.hangUp

theorem Client.From.log {c : Client} {s : Session} (h : c.From s) : c.log = s.log := by
  rcases h with rfl | rfl
  · rfl
  · rfl

theorem connectionRound_cases {s : Session} {c : Client} (h : connectionRound s = .ok c) :
    ∃ s', c.From s' ∧ (s' = s ∨ ∃ ok, sendRequests s = .ok (ok, s')) := by
  obtain ⟨⟨ok, s'⟩, hrequests, hc⟩ := bind_eq_ok.mp h
  refine ⟨s', ?_, ?_⟩
  · split at hc
    · exact .inl (Except.ok.inj hc).symm
    · exact .inr (Except.ok.inj hc).symm
  · split at hrequests
    · exact .inr ⟨ok, hrequests⟩
    · cases hrequests
      exact .inl rfl

/-- **What a thread tells its peer.** On every step of a connection the peer is
told of the pieces that have come. -/
theorem clientStep_tells {s : Session} (h : s.Accounted) {a : Act ℕ} {c : Client}
    (hstep : clientStep processQueued (.connected s) a = .ok c) :
    ∃ s', c.From s' ∧ Tells s s' := by
  have hrefl : Tells s s := tells_of_eq rfl rfl rfl
  cases a with
  | connect sock =>
      cases hstep
      exact ⟨s, .inl rfl, hrefl⟩
  | drop =>
      cases hstep
      exact ⟨s, .inr rfl, hrefl⟩
  | receive avail =>
      rw [clientStep, processQueued] at hstep
      split at hstep
      · obtain ⟨⟨ok, s'⟩, hrecv, hc⟩ := bind_eq_ok.mp hstep
        refine ⟨s', ?_, recvMsg_tells h hrecv⟩
        cases ok with
        | true => exact .inl (Except.ok.inj hc).symm
        | false => exact .inr (Except.ok.inj hc).symm
      · cases hstep
        exact ⟨s, .inl rfl, hrefl⟩
  | round =>
      obtain ⟨s', hfrom, rfl | ⟨ok, hsend⟩⟩ := connectionRound_cases hstep
      · exact ⟨s', hfrom, hrefl⟩
      · exact ⟨s', hfrom, sendRequests_tells h hsend⟩

/-- What a connection starts with: a bit field of zeros, and chatter. When no
send fails, it goes on. -/
theorem connectionStart_log {torrent : TorrentInfo} (h : torrent.Accounted) (disk : Disk)
    (log : List Event) (sock : Socket) :
    ∃ c s ok events, connectionStart torrent disk log sock = .ok c ∧ c.From s ∧
      s.torrent = torrent ∧ s.state.localRequests = [] ∧
      s.log = log ++ .msgSend (.bitfield (List.replicate torrent.pieces.length false)) ok :: events ∧
      (∀ e ∈ events, e.Chatter) ∧
      (sock.SendReliable → c = .connected s ∧ s.sock.SendReliable ∧ ok = true) := by
  obtain ⟨state, hinit, hnone, -⟩ := connStateInit_spec h
  obtain ⟨ok, sock', bytes, heq, hstep, -, hok⟩ := msgSend_spec ⟨torrent, disk, sock, state, log⟩
    (.bitfield (List.replicate torrent.pieces.length false)) List.length_replicate
  rw [connectionStart, hinit, ok_bind, heq, ok_bind]
  cases ok with
  | false =>
      exact ⟨_, _, false, [], rfl, .inr rfl, rfl, hnone, rfl, by simp,
        fun h => absurd (hok h) Bool.false_ne_true⟩
  | true =>
      obtain ⟨s', hs', hframe⟩ := unchoke_spec (Session.sent ⟨torrent, disk, sock, state, log⟩
        (.bitfield (List.replicate torrent.pieces.length false)) true sock')
      obtain ⟨events, hlog, hchat, hrel⟩ := unchoke_chats hs'
      rw [if_pos rfl, hs', ok_bind]
      refine ⟨_, s', true, events, rfl, .inl rfl, hframe.torrent, hframe.localRequests.trans hnone,
        ?_, hchat, fun h => ⟨rfl, hrel (hstep.reliable h), rfl⟩⟩
      rw [hlog, Session.sent, List.append_assoc, List.singleton_append]

theorem clientStep_log {c c' : Client} (h : c.Accounted) {a : Act ℕ}
    (hstep : clientStep processQueued c a = .ok c') :
    ∃ events, c'.log = c.log ++ events ∧ ∀ msg ok, .msgSend (.piece msg) ok ∉ events := by
  cases c with
  | connected s =>
      obtain ⟨s', hfrom, events, hlog, htame, -⟩ := clientStep_tells h hstep
      exact ⟨events, hfrom.log.trans hlog, fun msg ok hmem => (htame _ hmem).2 rfl⟩
  | idle torrent disk log =>
      cases a with
      | connect sock =>
          obtain ⟨c', s, ok, events, heq, hfrom, -, -, hlog, hchat, -⟩ :=
            connectionStart_log h disk log sock
          cases heq.symm.trans hstep
          refine ⟨_, hfrom.log.trans hlog, fun msg ok hmem => ?_⟩
          rcases List.mem_cons.mp hmem with hmem | hmem
          · cases hmem
          · exact (hchat _ hmem).2.2 rfl
      | _ =>
          cases hstep
          exact ⟨[], (List.append_nil _).symm, fun _ _ hmem => nomatch hmem⟩

end Daobell
