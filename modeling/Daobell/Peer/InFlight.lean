import Daobell.Peer.Exchange
import Daobell.Peer.Unmapped

/-!
What is under way between the two ends. Every block that is outstanding has its
request in exactly one place: among the messages that the peer has not read,
among the requests that it owes an answer, or as that answer on the stream to us.
So no block comes that is not awaited, none comes twice, and what is there when
the count has come down is the piece.
-/

namespace Daobell

open Lib

section

variable (torrent : TorrentInfo) (contents : Bytes)

def PeerMsg.FromPeer : PeerMsg → Prop
  | .piece msg => msg.blockLen ≤ peerRequestSize
  | msg => msg.Streamed torrent ∧ msg.InRange torrent.pieces.length

/-- The messages under way, with `owed` and `taken` as in the `Exchange`. -/
structure Ledger (owed : List RequestMsg) (taken : ℕ) (s : Session)
    (incoming outgoing : List PeerMsg) : Prop where
  inp : s.sock.inp = incoming.flatMap (peerWire torrent contents)
  taken_le : taken ≤ s.sock.out.length
  out : s.sock.out.drop taken = outgoing.flatMap (PeerMsg.wire torrent)
  recv : s.sock.RecvReliable
  send : s.sock.SendReliable
  fromPeer : ∀ msg ∈ incoming, msg.FromPeer torrent
  toPeer : ∀ msg ∈ outgoing, msg.Streamed torrent
  tickets : (outgoing.filterMap PeerMsg.request? ++
    (owed ++ incoming.filterMap PeerMsg.answers?)).Perm
      (s.state.localRequests.flatMap PieceRequest.awaited)

/-- The program has the pieces that it says it has, when they can be in the files, and its
request is under way. -/
structure Client.Kept (c : Client) : Prop where
  accounted : c.Accounted
  pieces : c.torrent.pieces = torrent.pieces
  layout : c.torrent.layout = torrent.layout
  place : c.torrent.place = torrent.place
  stored : Storable torrent contents → ∀ i, c.torrent.Has i →
    (torrent.layout.pieceAddresses (UInt32.ofNat i)).map c.disk = pieceContents torrent contents i
  underway : ∀ r ∈ c.requests, Underway torrent contents c.disk r
  awaits : ∀ r ∈ c.requests, r.awaited ≠ []

structure Exchange.Sound (e : Exchange) : Prop where
  kept : e.client.Kept torrent contents
  flows : ∀ s, e.client = .connected s → ∃ incoming outgoing,
    Ledger torrent contents e.owed e.taken s incoming outgoing

end

section

variable {torrent : TorrentInfo} {contents : Bytes} {owed : List RequestMsg} {taken : ℕ}
  {s s' : Session} {incoming outgoing : List PeerMsg}

/-! ### The ledger -/

theorem filterMap_cons_toList {α β : Type} (f : α → Option β) (a : α) (as : List α) :
    (a :: as).filterMap f = (f a).toList ++ as.filterMap f := by
  cases h : f a <;> simp [h]

theorem Ledger.sent (h : Ledger torrent contents owed taken s incoming outgoing)
    {msgs : List PeerMsg}
    (hstep : SendStep s.sock s'.sock (msgs.flatMap (PeerMsg.wire torrent)))
    (hmsgs : ∀ msg ∈ msgs, msg.Streamed torrent)
    (htickets : (msgs.filterMap PeerMsg.request? ++
      s.state.localRequests.flatMap PieceRequest.awaited).Perm
        (s'.state.localRequests.flatMap PieceRequest.awaited)) :
    Ledger torrent contents owed taken s' incoming (outgoing ++ msgs) where
  inp := hstep.inp.trans h.inp
  taken_le := by
    rw [hstep.out, List.length_append]
    exact Nat.le_add_right_of_le h.taken_le
  out := by
    rw [hstep.out, List.drop_append_of_le_length h.taken_le, h.out, List.flatMap_append]
  recv := by
    rw [Socket.RecvReliable, hstep.recvs]
    exact h.recv
  send := hstep.reliable h.send
  fromPeer := h.fromPeer
  toPeer msg hmsg := (List.mem_append.mp hmsg).elim (h.toPeer msg) (hmsgs msg)
  tickets := by
    rw [List.perm_iff_count]
    intro ticket
    have hbefore := h.tickets.count_eq ticket
    have hnow := htickets.count_eq ticket
    simp only [List.filterMap_append, List.count_append] at hbefore hnow ⊢
    omega

theorem Ledger.received {msg : PeerMsg}
    (h : Ledger torrent contents owed taken s (msg :: incoming) outgoing)
    (hstep : RecvStep s.sock s'.sock (peerWire torrent contents msg))
    (htickets : (s.state.localRequests.flatMap PieceRequest.awaited).Perm
      (msg.answers?.toList ++ s'.state.localRequests.flatMap PieceRequest.awaited)) :
    Ledger torrent contents owed taken s' incoming outgoing where
  inp := by
    have hinp := hstep.inp.symm.trans h.inp
    rwa [List.flatMap_cons, List.append_cancel_left_eq] at hinp
  taken_le := by
    rw [hstep.out]
    exact h.taken_le
  out := by
    rw [hstep.out]
    exact h.out
  recv := hstep.reliable h.recv
  send := by
    rw [Socket.SendReliable, hstep.sends]
    exact h.send
  fromPeer msg hmsg := h.fromPeer msg (List.mem_cons_of_mem _ hmsg)
  toPeer := h.toPeer
  tickets := by
    rw [List.perm_iff_count]
    intro ticket
    have hbefore := h.tickets.count_eq ticket
    have hnow := htickets.count_eq ticket
    simp only [filterMap_cons_toList, List.count_append] at hbefore hnow ⊢
    omega

theorem Ledger.pushed (h : Ledger torrent contents owed taken s incoming outgoing) {msg : PeerMsg}
    (hmsg : msg.FromPeer torrent) {owed' : List RequestMsg}
    (howed : owed.Perm (msg.answers?.toList ++ owed')) :
    Ledger torrent contents owed' taken
      { s with sock := { s.sock with inp := s.sock.inp ++ peerWire torrent contents msg } }
      (incoming ++ [msg]) outgoing where
  inp := by rw [List.flatMap_append, List.flatMap_singleton, ← h.inp]
  taken_le := h.taken_le
  out := h.out
  recv := h.recv
  send := h.send
  fromPeer m hm := by
    rcases List.mem_append.mp hm with hm | hm
    · exact h.fromPeer m hm
    · rw [List.mem_singleton.mp hm]
      exact hmsg
  toPeer := h.toPeer
  tickets := by
    rw [List.perm_iff_count]
    intro ticket
    have hbefore := h.tickets.count_eq ticket
    have hnow := howed.count_eq ticket
    simp only [List.filterMap_append, filterMap_cons_toList, List.filterMap_nil,
      List.count_append, List.count_nil] at hbefore hnow ⊢
    omega

theorem Ledger.read {msg : PeerMsg}
    (h : Ledger torrent contents owed taken s incoming (msg :: outgoing)) :
    Ledger torrent contents (owed ++ msg.request?.toList)
      (taken + (msg.wire torrent).length) s incoming outgoing where
  inp := h.inp
  taken_le := by
    have hlen := congrArg List.length h.out
    rw [List.length_drop, List.flatMap_cons, List.length_append] at hlen
    have hle := h.taken_le
    have hpos := length_wire (h.toPeer msg List.mem_cons_self)
    omega
  out := by
    rw [← List.drop_drop, h.out, List.flatMap_cons, List.drop_left' rfl]
  recv := h.recv
  send := h.send
  fromPeer := h.fromPeer
  toPeer m hm := h.toPeer m (List.mem_cons_of_mem _ hm)
  tickets := by
    rw [List.perm_iff_count]
    intro ticket
    have hbefore := h.tickets.count_eq ticket
    simp only [filterMap_cons_toList, List.count_append] at hbefore ⊢
    omega

/-! ### What is kept -/

/-- Nothing but messages goes out, and the state changes elsewhere. -/
theorem Client.Kept.speaks (h : Client.Kept torrent contents (.connected s))
    {msgs : List PeerMsg} (hspeaks : Speaks s s' msgs) (haccounted : s'.Accounted)
    (hrequests : s'.state.localRequests = s.state.localRequests) :
    Client.Kept torrent contents (.connected s') := by
  obtain ⟨-, hpieces, hlayout, hplace, hstored, hunderway, hawaits⟩ := h
  obtain ⟨htorrent, hdisk, -⟩ := hspeaks
  simp only [Client.torrent, Client.disk, Client.requests] at *
  rw [← htorrent] at hpieces hlayout hplace hstored
  rw [← hdisk] at hstored hunderway
  rw [← hrequests] at hunderway hawaits
  exact ⟨haccounted, hpieces, hlayout, hplace, hstored, hunderway, hawaits⟩

theorem Client.Kept.hangUp (h : Client.Kept torrent contents (.connected s)) :
    Client.Kept torrent contents s.hangUp :=
  ⟨h.accounted.torrent, h.pieces, h.layout, h.place, h.stored,
    fun _ hr => absurd hr List.not_mem_nil, fun _ hr => absurd hr List.not_mem_nil⟩

theorem Client.Kept.lt_of_has {c : Client} (h : c.Kept torrent contents) {i : ℕ}
    (hi : c.torrent.Has i) : i < torrent.pieces.length := by
  rw [← h.pieces, ← h.accounted.torrent.length]
  exact (List.getElem?_eq_some_iff.mp hi).1

/-- While what has been right stays so, the pieces that are there stay there. -/
theorem Client.Kept.store (h : Client.Kept torrent contents (.connected s))
    (hdescribes : Describes torrent contents) {disk : Disk}
    (hright : Storable torrent contents → ∀ c : Address → UInt8,
      (addresses torrent.layout.sizes).map c = contents →
        ∀ p ∈ addresses torrent.layout.sizes, s.disk p = c p → disk p = c p)
    (hstorable : Storable torrent contents) {i : ℕ} (hi : s.torrent.Has i) :
    (torrent.layout.pieceAddresses (UInt32.ofNat i)).map disk =
      pieceContents torrent contents i := by
  have hlt := h.lt_of_has hi
  have hindex : (UInt32.ofNat i).toNat = i := toNat_ofNat_index hlt
  have hbefore := h.stored hstorable i hi
  obtain ⟨c, rfl⟩ := hdescribes.exists_values
  rw [← hindex] at hlt
  rw [← hindex, hdescribes.pieceContents_map hlt, hindex]
  rw [← hindex, hdescribes.pieceContents_map hlt, hindex, List.map_inj_left] at hbefore
  exact List.map_congr_left fun p hp =>
    hright hstorable c rfl p (pieceAddresses_subset _ _ hp) (hbefore p hp)

/-! ### A message is received -/

variable (torrent contents) in
/-- What becomes of a message that is received, with the messages that are sent on
account of it. -/
inductive Receipt (s s' : Session) (msg : PeerMsg) : List PeerMsg → Prop
  | noted (received : PeerMsg) (msgs : List PeerMsg) (hmsg : msg.type ≠ .msgPiece)
      (hecho : Echo s.torrent msg received)
      (hnoted : Noted s.torrent s.state s'.state received msgs)
      (htorrent : s'.torrent = s.torrent) : Receipt s s' msg msgs
  | counted (piece : PieceMsg) (r : PieceRequest) (hmsg : msg = .piece piece)
      (hr : s.state.localRequests = [r]) (hleft : (r.receive piece).awaited ≠ [])
      (hstate : s'.state = s.state.setRequests [r.receive piece])
      (htorrent : s'.torrent = s.torrent) : Receipt s s' msg []
  | finished (piece : PieceMsg) (r : PieceRequest) (hmsg : msg = .piece piece)
      (hr : s.state.localRequests = [r]) (hstate : s'.state = s.state.setRequests [])
      (hadvances : Advances (· = r.pieceIndex.toNat) s.torrent s'.torrent)
      (hleft : s'.torrent.sh.piecesLeft + 1 = s.torrent.sh.piecesLeft) :
      Receipt s s' msg [.haveMsg r.pieceIndex]
  /-- the piece is not what it should be: its contents cannot be in the files -/
  | failed (piece : PieceMsg) (r : PieceRequest) (hmsg : msg = .piece piece)
      (hr : s.state.localRequests = [r]) (hstate : s'.state = s.state.setRequests [])
      (hunfit : ¬ Storable torrent contents) : Receipt s s' msg []

theorem Echo.type {sent received : PeerMsg} (h : Echo torrent sent received) :
    received.type = sent.type := by
  cases sent with
  | bitfield bits =>
      obtain ⟨bits', rfl, -⟩ := h
      rfl
  | _ =>
      obtain rfl : received = _ := h
      rfl

theorem Echo.inRange {sent received : PeerMsg} (h : Echo torrent sent received)
    (hsent : sent.InRange torrent.pieces.length) : received.InRange torrent.pieces.length := by
  cases sent with
  | bitfield bits =>
      obtain ⟨bits', rfl, hlen, -⟩ := h
      simp only [PeerMsg.InRange]
      omega
  | _ =>
      obtain rfl : received = _ := h
      exact hsent

theorem peerWire_of_ne {msg : PeerMsg} (h : msg.type ≠ .msgPiece) :
    peerWire torrent contents msg = msg.wire torrent := by
  cases msg with
  | piece msg => exact absurd rfl h
  | _ => rfl

theorem fromPeer_of_ne {msg : PeerMsg} (h : msg.type ≠ .msgPiece) :
    msg.FromPeer torrent ↔ msg.Streamed torrent ∧ msg.InRange torrent.pieces.length := by
  cases msg with
  | piece msg => exact absurd rfl h
  | _ => rfl

theorem answers?_of_ne {msg : PeerMsg} (h : msg.type ≠ .msgPiece) : msg.answers? = none := by
  cases msg with
  | piece msg => exact absurd rfl h
  | _ => rfl

variable (contents) in
theorem peerWire_length {msg : PeerMsg} (h : msg.FromPeer torrent) :
    ∃ len payload, len < 2 ^ 32 ∧ payload.length = len ∧
      peerWire torrent contents msg = wordBytes (UInt32.ofNat len) ++ payload := by
  by_cases hmsg : msg.type = .msgPiece
  · cases msg with
    | piece piece =>
        have hle := (List.length_take_le piece.blockLen ((pieceContents torrent contents
          piece.index.toNat).drop piece.begin.toNat)).trans h
        simp only [peerRequestSize] at hle
        refine ⟨_, _, ?_, ?_, rfl⟩
        · omega
        · simp only [List.length_append, length_wordBytes, List.length_singleton]
          omega
    | _ => cases hmsg
  · rw [peerWire_of_ne hmsg]
    have hstreamed := ((fromPeer_of_ne hmsg).mp h).1
    have hlen := length_wire hstreamed
    rw [PeerMsg.wire, List.length_append, length_wordBytes] at hlen
    exact ⟨_, _, msgLength_lt msg.type torrent, Nat.add_left_cancel hlen, rfl⟩

theorem recvMsg_noted {msg : PeerMsg} (hkept : Client.Kept torrent contents (.connected s))
    (hdescribes : Describes torrent contents)
    (h : Ledger torrent contents owed taken s (msg :: incoming) outgoing)
    (hmsg : msg.type ≠ .msgPiece) :
    ∃ s' msgs, recvMsg s = .ok (true, s') ∧ Receipt torrent contents s s' msg msgs ∧
      Client.Kept torrent contents (.connected s') ∧
      Ledger torrent contents owed taken s' incoming (outgoing ++ msgs) := by
  have hpieces : s.torrent.pieces = torrent.pieces := hkept.pieces
  have hs : s.Accounted := hkept.accounted
  obtain ⟨hstreamed, hrange⟩ := (fromPeer_of_ne hmsg).mp (h.fromPeer msg List.mem_cons_self)
  have hinp := h.inp
  rw [List.flatMap_cons, peerWire_of_ne hmsg, ← wire_congr hpieces] at hinp
  obtain ⟨received, sock, heq, hecho, hstep, hrest⟩ := peerMsgRecv_receives
    (show 1 ≤ s.torrent.pieces.length by rw [hpieces]; exact hdescribes.nonempty) s.disk
    ((streamed_congr hpieces msg).mpr hstreamed) s.sock _ h.recv hinp
  dsimp only at heq
  have ht := hs.received sock s.disk
  have hledger : Ledger torrent contents owed taken { s with sock := sock } incoming outgoing := by
    rw [wire_congr hpieces, ← (peerWire_of_ne hmsg : peerWire torrent contents msg = _)] at hstep
    refine h.received hstep ?_
    rw [answers?_of_ne hmsg]
    exact List.Perm.refl _
  obtain ⟨s', msgs, hprocess, hspeaks, hnoted⟩ := processMsg_speaks Session.sha1Verify ht
    hledger.send (hecho.type ▸ hmsg) (hecho.inRange (by rw [hpieces]; exact hrange))
  have haccounted : s'.Accounted := by
    rcases processMsg_spec Session.sha1Verify ht received with ⟨t, ht', hgoes⟩ | ⟨_, herror, -⟩
    · cases hprocess.symm.trans ht'
      exact hgoes.accounted
    · cases hprocess.symm.trans herror
  have hsock : Client.Kept torrent contents (.connected { s with sock := sock }) :=
    ⟨ht, hkept.pieces, hkept.layout, hkept.place, hkept.stored, hkept.underway, hkept.awaits⟩
  have hrequests : s'.state.localRequests = s.state.localRequests := hnoted.localRequests
  refine ⟨s', msgs, ?_, .noted received msgs hmsg hecho hnoted hspeaks.torrent,
    hsock.speaks hspeaks haccounted hrequests, ?_⟩
  · rw [recvMsg, heq, ok_bind]
    simp only [hprocess, ok_bind]
  · refine hledger.sent ?_ ?_ ?_
    · rw [← wire_congr hpieces]
      exact hspeaks.sock
    · rcases hnoted.sent_cases with rfl | rfl
      · simp
      · simp [PeerMsg.Streamed]
    · rw [hrequests]
      rcases hnoted.sent_cases with rfl | rfl
      · exact List.Perm.refl _
      · exact List.Perm.refl _

theorem Ledger.awaited {piece : PieceMsg} (hs : s.Accounted)
    (h : Ledger torrent contents owed taken s (.piece piece :: incoming) outgoing) :
    ∃ r, s.state.localRequests = [r] ∧
      ⟨piece.index, piece.begin, UInt32.ofNat piece.blockLen⟩ ∈ r.awaited := by
  have hmem := h.tickets.subset (List.mem_append_right _ (List.mem_append_right _
    (List.mem_filterMap.mpr ⟨.piece piece, List.mem_cons_self, rfl⟩)))
  obtain ⟨r, hr, hticket⟩ := List.mem_flatMap.mp hmem
  refine ⟨r, ?_, hticket⟩
  obtain ⟨before, after, hsplit⟩ := List.append_of_mem hr
  have hone := hs.outstanding
  rw [hsplit, List.length_append, List.length_cons] at hone
  rw [hsplit, List.length_eq_zero_iff.mp (show before.length = 0 by omega),
    List.length_eq_zero_iff.mp (show after.length = 0 by omega), List.nil_append]

/-- **An answer is received.** It is counted down, or it is the last and the piece is
checked. -/
theorem recvMsg_answer {piece : PieceMsg}
    (hkept : Client.Kept torrent contents (.connected s)) (hdescribes : Describes torrent contents)
    (h : Ledger torrent contents owed taken s (.piece piece :: incoming) outgoing) :
    ∃ s' msgs, recvMsg s = .ok (true, s') ∧ Receipt torrent contents s s' (.piece piece) msgs ∧
      Client.Kept torrent contents (.connected s') ∧
      Ledger torrent contents owed taken s' incoming (outgoing ++ msgs) := by
  have hs : s.Accounted := hkept.accounted
  obtain ⟨r, hr, hticket⟩ := h.awaited hs
  have hunderway := hkept.underway r (by simp [Client.requests, hr])
  have hlen : piece.blockLen < 2 ^ 32 :=
    lt_of_le_of_lt (h.fromPeer (.piece piece) List.mem_cons_self) (by decide)
  have hinp := h.inp
  rw [List.flatMap_cons] at hinp
  obtain ⟨sock, disk, heq, hstep, hrest, hunderway', hindex, hperm, hright⟩ := recvMsg_piece
    hdescribes hs hkept.layout hkept.place hr hunderway h.recv hlen hticket hinp
  have ht := hs.received sock disk
  by_cases hnone : (r.receive piece).awaited = []
  -- the piece is whole
  · obtain ⟨s', hprocess, haccounted, hdisk, hstate, houtcome⟩ :=
      processPiece_finished (s := { s with sock := sock, disk := disk }) hdescribes ht
        hkept.pieces hkept.layout hr (by rw [Socket.SendReliable, hstep.sends]; exact h.send)
        hindex hunderway' hnone
    rw [hnone] at hperm
    have hmid : Ledger torrent contents owed taken
        { s with sock := sock, disk := disk, state := s.state.setRequests [] } incoming
          outgoing := by
      refine h.received hstep ?_
      rw [hr, List.flatMap_singleton]
      exact hperm
    have hrecv : recvMsg s = .ok (true, s') := by rw [heq, hprocess, ok_bind]
    have hkept' : ∀ {P : ℕ → Prop}, Advances P s.torrent s'.torrent →
        (∀ i, P i → i = r.pieceIndex.toNat) → Client.Kept torrent contents (.connected s') := by
      intro P hadvances hP
      refine ⟨haccounted, hadvances.pieces.trans hkept.pieces, hadvances.layout.trans hkept.layout,
        hadvances.place.trans hkept.place, fun hstorable i hi => ?_, ?_, ?_⟩
      · rw [Client.disk, hdisk]
        rcases hadvances.gained i hi with hbefore | hnow
        · exact hkept.store hdescribes hright hstorable hbefore
        · obtain rfl := hP i hnow
          have hplace := hunderway'.complete hdescribes hstorable hnone
          rw [pieceIndex_receive] at hplace
          rwa [UInt32.ofNat_toNat]
      · rw [Client.requests, hstate]
        exact fun _ hr => absurd hr List.not_mem_nil
      · rw [Client.requests, hstate]
        exact fun _ hr => absurd hr List.not_mem_nil
    rcases houtcome with ⟨hadvances, hleft, hsent⟩ | ⟨hunfit, hadvances, hsock⟩
    · refine ⟨s', _, hrecv, .finished piece r rfl hr hstate hadvances hleft,
        hkept' hadvances fun _ => id, hmid.sent ?_ ?_ ?_⟩
      · simpa using hsent
      · simp [PeerMsg.Streamed]
      · rw [hstate]
        exact List.Perm.refl _
    · refine ⟨s', _, hrecv, .failed piece r rfl hr hstate hunfit,
        hkept' hadvances fun _ => False.elim, hmid.sent ?_ ?_ ?_⟩
      · rw [hsock]
        exact SendStep.refl _
      · simp
      · rw [hstate]
        exact List.Perm.refl _
  · have hleft : (r.receive piece).blocksLeft ≠ 0 :=
      fun h0 => hnone (hunderway'.awaited_eq_nil_iff.mpr h0)
    have hprocess := processPiece_counted (s := { s with sock := sock, disk := disk }) hr hindex
      hleft
    refine ⟨{ s with sock := sock, disk := disk, state := s.state.setRequests [r.receive piece] },
      [], ?_, .counted piece r rfl hr hnone rfl rfl, ?_, ?_⟩
    · rw [heq, hprocess, ok_bind]
    · refine ⟨⟨hs.torrent, hs.peerHave, hs.localHave, le_rfl, fun r' hr' => ?_⟩, hkept.pieces,
        hkept.layout, hkept.place, hkept.store hdescribes hright, fun r' hr' => ?_, fun r' hr' => ?_⟩
      · rw [List.mem_singleton.mp hr', pieceIndex_receive]
        exact hs.requested r (by simp [hr])
      · rw [List.mem_singleton.mp hr']
        exact hunderway'
      · rw [List.mem_singleton.mp hr']
        exact hnone
    · rw [List.append_nil]
      refine h.received hstep ?_
      rw [hr, List.flatMap_singleton]
      exact hperm.trans (List.Perm.of_eq (by simp [PeerMsg.answers?, ConnState.setRequests]))

/-- **A message is received.** -/
theorem recvMsg_receipt {msg : PeerMsg} (hkept : Client.Kept torrent contents (.connected s))
    (hdescribes : Describes torrent contents)
    (h : Ledger torrent contents owed taken s (msg :: incoming) outgoing) :
    ∃ s' msgs, recvMsg s = .ok (true, s') ∧ Receipt torrent contents s s' msg msgs ∧
      Client.Kept torrent contents (.connected s') ∧
      Ledger torrent contents owed taken s' incoming (outgoing ++ msgs) := by
  by_cases hmsg : msg.type = .msgPiece
  · cases msg with
    | piece piece => exact recvMsg_answer hkept hdescribes h
    | _ => cases hmsg
  · exact recvMsg_noted hkept hdescribes h hmsg

/-! ### A round -/

theorem RoundStep.kept (hkept : Client.Kept torrent contents (.connected s))
    (hdescribes : Describes torrent contents)
    (h : Ledger torrent contents owed taken s incoming outgoing) (hstep : RoundStep s s')
    (haccounted : s'.Accounted) :
    Client.Kept torrent contents (.connected s') ∧
      ∃ msgs, Ledger torrent contents owed taken s' incoming (outgoing ++ msgs) := by
  have hpieces : s.torrent.pieces = torrent.pieces := hkept.pieces
  have hlayout : s.torrent.layout = torrent.layout := hkept.layout
  cases hstep with
  | rests heq =>
      subst heq
      exact ⟨hkept, [], by rwa [List.append_nil]⟩
  | losesInterest hchoked hnone hlacks hspeaks hstate =>
      have hrequests : s'.state.localRequests = s.state.localRequests := by
        rw [hstate]
        rfl
      refine ⟨hkept.speaks hspeaks haccounted hrequests, [.notInterested], h.sent ?_ ?_ ?_⟩
      · rw [← wire_congr hpieces]
        exact hspeaks.sock
      · simp [PeerMsg.Streamed]
      · rw [hrequests]
        exact List.Perm.refl _
  | asks i hchoked hinterested hnone hpeer hlacks hspeaks hstate =>
      obtain ⟨old, hold, hne⟩ := hlacks
      have hs : s.Accounted := hkept.accounted
      have hi : (UInt32.ofNat i).toNat = i ∧ i < torrent.pieces.length := by
        have hlt : i < torrent.pieces.length := by
          rw [← hpieces, ← hs.torrent.length]
          exact (List.getElem?_eq_some_iff.mp hold).1
        exact ⟨toNat_ofNat_index hlt, hlt⟩
      have hadvances := (hs.torrent.setState hold hne
        (show PieceState.stateRequested ≠ .stateHave by decide)).2
      have htorrent : s'.torrent = s.torrent.setState i .stateRequested := hspeaks.torrent
      have hdisk : s'.disk = s.disk := hspeaks.disk
      have hrequests : s'.state.localRequests =
          [pieceRequestCreate torrent.layout (UInt32.ofNat i)] := by
        rw [hstate, ← hlayout]
        rfl
      obtain ⟨hunderway, hawaited⟩ := underway_pieceRequestCreate hdescribes (hi.1 ▸ hi.2) s.disk
      refine ⟨⟨haccounted, ?_, ?_, ?_, fun hstorable j hj => ?_, fun r hr => ?_, fun r hr => ?_⟩,
        (pieceRequestCreate s.torrent.layout (UInt32.ofNat i)).blockRequests.map
          (pieceRequestCreate s.torrent.layout (UInt32.ofNat i)).ask, h.sent ?_ ?_ ?_⟩
      · rw [Client.torrent, htorrent]
        exact hpieces
      · rw [Client.torrent, htorrent]
        exact hlayout
      · rw [Client.torrent, htorrent]
        exact hkept.place
      · rw [Client.torrent, htorrent] at hj
        rw [Client.disk, hdisk]
        exact hkept.stored hstorable j ((hadvances.gained j hj).resolve_right id)
      · rw [Client.requests, hrequests] at hr
        rw [List.mem_singleton.mp hr, Client.disk, hdisk]
        exact hunderway
      · rw [Client.requests, hrequests] at hr
        rw [List.mem_singleton.mp hr, hawaited, ← List.length_pos_iff, List.length_map,
          length_blockRequests, lt_chunkCount_iff (by decide), Nat.mul_zero]
        exact hdescribes.piece_pos (by rw [hi.1]; exact hi.2)
      · rw [← wire_congr hpieces]
        exact hspeaks.sock
      · intro msg hmsg
        obtain ⟨block, -, rfl⟩ := List.mem_map.mp hmsg
        trivial
      · rw [hrequests, hnone, List.flatMap_singleton, List.flatMap_nil, List.append_nil, hawaited,
          hlayout, List.filterMap_map]
        exact List.Perm.of_eq (congrFun List.filterMap_eq_map _)

theorem RoundStep.accounted (h : s.Accounted) (hstep : RoundStep s s') : s'.Accounted := by
  cases hstep with
  | rests heq =>
      subst heq
      exact h
  | losesInterest hchoked hnone hlacks hspeaks hstate =>
      refine h.frame ⟨hspeaks.torrent, hspeaks.disk, ?_, ?_, ?_⟩
      · rw [hstate]
        rfl
      · rw [hstate]
        rfl
      · rw [hstate]
        rfl
  | asks i hchoked hinterested hnone hpeer hlacks hspeaks hstate =>
      obtain ⟨old, hold, hne⟩ := hlacks
      have hi := (List.getElem?_eq_some_iff.mp hold).1
      have hindex : (UInt32.ofNat i).toNat = i :=
        toNat_ofNat_index (show i < s.torrent.pieces.length by rwa [← h.torrent.length])
      have hasking : (s.asking i).Accounted := by
        refine ⟨(h.torrent.setState hold hne (by decide)).1, h.peerHave, h.localHave, le_rfl, ?_⟩
        intro r hr
        rw [List.mem_singleton.mp hr]
        simp [Session.asking, pieceRequestCreate, hindex, TorrentInfo.setState, hi]
      refine hasking.frame ⟨hspeaks.torrent, hspeaks.disk, ?_, ?_, ?_⟩
      · rw [hstate]
      · rw [hstate]
      · rw [hstate]

/-! ### What the steps do -/

/-- The thread looks for a message: there is none, it has not all arrived, or it is
received. -/
theorem processQueued_cases (hkept : Client.Kept torrent contents (.connected s))
    (hdescribes : Describes torrent contents)
    (h : Ledger torrent contents owed taken s incoming outgoing) (avail : ℕ) :
    processQueued s avail = .ok (.connected s) ∧ (incoming = [] ∨ avail < s.sock.inp.length) ∨
      ∃ msg rest s' msgs, incoming = msg :: rest ∧
        processQueued s avail = .ok (.connected s') ∧ Receipt torrent contents s s' msg msgs ∧
        Client.Kept torrent contents (.connected s') ∧
        Ledger torrent contents owed taken s' rest (outgoing ++ msgs) := by
  rw [processQueued]
  cases incoming with
  | nil =>
      have hinp : s.sock.inp = [] := h.inp
      have hnone : peerMsgBuffNonempty s.sock avail = false := by
        simp [peerMsgBuffNonempty, hinp]
      rw [hnone]
      exact .inl ⟨rfl, .inl rfl⟩
  | cons msg rest =>
      by_cases hnonempty : peerMsgBuffNonempty s.sock avail = true
      · obtain ⟨s', msgs, heq, hreceipt, hkept', hledger⟩ := recvMsg_receipt hkept hdescribes h
        rw [if_pos hnonempty, heq]
        exact .inr ⟨msg, rest, s', msgs, rfl, rfl, hreceipt, hkept', hledger⟩
      · rw [if_neg hnonempty]
        refine .inl ⟨rfl, .inr (Nat.lt_of_not_le fun havail => hnonempty ?_)⟩
        obtain ⟨len, payload, hlen, hpayload, hwire⟩ := peerWire_length contents
          (h.fromPeer msg List.mem_cons_self)
        have hinp := h.inp
        rw [List.flatMap_cons, hwire] at hinp
        exact peerMsgBuffNonempty_of_wire hlen hpayload hinp havail

theorem connectionRound_ledger (hkept : Client.Kept torrent contents (.connected s))
    (hdescribes : Describes torrent contents)
    (h : Ledger torrent contents owed taken s incoming outgoing) :
    ∃ s' msgs, RoundStep s s' ∧
      connectionRound s = .ok (if s.torrent.sh.completed then s'.hangUp else .connected s') ∧
      Client.Kept torrent contents (.connected s') ∧
      Ledger torrent contents owed taken s' incoming (outgoing ++ msgs) := by
  obtain ⟨s', hstep, heq⟩ := connectionRound_speaks hkept.accounted h.send
  obtain ⟨hkept', msgs, hledger⟩ := hstep.kept hkept hdescribes h (hstep.accounted hkept.accounted)
  exact ⟨s', msgs, hstep, heq, hkept', hledger⟩

theorem connectionStart_ledger {client : Client} (hkept : client.Kept torrent contents)
    {t : TorrentInfo} {disk : Disk} {log : List Event} (hclient : client = .idle t disk log)
    (recvs sends : List ℕ) :
    ∃ s, clientStep processQueued client (.connect
        ⟨peerWire torrent contents (.bitfield (List.replicate torrent.pieces.length true)),
          recvs.map Reply.transfers, [], sends.map Reply.transfers⟩) = .ok (.connected s) ∧
      Client.Kept torrent contents (.connected s) ∧
      Ledger torrent contents [] 0 s [.bitfield (List.replicate torrent.pieces.length true)]
        [.bitfield (List.replicate torrent.pieces.length false), .unchoke] ∧
      s.state.localState = ⟨true, false⟩ ∧ s.state.peerRequests = [] ∧
      s.state.localRequests = [] ∧
      s.state.peerHave = List.replicate torrent.pieces.length false := by
  subst hclient
  have hpieces : t.pieces = torrent.pieces := hkept.pieces
  obtain ⟨s, heq, haccounted, htorrent, hdisk, hstep, hlocal, hpeer, hrequests, hhave⟩ :=
    connectionStart_speaks hkept.accounted disk log
      (show Socket.SendReliable
        ⟨peerWire torrent contents (.bitfield (List.replicate torrent.pieces.length true)),
          recvs.map Reply.transfers, [], sends.map Reply.transfers⟩ by simp [Socket.SendReliable])
  rw [hpieces] at hhave hstep
  rw [wire_congr hpieces] at hstep
  refine ⟨s, heq, ⟨haccounted, ?_, ?_, ?_, ?_, ?_, ?_⟩, ?_, hlocal, hpeer, hrequests, hhave⟩
  · rw [Client.torrent, htorrent]
    exact hpieces
  · rw [Client.torrent, htorrent]
    exact hkept.layout
  · rw [Client.torrent, htorrent]
    exact hkept.place
  · rw [Client.torrent, Client.disk, htorrent, hdisk]
    exact hkept.stored
  · rw [Client.requests, hrequests]
    exact fun _ hr => absurd hr List.not_mem_nil
  · rw [Client.requests, hrequests]
    exact fun _ hr => absurd hr List.not_mem_nil
  · refine ⟨?_, Nat.zero_le _, hstep.out, ?_, hstep.reliable (by simp [Socket.SendReliable]), ?_,
      ?_, ?_⟩
    · rw [hstep.inp, List.flatMap_singleton]
    · rw [Socket.RecvReliable, hstep.recvs]
      simp
    · simp [PeerMsg.FromPeer, PeerMsg.Streamed, PeerMsg.InRange]
    · simp [PeerMsg.Streamed]
    · rw [hrequests]
      exact List.Perm.refl _

/-- The peer reads the first of the messages that it has not read. -/
theorem read_cons {e : Exchange} (hdescribes : Describes torrent contents)
    (hclient : e.client = .connected s) {msg : PeerMsg}
    (h : Ledger torrent contents e.owed e.taken s incoming (msg :: outgoing)) :
    e.read torrent = { e with
      owed := e.owed ++ msg.request?.toList
      taken := e.taken + (msg.wire torrent).length } := by
  have hout := h.out
  rw [List.flatMap_cons] at hout
  obtain ⟨received, sock, heq, hecho, -, hrest⟩ := peerMsgRecv_receives hdescribes.nonempty
    (fun _ => 0) (h.toPeer msg List.mem_cons_self) ⟨s.sock.out.drop e.taken, [], [], []⟩ _
    (by simp [Socket.RecvReliable]) hout
  dsimp only at heq
  have hrequest : received.request? = msg.request? := by
    cases msg with
    | bitfield bits =>
        obtain ⟨bits', rfl, -⟩ := hecho
        rfl
    | _ =>
        obtain rfl : received = _ := hecho
        rfl
  have hlen := congrArg List.length hout
  rw [← hrest, List.length_drop, List.length_append] at hlen
  have hle := h.taken_le
  have hpos := length_wire (h.toPeer msg List.mem_cons_self)
  have htaken : s.sock.out.length - sock.inp.length = e.taken + (msg.wire torrent).length := by
    omega
  simp only [Exchange.read, hclient, heq, hrequest, htaken]

theorem read_nil {e : Exchange} (hclient : e.client = .connected s)
    (h : Ledger torrent contents e.owed e.taken s incoming []) : e.read torrent = e := by
  have hout : s.sock.out.drop e.taken = [] := h.out
  have hrecv : peerMsgRecv ⟨[], [], [], []⟩ torrent (fun _ => 0) =
      .ok (none, ⟨[], [], [], []⟩, fun _ => 0) := rfl
  simp only [Exchange.read, hclient, hout, hrecv]

theorem Ledger.owed_le (hkept : Client.Kept torrent contents (.connected s))
    (h : Ledger torrent contents owed taken s incoming outgoing) {r : RequestMsg}
    (hr : r ∈ owed) : r.length.toNat ≤ peerRequestSize := by
  have hmem := h.tickets.subset (List.mem_append_right _ (List.mem_append_left _ hr))
  obtain ⟨request, hrequest, hticket⟩ := List.mem_flatMap.mp hmem
  obtain ⟨block, hblock, rfl⟩ := List.mem_map.mp hticket
  obtain ⟨j, hj⟩ := List.mem_iff_getElem?.mp (List.mem_filter.mp hblock).1
  obtain ⟨hlt, -, hlen, -⟩ := (hkept.underway request hrequest).block hj
  have hle := (blockAddresses_length hlt).2
  rw [← hlen] at hle
  simp only [PieceRequest.ticket, peerRequestSize] at hle ⊢
  rwa [UInt32.toNat_ofNat_of_lt' (show block.len < 2 ^ 32 by omega)]

theorem Ledger.answered (hkept : Client.Kept torrent contents (.connected s))
    (h : Ledger torrent contents owed taken s incoming outgoing) {k : ℕ} {r : RequestMsg}
    (hr : owed[k]? = some r) :
    Ledger torrent contents (owed.eraseIdx k) taken
      { s with sock := { s.sock with inp := s.sock.inp ++ peerWire torrent contents r.answer } }
      (incoming ++ [r.answer]) outgoing := by
  obtain ⟨hk, rfl⟩ := List.getElem?_eq_some_iff.mp hr
  have hfrom : PeerMsg.FromPeer torrent owed[k].answer := h.owed_le hkept (List.getElem_mem hk)
  refine h.pushed hfrom ?_
  have hanswers : owed[k].answer.answers? = some owed[k] := by
    simp [RequestMsg.answer, PeerMsg.answers?]
  rw [hanswers]
  exact (List.getElem_cons_eraseIdx_perm hk).symm

/-- What is on the stream has nothing to do with what is kept. -/
theorem Client.Kept.sock (h : Client.Kept torrent contents (.connected s)) (sock : Socket) :
    Client.Kept torrent contents (.connected { s with sock := sock }) :=
  ⟨Session.Accounted.received h.accounted sock s.disk, h.pieces, h.layout, h.place, h.stored,
    h.underway, h.awaits⟩

theorem Exchange.Sound.push {e : Exchange} (h : e.Sound torrent contents) {msg : PeerMsg}
    (hmsg : msg.FromPeer torrent) (hanswers : msg.answers? = none) :
    (e.push torrent contents msg).Sound torrent contents := by
  cases hclient : e.client with
  | idle t disk log =>
      rw [Exchange.push, hclient]
      exact h
  | connected s =>
      obtain ⟨incoming, outgoing, hledger⟩ := h.flows s hclient
      have hkept := h.kept
      rw [hclient] at hkept
      rw [Exchange.push, hclient]
      refine ⟨hkept.sock _, ?_⟩
      rintro _ ⟨⟩
      refine ⟨_, _, hledger.pushed hmsg ?_⟩
      rw [hanswers]
      exact List.Perm.refl _

theorem Exchange.Sound.proceed {e : Exchange} (h : e.Sound torrent contents)
    (hdescribes : Describes torrent contents) {a : Act ℕ} (ha : ∀ sock, a ≠ .connect sock) :
    ∃ e', e.proceed a = .ok e' ∧ e'.Sound torrent contents := by
  obtain ⟨client, choking, owed, taken⟩ := e
  obtain ⟨hkept, hflows⟩ := h
  rw [Exchange.proceed]
  cases client with
  | idle t disk log =>
      cases a with
      | connect sock => exact absurd rfl (ha sock)
      | _ => exact ⟨_, rfl, hkept, hflows⟩
  | connected s =>
      obtain ⟨incoming, outgoing, hledger⟩ := hflows s rfl
      cases a with
      | connect sock => exact absurd rfl (ha sock)
      | drop => exact ⟨_, rfl, hkept.hangUp, fun _ hs => by cases hs⟩
      | receive avail =>
          rcases processQueued_cases hkept hdescribes hledger avail with
            ⟨heq, -⟩ | ⟨msg, rest, s', msgs, -, heq, -, hkept', hledger'⟩
          · exact ⟨_, by rw [clientStep, heq, ok_bind], hkept, hflows⟩
          · refine ⟨_, by rw [clientStep, heq, ok_bind], hkept', ?_⟩
            rintro _ ⟨⟩
            exact ⟨_, _, hledger'⟩
      | round =>
          obtain ⟨s', msgs, -, heq, hkept', hledger'⟩ :=
            connectionRound_ledger hkept hdescribes hledger
          refine ⟨_, by rw [clientStep, heq, ok_bind], ?_⟩
          cases s.torrent.sh.completed with
          | true => exact ⟨hkept'.hangUp, fun _ hs => by cases hs⟩
          | false =>
              refine ⟨hkept', ?_⟩
              rintro _ ⟨⟩
              exact ⟨_, _, hledger'⟩

/-- **A step.** Nothing stops the program, and what is under way stays in order. -/
theorem exchangeStep_sound {e : Exchange} (h : e.Sound torrent contents)
    (hdescribes : Describes torrent contents) {a : ExchangeAct} (ha : a.Proper torrent) :
    ∃ e', exchangeStep torrent contents e a = .ok e' ∧ e'.Sound torrent contents := by
  cases a with
  | drop => exact h.proceed hdescribes (by simp)
  | receive avail => exact h.proceed hdescribes (by simp)
  | round => exact h.proceed hdescribes (by simp)
  | connect recvs sends =>
      rw [exchangeStep, Exchange.connect]
      cases hclient : e.client with
      | connected s => exact ⟨e, rfl, h⟩
      | idle t disk log =>
          obtain ⟨s, heq, hkept, hledger, -⟩ := connectionStart_ledger h.kept hclient recvs sends
          rw [hclient] at heq
          refine ⟨⟨.connected s, true, [], 0⟩, ?_, hkept, ?_⟩
          · simp only [heq, ok_bind]
          · rintro _ ⟨⟩
            exact ⟨_, _, hledger⟩
  | unchoke =>
      refine ⟨_, rfl, ?_⟩
      rw [Exchange.unchoke]
      split
      · exact h
      split
      · have hpush := h.push (show PeerMsg.FromPeer torrent .unchoke from ⟨trivial, trivial⟩) rfl
        exact ⟨hpush.kept, hpush.flows⟩
      · exact h
  | say msg =>
      have hmsg : msg.type ≠ .msgPiece := by
        intro htype
        cases msg with
        | piece piece => exact ha.1.elim
        | _ => cases htype
      exact ⟨_, rfl, h.push ((fromPeer_of_ne hmsg).mpr ha) (answers?_of_ne hmsg)⟩
  | read =>
      refine ⟨_, rfl, ?_⟩
      cases hclient : e.client with
      | idle t disk log => simpa only [Exchange.read, hclient] using h
      | connected s =>
          obtain ⟨incoming, outgoing, hledger⟩ := h.flows s hclient
          cases outgoing with
          | nil =>
              rw [read_nil hclient hledger]
              exact h
          | cons msg outgoing =>
              rw [read_cons hdescribes hclient hledger]
              refine ⟨h.kept, fun s' hs' => ?_⟩
              cases hclient.symm.trans hs'
              exact ⟨_, _, hledger.read⟩
  | answer k =>
      refine ⟨_, rfl, ?_⟩
      rw [Exchange.answer]
      split
      · rename_i s r hclient hr
        obtain ⟨incoming, outgoing, hledger⟩ := h.flows s hclient
        have hkept := h.kept
        rw [hclient] at hkept
        rw [Exchange.push, hclient]
        refine ⟨hkept.sock _, ?_⟩
        rintro _ ⟨⟩
        exact ⟨_, _, hledger.answered hkept hr⟩
      · exact h

theorem run_sound {e : Exchange} (h : e.Sound torrent contents)
    (hdescribes : Describes torrent contents) {acts : List ExchangeAct}
    (hacts : ∀ a ∈ acts, a.Proper torrent) :
    ∃ e', run (exchangeStep torrent contents) e acts = .ok e' ∧ e'.Sound torrent contents :=
  run_progress _ (I := Exchange.Sound torrent contents) (A := ExchangeAct.Proper torrent)
    (fun _ _ h ha => exchangeStep_sound h hdescribes ha) h hacts

theorem sound_start {env : Environment} {metainfo : BencodeValue} {destdir : Bytes}
    (hinit : torrentInit env metainfo destdir = .ok torrent) (disk : Disk) :
    (Exchange.start torrent disk).Sound torrent contents := by
  refine ⟨⟨accounted_torrentInit hinit, rfl, rfl, rfl, fun _ i hi => ?_,
    fun _ hr => absurd hr List.not_mem_nil, fun _ hr => absurd hr List.not_mem_nil⟩,
    fun _ hs => by cases hs⟩
  obtain ⟨-, -, -, -, -, -, hsh⟩ := torrentInit_eq_ok hinit
  simp only [Exchange.start, Client.torrent, TorrentInfo.Has, hsh, List.getElem?_replicate] at hi
  split at hi <;> cases hi

theorem Describes.storable (h : Describes torrent contents) (hapart : torrent.FilesApart) :
    Storable torrent contents :=
  hapart.fits (List.Subset.refl _) (nodup_addresses _) (by rw [length_addresses, h.length])

end

theorem describes_oneByte : Describes oneByte [42] where
  aligned := by decide
  length := by decide
  small := by decide
  pieces := by decide +kernel
  nonempty := by decide

def exchangeActs : List ExchangeAct :=
  [.connect [] [], .receive 100, .unchoke, .receive 100, .round, .read, .read, .read, .read,
    .answer 0, .receive 100]

/-- **No request is lost, and none is made twice.** In every state that is reached with a
connection, the blocks that the outstanding request still awaits are those whose
request the peer has yet to read, or to answer, or whose answer is on the stream;
and each of them is in one place only. -/
theorem run_inFlight {env : Environment} {metainfo : BencodeValue} {destdir : Bytes}
    {torrent : TorrentInfo} (hinit : torrentInit env metainfo destdir = .ok torrent)
    {contents : Bytes} (hdescribes : Describes torrent contents) {disk : Disk}
    {acts : List ExchangeAct} (hacts : ∀ a ∈ acts, a.Proper torrent) {e : Exchange}
    (hrun : run (exchangeStep torrent contents) (.start torrent disk) acts = .ok e) {s : Session}
    (hs : e.client = .connected s) :
    ∃ incoming outgoing : List PeerMsg,
      s.sock.inp = incoming.flatMap (peerWire torrent contents) ∧
      s.sock.out.drop e.taken = outgoing.flatMap (PeerMsg.wire torrent) ∧
      (∀ msg ∈ incoming, msg.FromPeer torrent) ∧ (∀ msg ∈ outgoing, msg.Streamed torrent) ∧
      (outgoing.filterMap PeerMsg.request? ++
        (e.owed ++ incoming.filterMap PeerMsg.answers?)).Perm
          (s.state.localRequests.flatMap PieceRequest.awaited) ∧
      (outgoing.filterMap PeerMsg.request? ++
        (e.owed ++ incoming.filterMap PeerMsg.answers?)).Nodup := by
  obtain ⟨e', hrun', hsound⟩ := run_sound (sound_start hinit disk) hdescribes hacts
  cases hrun.symm.trans hrun'
  obtain ⟨incoming, outgoing, hledger⟩ := hsound.flows s hs
  refine ⟨incoming, outgoing, hledger.inp, hledger.out, hledger.fromPeer, hledger.toPeer,
    hledger.tickets, hledger.tickets.nodup_iff.mpr ?_⟩
  have hkept := hsound.kept
  rw [hs] at hkept
  have hone : s.state.localRequests.length ≤ 1 := Session.Accounted.outstanding hkept.accounted
  rcases hrequests : s.state.localRequests with _ | ⟨r, _ | ⟨_, _⟩⟩
  · exact List.nodup_nil
  · rw [List.flatMap_singleton]
    exact (hkept.underway r (by simp [Client.requests, hrequests])).nodup_awaited
      (hdescribes.piece_small r.pieceIndex)
  · simp [hrequests] at hone

/-- The byte has been asked for, and the peer has read nothing yet. -/
theorem run_inFlight_oneByte : ∃ e s,
    run (exchangeStep oneByte [42]) (.start oneByte blankDisk) (exchangeActs.take 5) = .ok e ∧
      e.client = .connected s ∧
      ∃ incoming outgoing : List PeerMsg,
        s.sock.inp = incoming.flatMap (peerWire oneByte [42]) ∧
        s.sock.out.drop e.taken = outgoing.flatMap (PeerMsg.wire oneByte) ∧
        (outgoing.filterMap PeerMsg.request? ++
          (e.owed ++ incoming.filterMap PeerMsg.answers?)).Perm
            (s.state.localRequests.flatMap PieceRequest.awaited) := by
  have hrun : ∃ e s, run (exchangeStep oneByte [42]) (.start oneByte blankDisk)
      (exchangeActs.take 5) = .ok e ∧ e.client = .connected s := ⟨_, _, rfl, rfl⟩
  obtain ⟨e, s, hrun, hs⟩ := hrun
  obtain ⟨incoming, outgoing, hinp, hout, -, -, htickets, -⟩ := run_inFlight torrentInit_oneByte
    describes_oneByte
    (show ∀ a ∈ exchangeActs.take 5, a.Proper oneByte by simp [exchangeActs, ExchangeAct.Proper])
    hrun hs
  exact ⟨e, s, hrun, hs, incoming, outgoing, hinp, hout, htickets⟩
end Daobell
