import Daobell.Peer.Accounting

/-!
Whether a connection shows interest when the peer tells which pieces it has. On
a BITFIELD message the pieces are compared with the states of our own. On a HAVE
message the bit that is looked at is the one of `local_have`, which says what we
had when the connection began, and says it the other way round.
-/

namespace Daobell

/-- The message says that the peer has piece `i`. -/
def PeerMsg.Announces : PeerMsg → ℕ → Prop
  | .haveMsg index, i => i = index.toNat
  | .bitfield bits, i => bits[i]? = some true
  | _, _ => False

def Needed (s : Session) (msg : PeerMsg) : Prop :=
  ∃ i < s.torrent.pieces.length, msg.Announces i ∧ Lacks s.torrent.sh.piecesState i

/-- Interest follows need: it is there when the message announces a piece that we
lack, and comes up only then. -/
structure FollowsNeed (s : Session) (msg : PeerMsg) (s' : Session) : Prop where
  shown : Needed s msg → s'.state.localState.interested = true
  only : s.state.localState.interested = false → s'.state.localState.interested = true → Needed s msg

/-- The bit that a HAVE message is judged by, where it is looked at, says whether
we lack the piece. -/
def JudgedRight (s : Session) : PeerMsg → Prop
  | .haveMsg index => s.state.localState.interested = true ∨
      (s.state.localHave[index.toNat]? = some true ↔
        Lacks s.torrent.sh.piecesState index.toNat)
  | _ => True

/-- The sizes that `torrent_init` and `conn_state_init` give. -/
structure Session.Sized (s : Session) : Prop where
  piecesState : s.torrent.sh.piecesState.length = s.torrent.pieces.length
  peerHave : s.state.peerHave.length = s.torrent.pieces.length
  localHave : s.state.localHave.length = s.torrent.pieces.length

/-- When sending works, showing interest is being interested. -/
theorem showInterested_reliable {s : Session} (h : s.sock.SendReliable) :
    ∃ s', showInterested s = .ok s' ∧ s'.state.localState.interested = true ∧
      s'.state.peerHave = s.state.peerHave := by
  obtain ⟨ok, sock, bytes, heq, -, -, hsure⟩ := msgSend_spec s .interested trivial
  obtain rfl := hsure h
  refine ⟨_, by rw [showInterested, Session.announce, heq, ok_bind], ?_, ?_⟩ <;> rfl

section

variable {s : Session} (hsized : s.Sized) (hsend : s.sock.SendReliable)

include hsized hsend

theorem processHave_interest {index : UInt32} (hindex : index.toNat < s.torrent.pieces.length) :
    ∃ s', processHave s index.toNat = .ok s' ∧ (s'.state.localState.interested = true ↔
      s.state.localState.interested = true ∨ s.state.localHave[index.toNat]? = some true) := by
  have hpeer : index.toNat < s.state.peerHave.length := hsized.peerHave.symm ▸ hindex
  rw [processHave]
  by_cases hinterested : s.state.localState.interested = true
  · simp only [hinterested, if_true, ok_bind, if_pos hpeer]
    exact ⟨_, rfl, by simp [hinterested]⟩
  simp only [hinterested, Bool.false_eq_true, if_false, false_or]
  have hlocal : index.toNat < s.state.localHave.length := hsized.localHave.symm ▸ hindex
  rw [List.getElem?_eq_getElem hlocal]
  cases hbit : s.state.localHave[index.toNat] with
  | false =>
      simp only [Bool.false_eq_true, if_false, ok_bind, if_pos hpeer]
      exact ⟨_, rfl, by simp [hinterested]⟩
  | true =>
      obtain ⟨t, heq, hshown, hhave⟩ := showInterested_reliable hsend
      simp only [if_true, heq, ok_bind, hhave, if_pos hpeer]
      exact ⟨_, rfl, by simp [hshown]⟩

theorem processBitfield_interest {bits : List Bool} (hbits : s.torrent.pieces.length ≤ bits.length) :
    ∃ s', processBitfield s bits = .ok s' ∧ (s'.state.localState.interested = true ↔
      s.state.localState.interested = true ∨ Needed s (.bitfield bits)) := by
  have hlen : (bits.take s.torrent.pieces.length).length = s.torrent.pieces.length := by
    rw [List.length_take, Nat.min_eq_left hbits]
  obtain ⟨interested, heq, hiff⟩ := interestLoop_spec hsized.piecesState hlen
  have hneeded : interested = true ↔ Needed s (.bitfield bits) := by
    rw [hiff]
    refine exists_congr fun i => ?_
    rw [List.getElem?_take]
    by_cases hlt : i < s.torrent.pieces.length <;> simp [hlt, PeerMsg.Announces]
  rw [processBitfield, hsized.peerHave, if_neg (Nat.not_lt.mpr hbits)]
  simp only [heq, ok_bind, ← hneeded]
  cases interested with
  | false =>
      simp only [Bool.false_eq_true, if_false, or_false]
      exact ⟨_, rfl, Iff.rfl⟩
  | true =>
      simp only [if_true, or_true, iff_true]
      obtain ⟨t, heq', hshown, -⟩ := showInterested_reliable
        (s := { s with state := { s.state with peerHave := bits.take s.torrent.pieces.length } })
        hsend
      exact ⟨t, heq', hshown⟩

/-- **Interest follows need** on every BITFIELD message in range, and on a HAVE
message in range if and only if the bit of `local_have` judges it right. -/
theorem processMsg_followsNeed_iff (verify : Session → UInt32 → Except Crash Bool) (msg : PeerMsg)
    (htype : msg.type = .msgHave ∨ msg.type = .msgBitfield)
    (hrange : msg.InRange s.torrent.pieces.length) :
    ∃ s', processMsg verify s msg = .ok s' ∧ (FollowsNeed s msg s' ↔ JudgedRight s msg) := by
  cases msg with
  | haveMsg index =>
      obtain ⟨s', heq, hiff⟩ := processHave_interest hsized hsend hrange
      have hneeded : Needed s (.haveMsg index) ↔ Lacks s.torrent.sh.piecesState index.toNat := by
        constructor
        · rintro ⟨i, -, rfl, hlacks⟩
          exact hlacks
        · exact fun hlacks => ⟨index.toNat, hrange, rfl, hlacks⟩
      refine ⟨s', heq, ?_⟩
      rw [JudgedRight, ← hneeded]
      constructor
      · rintro ⟨hshown, honly⟩
        rw [hiff] at hshown honly
        by_cases hinterested : s.state.localState.interested = true
        · exact .inl hinterested
        · exact .inr ⟨fun hbit => honly (Bool.eq_false_iff.mpr hinterested) (.inr hbit),
            fun h => (hshown h).resolve_left hinterested⟩
      · intro hjudged
        constructor
        · intro h
          rw [hiff]
          exact hjudged.imp_right fun hbit => hbit.mpr h
        · intro hnot hshown
          rw [hiff, hnot] at hshown
          rw [hnot] at hjudged
          exact (hjudged.resolve_left Bool.false_ne_true).mp (hshown.resolve_left Bool.false_ne_true)
  | bitfield bits =>
      obtain ⟨s', heq, hiff⟩ := processBitfield_interest hsized hsend hrange
      refine ⟨s', heq, iff_of_true ⟨fun h => hiff.mpr (.inr h), fun hnot hshown => ?_⟩ trivial⟩
      rw [hiff, hnot] at hshown
      exact hshown.resolve_left Bool.false_ne_true
  | _ => simp [PeerMsg.type] at htype

end

/-- A new connection, for two pieces of which none is there. -/
theorem exists_newConnection : ∃ s : Session,
    Lib.run (clientStep processQueued) (.idle twoPieces blankDisk []) [.connect ⟨[], [], [], []⟩] =
        .ok (.connected s) ∧ s.Sized ∧ s.sock.SendReliable ∧ s.torrent.pieces.length = 2 ∧
      s.state.localState.interested = false ∧ s.state.localHave = [false, false] ∧
      s.torrent.sh.piecesState = [.stateNotRequested, .stateNotRequested] := by
  have hconnects : ∃ c, Lib.run (clientStep processQueued) (.idle twoPieces blankDisk [])
      [.connect ⟨[], [], [], []⟩] = .ok c ∧ ∃ s ∈ c.session?,
        s.state.peerHave.length = 2 ∧ s.sock.sends = [] ∧ s.torrent.pieces.length = 2 ∧
        s.state.localState.interested = false ∧ s.state.localHave = [false, false] ∧
        s.torrent.sh.piecesState = [.stateNotRequested, .stateNotRequested] := by
    decide +kernel
  obtain ⟨c, hrun, s, hs, hpeer, hsends, hlength, hnot, hlocal, hstates⟩ := hconnects
  refine ⟨s, hrun.trans (congrArg _ (Client.mem_session?.mp hs)), ⟨?_, ?_, ?_⟩, ?_, hlength, hnot,
    hlocal, hstates⟩
  · rw [hstates, hlength]
    rfl
  · rw [hpeer, hlength]
  · rw [hlocal, hlength]
    rfl
  · simp [Socket.SendReliable, hsends]

theorem processMsg_followsNeed_iff_bothPieces : ∃ s s',
    processMsg Session.sha1Verify s (.bitfield [true, true]) = .ok s' ∧
      (FollowsNeed s (.bitfield [true, true]) s' ↔ JudgedRight s (.bitfield [true, true])) := by
  obtain ⟨s, -, hsized, hsend, hlength, -⟩ := exists_newConnection
  exact ⟨s, processMsg_followsNeed_iff hsized hsend Session.sha1Verify (.bitfield [true, true])
    (.inr rfl) hlength.le⟩

/-- The peer has the second piece, and no interest is shown. -/
theorem have_notFollowed : ∃ s s',
    Lib.run (clientStep processQueued) (.idle twoPieces blankDisk []) [.connect ⟨[], [], [], []⟩] =
        .ok (.connected s) ∧ s.Sized ∧ s.sock.SendReliable ∧
      PeerMsg.InRange s.torrent.pieces.length (.haveMsg 1) ∧
      processMsg Session.sha1Verify s (.haveMsg 1) = .ok s' ∧ ¬ FollowsNeed s (.haveMsg 1) s' := by
  obtain ⟨s, hrun, hsized, hsend, hlength, hnot, hlocal, hstates⟩ := exists_newConnection
  have hindex : (1 : UInt32).toNat < s.torrent.pieces.length := by
    rw [hlength]
    decide
  obtain ⟨s', heq, hiff⟩ := processHave_interest hsized hsend hindex
  refine ⟨s, s', hrun, hsized, hsend, hindex, heq, fun h => ?_⟩
  have hneeded : Needed s (.haveMsg 1) :=
    ⟨1, hindex, rfl, .stateNotRequested, by rw [hstates]; rfl, by decide⟩
  have hshown := h.shown hneeded
  rw [hiff, hnot, hlocal] at hshown
  revert hshown
  decide

end Daobell
