import Daobell.Peer.Log

/-!
The blocks of a request. A block that has come is marked, and the request counts
down the blocks that are left; but the count goes down with every message that
matches a block, also with one whose block has been marked before. So mark and
count tell the same as long as no message brings a block again, and only then
is a piece not checked before it is whole.
-/

namespace Daobell

open Lib

/-! ### Mark and count -/

def PieceRequest.Counted (r : PieceRequest) : Prop :=
  r.blocksLeft = r.blockRequests.countP fun block => !block.completed

def PieceRequest.Whole (r : PieceRequest) : Prop :=
  ∀ block ∈ r.blockRequests, block.completed = true

instance : DecidablePred PieceRequest.Counted := fun _ => inferInstanceAs (Decidable (_ = _))

instance : DecidablePred PieceRequest.Whole := fun r =>
  inferInstanceAs (Decidable (∀ block ∈ r.blockRequests, _))

/-- The block that a message brings, as `process_piece_msg` finds it. -/
def PieceRequest.brought (r : PieceRequest) (msg : PieceMsg) : Option BlockRequest :=
  r.blockRequests.find? fun block => block.len = msg.blockLen ∧ block.begin = msg.begin.toNat

structure PieceRequest.Sound (r : PieceRequest) : Prop where
  counted : r.Counted
  small : r.blockRequests.length < 2 ^ 32
  left : r.blocksLeft = 0 → r.blockRequests = []

theorem PieceRequest.Counted.whole_iff {r : PieceRequest} (h : r.Counted) :
    r.Whole ↔ r.blocksLeft = 0 := by
  rw [h, List.countP_eq_zero]
  simp [PieceRequest.Whole]

theorem markBlock_none {msg : PieceMsg} {blocks : List BlockRequest}
    (h : (blocks.find? fun block => block.len = msg.blockLen ∧ block.begin = msg.begin.toNat) =
      none) : markBlock msg blocks = none := by
  rcases markBlock_cases msg blocks with ⟨hnone, -⟩ | ⟨before, block, after, rfl, hmatch, -, -⟩
  · exact hnone
  · have hno := List.find?_eq_none.mp h block (by simp)
    exact absurd hmatch (by simpa [BlockRequest.Matches] using hno)

/-- Marking takes one from the blocks without a mark, unless the block has one. -/
theorem markBlock_some {msg : PieceMsg} {blocks : List BlockRequest} {block : BlockRequest}
    (h : (blocks.find? fun block => block.len = msg.blockLen ∧ block.begin = msg.begin.toNat) =
      some block) :
    ∃ marked, markBlock msg blocks = some marked ∧ marked.length = blocks.length ∧
      (marked.countP fun block => !block.completed) + (if block.completed then 0 else 1) =
        blocks.countP fun block => !block.completed := by
  rcases markBlock_cases msg blocks with
    ⟨-, hall⟩ | ⟨before, found, after, rfl, hmatch, hbefore, heq⟩
  · have hfound := List.find?_some h
    exact absurd (by simpa [BlockRequest.Matches] using hfound) (hall block (List.mem_of_find?_eq_some h))
  · have hnone : (before.find? fun block => block.len = msg.blockLen ∧
        block.begin = msg.begin.toNat) = none :=
      List.find?_eq_none.mpr fun block hblock => by
        simpa [BlockRequest.Matches] using hbefore block hblock
    rw [List.find?_append, hnone, Option.none_or, List.find?_cons_of_pos (by simpa [BlockRequest.Matches] using hmatch),
      Option.some.injEq] at h
    subst h
    refine ⟨_, heq, by simp, ?_⟩
    cases hcompleted : found.completed <;> simp [List.countP_append, hcompleted, Nat.add_assoc]

theorem receive_of_brought_none {r : PieceRequest} {msg : PieceMsg} (h : r.brought msg = none) :
    r.receive msg = r := by
  rw [PieceRequest.receive, markBlock_none h]

theorem PieceRequest.Sound.receive {r : PieceRequest} (h : r.Sound) {msg : PieceMsg}
    {block : BlockRequest} (hbrought : r.brought msg = some block) :
    (r.receive msg).blocksLeft + 1 = r.blocksLeft ∧
      (r.receive msg).blockRequests.length = r.blockRequests.length ∧
      ((r.receive msg).blockRequests.countP fun block => !block.completed) +
          (if block.completed then 0 else 1) = r.blocksLeft := by
  obtain ⟨marked, heq, hlen, hcount⟩ := markBlock_some hbrought
  have hne : r.blocksLeft ≠ 0 := by
    intro h0
    rw [PieceRequest.brought, h.left h0] at hbrought
    cases hbrought
  have hle : r.blocksLeft ≤ r.blockRequests.length := by
    rw [h.counted]
    exact List.countP_le_length
  have hsmall := h.small
  rw [PieceRequest.receive, heq]
  refine ⟨?_, hlen, hcount.trans h.counted.symm⟩
  simp only
  rw [subUnsigned_of_le (by omega) (by omega)]
  omega

/-- A message that brings no block again keeps mark and count together. -/
theorem PieceRequest.Sound.receive_new {r : PieceRequest} (h : r.Sound) {msg : PieceMsg}
    (hnew : ∀ block ∈ r.brought msg, block.completed = false) : (r.receive msg).Counted := by
  cases hbrought : r.brought msg with
  | none =>
      rw [receive_of_brought_none hbrought]
      exact h.counted
  | some block =>
      obtain ⟨hleft, -, hcount⟩ := h.receive hbrought
      rw [hnew block hbrought] at hcount
      rw [PieceRequest.Counted]
      simp only [Bool.false_eq_true, if_false] at hcount
      omega

theorem PieceRequest.Sound.receive_again {r : PieceRequest} (h : r.Sound) {msg : PieceMsg}
    {block : BlockRequest} (hbrought : r.brought msg = some block)
    (hcompleted : block.completed = true) :
    ¬ (r.receive msg).Counted ∧ ¬ (r.receive msg).Whole := by
  obtain ⟨hleft, -, hcount⟩ := h.receive hbrought
  rw [hcompleted, if_pos rfl, Nat.add_zero] at hcount
  constructor
  · intro hcounted
    rw [PieceRequest.Counted, hcount] at hcounted
    omega
  · intro hwhole
    have h0 : ((r.receive msg).blockRequests.countP fun block => !block.completed) = 0 :=
      List.countP_eq_zero.mpr fun block hblock => by simp [hwhole block hblock]
    omega

theorem PieceRequest.Sound.receive_sound {r : PieceRequest} (h : r.Sound) {msg : PieceMsg}
    (hcounted : (r.receive msg).Counted) (hleft : (r.receive msg).blocksLeft ≠ 0) :
    (r.receive msg).Sound := by
  refine ⟨hcounted, ?_, fun h0 => absurd h0 hleft⟩
  cases hbrought : r.brought msg with
  | none =>
      rw [receive_of_brought_none hbrought]
      exact h.small
  | some block =>
      rw [(h.receive hbrought).2.1]
      exact h.small

theorem sound_pieceRequestCreate {torrent : Layout} {index : UInt32}
    (hsmall : (pieceRequestCreate torrent index).blockRequests.length < 2 ^ 32) :
    (pieceRequestCreate torrent index).Sound := by
  have hleft : (pieceRequestCreate torrent index).blocksLeft =
      (pieceRequestCreate torrent index).blockRequests.length := Nat.mod_eq_of_lt hsmall
  have hall : ∀ block ∈ (pieceRequestCreate torrent index).blockRequests,
      block.completed = false := by
    intro block hblock
    obtain ⟨j, hj⟩ := List.mem_iff_getElem?.mp hblock
    have hlt := (List.getElem?_eq_some_iff.mp hj).1
    rw [length_blockRequests, lt_chunkCount_iff (by decide)] at hlt
    obtain ⟨block', hj', -, -, hcompleted, -⟩ := exists_blockRequest torrent index j hlt
    cases hj.symm.trans hj'
    exact hcompleted
  refine ⟨?_, hsmall, fun h0 => List.length_eq_zero_iff.mp (hleft ▸ h0)⟩
  rw [PieceRequest.Counted, hleft, eq_comm, List.countP_eq_length]
  exact fun block hblock => by simp [hall block hblock]

/-- The pieces of a torrent whose piece length is a multiple of the block size
have few blocks. -/
theorem blockRequests_lt_of_dvd {torrent : Layout} (h : peerRequestSize ∣ torrent.pieceLength.toNat)
    (index : UInt32) : (pieceRequestCreate torrent index).blockRequests.length < 2 ^ 32 := by
  have hle : (torrent.pieceAddresses index).length ≤ torrent.pieceLength.toNat := by
    rw [Layout.pieceAddresses, if_pos h]
    exact List.length_take_le _ _
  have hlt := torrent.pieceLength.toNat_lt
  rw [length_blockRequests]
  simp only [chunkCount, peerRequestSize]
  omega

/-! ### What a step does to the requests -/

def Client.requests : Client → List PieceRequest
  | .idle _ _ _ => []
  | .connected s => s.state.localRequests

def Unchecked (events : List Event) : Prop := ∀ index valid, .sha1Verify index valid ∉ events

theorem unchecked_of_chatter {events : List Event} (h : ∀ e ∈ events, e.Chatter) :
    Unchecked events :=
  fun _ _ hmem => h _ hmem

theorem showInterested_requests {s s' : Session} (h : showInterested s = .ok s') :
    s'.state.localRequests = s.state.localRequests := by
  obtain ⟨t, ht, hframe⟩ := showInterested_spec s
  cases h.symm.trans ht
  exact hframe.localRequests

theorem processHave_requests {s s' : Session} {index : ℕ} (h : processHave s index = .ok s') :
    s'.state.localRequests = s.state.localRequests := by
  obtain ⟨t, ht, hs'⟩ := bind_eq_ok.mp h
  have hrequests : t.state.localRequests = s.state.localRequests := by
    split at ht
    · cases ht
      rfl
    split at ht
    · cases ht
    split at ht
    · exact showInterested_requests ht
    · cases ht
      rfl
  split at hs'
  · cases hs'
    exact hrequests
  · cases hs'

theorem processBitfield_requests {s s' : Session} {bits : List Bool}
    (h : processBitfield s bits = .ok s') :
    s'.state.localRequests = s.state.localRequests := by
  rw [processBitfield] at h
  split at h
  · cases h
  obtain ⟨interested, -, hs'⟩ := bind_eq_ok.mp h
  split at hs'
  · exact (showInterested_requests hs').trans rfl
  · cases hs'
    rfl

theorem processMsg_requests {verify : Session → UInt32 → Except Crash Bool} {s s' : Session}
    {msg : PeerMsg} (hmsg : msg.type ≠ .msgPiece) (h : processMsg verify s msg = .ok s') :
    s'.state.localRequests = s.state.localRequests ∧ Chats s s' := by
  cases msg with
  | piece msg => exact absurd rfl hmsg
  | haveMsg index => exact ⟨processHave_requests h, processHave_chats h⟩
  | bitfield bits => exact ⟨processBitfield_requests h, processBitfield_chats h⟩
  | _ =>
      cases h
      exact ⟨rfl, chats_of_eq rfl rfl⟩

/-- What a PIECE message does to the requests: nothing, or it counts down the one
that is outstanding, and when nothing is left of it the piece is checked. -/
inductive PieceStep (s s' : Session) (msg : PieceMsg) : Prop
  | unasked (hindex : ∀ r ∈ s.state.localRequests, r.pieceIndex ≠ msg.index)
      (hrequests : s'.state.localRequests = s.state.localRequests) (hlog : s'.log = s.log)
  | counted (r : PieceRequest) (hr : s.state.localRequests = [r]) (hindex : r.pieceIndex = msg.index)
      (hleft : (r.receive msg).blocksLeft ≠ 0)
      (hrequests : s'.state.localRequests = [r.receive msg]) (hlog : s'.log = s.log)
  | checked (r : PieceRequest) (hr : s.state.localRequests = [r]) (hindex : r.pieceIndex = msg.index)
      (hleft : (r.receive msg).blocksLeft = 0) (hrequests : s'.state.localRequests = [])
      (valid : Bool) (events : List Event)
      (hlog : s'.log = s.log ++ .sha1Verify r.pieceIndex valid :: events) (hrest : Unchecked events)

theorem processPieceMsg_step {verify : Session → UInt32 → Except Crash Bool} {s s' : Session}
    (h : s.Accounted) {msg : PieceMsg} (heq : processPieceMsg verify s msg = .ok s') :
    PieceStep s s' msg := by
  obtain ⟨hindex, rfl⟩ | ⟨r, hr, hindex, ⟨hleft, rfl⟩ | ⟨hleft, valid, t, hchecked, rfl⟩⟩ :=
    processPieceMsg_cases h heq
  · exact .unasked hindex rfl rfl
  · exact .counted r hr hindex hleft rfl rfl
  · cases valid with
    | false =>
        obtain ⟨-, -, -, hlog⟩ := hchecked.failed rfl
        exact .checked r hr hindex hleft rfl false [] hlog (fun _ _ => List.not_mem_nil)
    | true =>
        obtain ⟨-, -, ok, -, hlog, -⟩ := hchecked.verified rfl
        exact .checked r hr hindex hleft rfl true [.msgSend (.haveMsg r.pieceIndex) ok] hlog
          (fun _ _ => by simp)

theorem sendRequests_requests {s : Session} (h : s.Accounted) {r : Bool × Session}
    (heq : sendRequests s = .ok r) :
    ∀ q ∈ r.2.state.localRequests, q ∈ s.state.localRequests ∨ Fresh s.torrent q := by
  intro q hq
  obtain ⟨ok, s', hs', -, hfresh⟩ := sendRequests_spec h
  by_cases hnone : s.state.localRequests = []
  · cases heq.symm.trans hs'
    exact .inr (hfresh hnone q hq)
  · cases heq.symm.trans (sendRequests_outstanding h hnone)
    exact .inl hq

theorem Client.From.requests {c : Client} {s : Session} (h : c.From s) :
    ∀ r ∈ c.requests, r ∈ s.state.localRequests := by
  rcases h with rfl | rfl
  · exact fun _ => id
  · exact fun _ hr => nomatch hr

/-- What a thread can do, when messages come with the answers of the check. -/
abbrev Answered := Act (PeerMsg × (Session → UInt32 → Bool))

/-- A step without a PIECE message checks nothing and counts nothing. -/
theorem clientStep_other {c c' : Client} (h : c.Accounted) {a : Answered}
    (hother : ∀ s msg answer, c = .connected s → a ≠ .receive (.piece msg, answer))
    (hstep : clientStep processAnswered c a = .ok c') :
    (∀ q ∈ c'.requests, q ∈ c.requests ∨ Fresh c.torrent q) ∧
      ∃ events, c'.log = c.log ++ events ∧ Unchecked events := by
  have hnil : Unchecked [] := fun _ _ => List.not_mem_nil
  cases c with
  | idle torrent disk log =>
      cases a with
      | connect sock =>
          obtain ⟨c', s, ok, events, heq, hfrom, -, hnone, hlog, hchat, -⟩ :=
            connectionStart_log h disk log sock
          cases heq.symm.trans hstep
          refine ⟨fun q hq => ?_, _, hfrom.log.trans hlog, fun index valid hmem => ?_⟩
          · have hq' := hfrom.requests q hq
            rw [hnone] at hq'
            cases hq'
          · rcases List.mem_cons.mp hmem with hmem | hmem
            · cases hmem
            · exact unchecked_of_chatter hchat index valid hmem
      | _ =>
          cases hstep
          exact ⟨fun _ hq => .inl hq, [], (List.append_nil _).symm, hnil⟩
  | connected s =>
      cases a with
      | connect sock =>
          cases hstep
          exact ⟨fun _ hq => .inl hq, [], (List.append_nil _).symm, hnil⟩
      | drop =>
          cases hstep
          exact ⟨nofun, [], (List.append_nil _).symm, hnil⟩
      | round =>
          obtain ⟨s', hfrom, rfl | ⟨ok, hsend⟩⟩ := connectionRound_cases hstep
          · exact ⟨fun q hq => .inl (hfrom.requests q hq), [],
              hfrom.log.trans (List.append_nil _).symm, hnil⟩
          · obtain ⟨events, hlog, hchat, -⟩ := sendRequests_chats hsend
            exact ⟨fun q hq => sendRequests_requests h hsend q (hfrom.requests q hq), events,
              hfrom.log.trans hlog, unchecked_of_chatter hchat⟩
      | receive m =>
          obtain ⟨msg, answer⟩ := m
          obtain ⟨s', hs', hc⟩ := bind_eq_ok.mp hstep
          cases hc
          have hmsg : msg.type ≠ .msgPiece := by
            intro htype
            cases msg with
            | piece msg => exact hother s msg answer rfl rfl
            | _ => cases htype
          obtain ⟨hrequests, events, hlog, hchat, -⟩ := processMsg_requests hmsg hs'
          refine ⟨fun q hq => .inl ?_, events, hlog, unchecked_of_chatter hchat⟩
          rw [Client.requests] at hq ⊢
          exact hrequests ▸ hq

theorem clientStep_piece {s : Session} (h : s.Accounted) (msg : PieceMsg)
    (answer : Session → UInt32 → Bool) :
    ∃ s', clientStep processAnswered (.connected s) (.receive (.piece msg, answer)) =
      .ok (.connected s') ∧ PieceStep s s' msg := by
  have hs : Client.Accounted (.connected s) := h
  rcases clientStep_answered hs (.receive (.piece msg, answer)) with
    ⟨c', hstep, -⟩ | ⟨_, -, hrange⟩
  · obtain ⟨s', hs', hc⟩ := bind_eq_ok.mp hstep
    obtain ⟨t, ht, hs'⟩ := bind_eq_ok.mp hs'
    cases hs'
    cases hc
    refine ⟨_, hstep, ?_⟩
    cases processPieceMsg_step h ht with
    | unasked hindex hrequests hlog => exact .unasked hindex hrequests hlog
    | counted r hr hindex hleft hrequests hlog => exact .counted r hr hindex hleft hrequests hlog
    | checked r hr hindex hleft hrequests valid events hlog hrest =>
        exact .checked r hr hindex hleft hrequests valid events hlog hrest
  · exact absurd trivial hrange

/-! ### Runs -/

/-- Before and after a step, mark and count of each outstanding request tell the
same; and a step that checks a piece has received a message by which every block
of the request has come. -/
structure Reckoned (c : Client) (a : Answered) : Prop where
  before : ∀ r ∈ c.requests, r.Counted
  after : ∀ c', clientStep processAnswered c a = .ok c' → ∀ r ∈ c'.requests, r.Counted
  whole : ∀ c', clientStep processAnswered c a = .ok c' → ∀ index valid,
    .sha1Verify index valid ∈ c'.log.drop c.log.length →
      ∃ msg answer, a = .receive (.piece msg, answer) ∧
        ∃ r ∈ c.requests, r.pieceIndex = index ∧ (r.receive msg).Whole

def Answered.piece? : Answered → Option PieceMsg
  | .receive (.piece msg, _) => some msg
  | _ => none

theorem Answered.of_mem_piece? {a : Answered} {msg : PieceMsg} (h : msg ∈ a.piece?) :
    ∃ answer, a = .receive (.piece msg, answer) := by
  cases a with
  | receive m =>
      obtain ⟨m, answer⟩ := m
      cases m with
      | piece msg' =>
          cases h
          exact ⟨answer, rfl⟩
      | _ => cases h
  | _ => cases h

def NoneTwice (c : Client) (a : Answered) : Prop :=
  ∀ msg ∈ a.piece?, ∀ r ∈ c.requests, r.pieceIndex = msg.index →
    ∀ block ∈ r.brought msg, block.completed = false

instance (c : Client) (a : Answered) : Decidable (NoneTwice c a) :=
  inferInstanceAs (Decidable (∀ msg ∈ a.piece?, ∀ r ∈ c.requests, r.pieceIndex = msg.index →
    ∀ block ∈ r.brought msg, block.completed = false))

structure Client.Sound (torrent : TorrentInfo) (c : Client) : Prop where
  accounted : c.Accounted
  pieces : c.torrent.pieces = torrent.pieces
  layout : c.torrent.layout = torrent.layout
  requests : ∀ r ∈ c.requests, r.Sound

section

variable {torrent : TorrentInfo}
  (hsmall : ∀ index : UInt32, index.toNat < torrent.pieces.length →
    (pieceRequestCreate torrent.layout index).blockRequests.length < 2 ^ 32)

include hsmall

theorem Client.Sound.fresh {c : Client} (h : c.Sound torrent) {r : PieceRequest}
    (hr : Fresh c.torrent r) : r.Sound := by
  obtain ⟨index, hlt, rfl⟩ := hr
  rw [h.layout]
  exact sound_pieceRequestCreate (hsmall index (h.pieces ▸ hlt))

/-- A request that a step leaves behind is sound when its mark and count tell the
same. -/
theorem Client.Sound.step {c c' : Client} (h : c.Sound torrent) {a : Answered}
    (hstep : clientStep processAnswered c a = .ok c') (hcounted : ∀ r ∈ c'.requests, r.Counted) :
    c'.Sound torrent := by
  rcases clientStep_answered h.accounted a with ⟨_, heq, hgoes⟩ | ⟨_, heq, -⟩
  swap
  · cases heq.symm.trans hstep
  cases heq.symm.trans hstep
  refine ⟨hgoes.accounted, hgoes.advances.pieces.trans h.pieces,
    hgoes.advances.layout.trans h.layout, ?_⟩
  by_cases hpiece : ∃ s msg answer, c = .connected s ∧ a = .receive (.piece msg, answer)
  · obtain ⟨s, msg, answer, rfl, rfl⟩ := hpiece
    obtain ⟨s', hs', hpieceStep⟩ := clientStep_piece h.accounted msg answer
    cases hs'.symm.trans hstep
    rw [Client.requests] at hcounted ⊢
    cases hpieceStep with
    | unasked hindex hrequests hlog =>
        rw [hrequests]
        exact h.requests
    | counted r hr hindex hleft hrequests hlog =>
        rw [hrequests] at hcounted ⊢
        intro q hq
        have hq' := List.mem_singleton.mp hq
        subst hq'
        have hsound : r.Sound := h.requests r (by simp [Client.requests, hr])
        exact hsound.receive_sound (hcounted _ hq) hleft
    | checked r hr hindex hleft hrequests valid events hlog hrest =>
        rw [hrequests]
        simp
  · intro q hq
    have hold := (clientStep_other h.accounted (fun s msg answer hc ha =>
      hpiece ⟨s, msg, answer, hc, ha⟩) hstep).1 q hq
    exact hold.elim (h.requests q) (h.fresh hsmall)

/-- **One step**, by a message that brings no block again. -/
theorem Client.Sound.reckoned {c : Client} (h : c.Sound torrent) {a : Answered}
    (hnone : NoneTwice c a) : Reckoned c a := by
  have hbefore : ∀ r ∈ c.requests, r.Counted := fun r hr => (h.requests r hr).counted
  by_cases hpiece : ∃ s msg answer, c = .connected s ∧ a = .receive (.piece msg, answer)
  · obtain ⟨s, msg, answer, rfl, rfl⟩ := hpiece
    obtain ⟨s', hs', hpieceStep⟩ := clientStep_piece h.accounted msg answer
    -- the request that is outstanding, when the message is for it
    have hnew : ∀ r, s.state.localRequests = [r] → r.pieceIndex = msg.index →
        (r.receive msg).Counted := by
      intro r hr hindex
      have hmem : r ∈ s.state.localRequests := by simp [hr]
      exact (h.requests r hmem).receive_new (hnone msg rfl r hmem hindex)
    refine ⟨hbefore, fun c' hstep => ?_, fun c' hstep index valid hcheck => ?_⟩
    · cases hs'.symm.trans hstep
      rw [Client.requests]
      cases hpieceStep with
      | unasked hindex hrequests hlog =>
          rw [hrequests]
          exact hbefore
      | counted r hr hindex hleft hrequests hlog =>
          rw [hrequests]
          simpa using hnew r hr hindex
      | checked r hr hindex hleft hrequests valid events hlog hrest =>
          rw [hrequests]
          simp
    · cases hs'.symm.trans hstep
      rw [Client.log, Client.log] at hcheck
      cases hpieceStep with
      | unasked hindex hrequests hlog =>
          rw [hlog, List.drop_length] at hcheck
          cases hcheck
      | counted r hr hindex hleft hrequests hlog =>
          rw [hlog, List.drop_length] at hcheck
          cases hcheck
      | checked r hr hindex hleft hrequests valid' events hlog hrest =>
          rw [hlog, List.drop_left] at hcheck
          refine ⟨msg, answer, rfl, r, by simp [Client.requests, hr], ?_,
            (hnew r hr hindex).whole_iff.mpr hleft⟩
          rcases List.mem_cons.mp hcheck with hcheck | hcheck
          · cases hcheck
            rfl
          · exact absurd hcheck (hrest index valid)
  · have hother : ∀ s msg answer, c = .connected s → a ≠ .receive (.piece msg, answer) :=
      fun s msg answer hc ha => hpiece ⟨s, msg, answer, hc, ha⟩
    refine ⟨hbefore, fun c' hstep q hq => ?_, fun c' hstep index valid hcheck => ?_⟩
    · rcases (clientStep_other h.accounted hother hstep).1 q hq with hold | hfresh
      · exact hbefore q hold
      · exact (h.fresh hsmall hfresh).counted
    · obtain ⟨events, hlog, hunchecked⟩ := (clientStep_other h.accounted hother hstep).2
      rw [hlog, List.drop_left] at hcheck
      exact absurd hcheck (hunchecked index valid)

omit hsmall in
/-- A block that comes again breaks the books, or has an incomplete piece checked. -/
theorem Client.Sound.noneTwice {c : Client} (h : c.Sound torrent) {a : Answered}
    (hreckoned : Reckoned c a) : NoneTwice c a := by
  intro msg hmsg r hr hindex block hbrought
  by_contra hcompleted
  obtain ⟨answer, rfl⟩ := Answered.of_mem_piece? hmsg
  have hsound := h.requests r hr
  obtain ⟨hcounted, hwhole⟩ := hsound.receive_again hbrought (Bool.not_eq_false _ ▸ hcompleted)
  cases c with
  | idle torrent disk log => cases hr
  | connected s =>
      obtain ⟨s', hs', hpieceStep⟩ := clientStep_piece h.accounted msg answer
      rw [Client.requests] at hr
      cases hpieceStep with
      | unasked hno hrequests hlog => exact hno r hr hindex
      | counted r' hr' hindex' hleft hrequests hlog =>
          rw [hr', List.mem_singleton] at hr
          subst hr
          exact hcounted (hreckoned.after _ hs' _ (by simp [Client.requests, hrequests]))
      | checked r' hr' hindex' hleft hrequests valid events hlog hrest =>
          rw [hr', List.mem_singleton] at hr
          subst hr
          obtain ⟨msg', answer', hmsg', q, hq, -, hall⟩ := hreckoned.whole _ hs' r.pieceIndex valid
            (by simp [Client.log, hlog])
          cases hmsg'
          rw [Client.requests, hr', List.mem_singleton] at hq
          subst hq
          exact hwhole hall

end

/-- **Block accounting.** Of each outstanding request mark and count tell the same
at every point of a run, and a piece is checked only when every block has come, if
and only if no PIECE message brings a block that has come before. -/
theorem run_reckoned_iff {env : Environment} {metainfo : BencodeValue} {destdir : Bytes}
    {torrent : TorrentInfo} (hinit : torrentInit env metainfo destdir = .ok torrent)
    (hsmall : ∀ index : UInt32, index.toNat < torrent.pieces.length →
      (pieceRequestCreate torrent.layout index).blockRequests.length < 2 ^ 32)
    (disk : Disk) (acts : List Answered) :
    RunMeets (clientStep processAnswered) Reckoned (.idle torrent disk []) acts ↔
      RunMeets (clientStep processAnswered) NoneTwice (.idle torrent disk []) acts := by
  have hstart : Client.Sound torrent (.idle torrent disk []) :=
    ⟨accounted_torrentInit hinit, rfl, rfl, nofun⟩
  constructor
  · intro h
    exact h.of_invariant hstart (fun c a c' hc hreckoned hstep =>
      hc.step hsmall hstep (hreckoned.after c' hstep)) fun c a hc => hc.noneTwice
  · intro h
    exact h.of_invariant hstart (fun c a c' hc hnone hstep =>
      hc.step hsmall hstep ((hc.reckoned hsmall hnone).after c' hstep))
      fun c a hc => hc.reckoned hsmall

def twoBlocksInfo : BencodeValue :=
  .bencodeDict [(lengthKey, .bencodeInt 16385),
    (nameKey, .bencodeString (letter 'x'.toUInt8)),
    (pieceLengthKey, .bencodeInt 32768),
    (piecesKey, .bencodeString ⟨List.replicate 20 0, by simp⟩)]

def twoBlocks : TorrentInfo where
  announce := []
  creationDate := 0
  pieceLength := 32768
  files := twoPieces.files
  infoHash := sha1Compute twoBlocksInfo.crawl
  maxPeers := defaultMaxPeers
  pieces := [List.replicate 20 0]
  sh := ⟨[.stateNotRequested], 1, 0, 0, false⟩
  files_lt := twoPieces.files_lt
  pieces_le := by decide
  pieces_length := by simp

theorem torrentInit_twoBlocks :
    torrentInit quietEnvironment (.bencodeDict [(infoKey, twoBlocksInfo)]) [] = .ok twoBlocks := by
  decide +kernel

theorem twoBlocks_small (index : UInt32) (_ : index.toNat < twoBlocks.pieces.length) :
    (pieceRequestCreate twoBlocks.layout index).blockRequests.length < 2 ^ 32 :=
  blockRequests_lt_of_dvd (by decide) index

/-- A peer that has the piece, and sends its first block when asked. -/
def firstBlockActs : List Answered :=
  [.connect ⟨[], [], [], []⟩, .receive (.bitfield [true], fun _ _ => false),
    .receive (.unchoke, fun _ _ => false), .round,
    .receive (.piece ⟨0, 0, 16384⟩, fun _ _ => false)]

theorem run_reckoned_twoBlocks :
    RunMeets (clientStep processAnswered) Reckoned (.idle twoBlocks blankDisk [])
      (firstBlockActs ++ [.receive (.piece ⟨0, 16384, 1⟩, fun _ _ => false)]) :=
  (run_reckoned_iff torrentInit_twoBlocks twoBlocks_small blankDisk _).mpr (by decide +kernel)

/-- The first block comes twice: the piece is checked without the second. -/
theorem run_miscounted :
    torrentInit quietEnvironment (.bencodeDict [(infoKey, twoBlocksInfo)]) [] = .ok twoBlocks ∧
      ¬ RunMeets (clientStep processAnswered) Reckoned (.idle twoBlocks blankDisk [])
        (firstBlockActs ++ [.receive (.piece ⟨0, 0, 16384⟩, fun _ _ => false)]) := by
  refine ⟨torrentInit_twoBlocks, fun hmeets => ?_⟩
  obtain ⟨c, hrun, c', hstep, hcheck, hwhole⟩ :
      ∃ c, run (clientStep processAnswered) (.idle twoBlocks blankDisk []) firstBlockActs = .ok c ∧
        ∃ c', clientStep processAnswered c (.receive (.piece ⟨0, 0, 16384⟩, fun _ _ => false)) =
          .ok c' ∧ .sha1Verify 0 false ∈ c'.log.drop c.log.length ∧
            ∀ r ∈ c.requests, ¬ (r.receive ⟨0, 0, 16384⟩).Whole := by
    decide +kernel
  obtain ⟨msg, answer, hmsg, r, hr, -, hall⟩ := (hmeets.last _ hrun).whole c' hstep 0 false hcheck
  cases hmsg
  exact hwhole r hr hall

end Daobell
