import Daobell.Peer.Blocks

/-!
Requests and chokes. A peer that chokes us forgets what we have asked for. The
thread notes that it is choked and keeps its request, and once it is unchoked it
makes no other while that one is outstanding. So the blocks that a CHOKE finds
outstanding are never asked for again.
-/

namespace Daobell

open Lib

/-! ### What has been asked for -/

def PieceRequest.ask (r : PieceRequest) (block : BlockRequest) : PeerMsg :=
  .request ⟨r.pieceIndex, UInt32.ofNat block.begin, UInt32.ofNat block.len⟩

/-- Every block that is outstanding has been asked for among the events. -/
def Asked (requests : List PieceRequest) (events : List Event) : Prop :=
  ∀ r ∈ requests, ∀ block ∈ r.blockRequests, block.completed = false →
    .msgSend (r.ask block) true ∈ events

instance (requests : List PieceRequest) (events : List Event) : Decidable (Asked requests events) :=
  inferInstanceAs (Decidable (∀ r ∈ requests, ∀ block ∈ r.blockRequests, _ → _))

theorem Asked.mono {requests : List PieceRequest} {events events' : List Event}
    (h : Asked requests events) (hsub : events ⊆ events') : Asked requests events' :=
  fun r hr block hblock hcompleted => hsub (h r hr block hblock hcompleted)

theorem mem_of_mem_receive {r : PieceRequest} {msg : PieceMsg} {block : BlockRequest}
    (hblock : block ∈ (r.receive msg).blockRequests) (hcompleted : block.completed = false) :
    block ∈ r.blockRequests := by
  rw [PieceRequest.receive] at hblock
  rcases markBlock_cases msg r.blockRequests with
    ⟨hnone, -⟩ | ⟨before, found, after, hblocks, -, -, hsome⟩
  · rw [hnone] at hblock
    exact hblock
  · rw [hsome] at hblock
    rw [hblocks]
    simp only [List.mem_append, List.mem_cons] at hblock ⊢
    rcases hblock with hbefore | rfl | hafter
    · exact .inl hbefore
    · cases hcompleted
    · exact .inr (.inr hafter)

theorem Asked.receive {r : PieceRequest} {msg : PieceMsg} {events : List Event}
    (h : Asked [r] events) : Asked [r.receive msg] events := by
  intro q hq block hblock hcompleted
  rw [List.mem_singleton.mp hq] at hblock ⊢
  rw [PieceRequest.ask, pieceIndex_receive]
  exact h r List.mem_cons_self block (mem_of_mem_receive hblock hcompleted) hcompleted

/-! ### What a step keeps -/

/-- What most of the thread leaves alone: the torrent is not touched, no request
is made or forgotten, the peer's requests stay, and interest is not lost. -/
structure Retains (s s' : Session) : Prop where
  torrent : s'.torrent = s.torrent
  localRequests : s'.state.localRequests = s.state.localRequests
  peerRequests : s.state.peerRequests <+: s'.state.peerRequests
  interested : s.state.localState.interested = true → s'.state.localState.interested = true
  log : s.log <+: s'.log

theorem Retains.refl (s : Session) : Retains s s :=
  ⟨rfl, rfl, List.prefix_rfl, id, List.prefix_rfl⟩

theorem Retains.trans {a b c : Session} (h₁ : Retains a b) (h₂ : Retains b c) : Retains a c :=
  ⟨h₂.torrent.trans h₁.torrent, h₂.localRequests.trans h₁.localRequests,
    h₁.peerRequests.trans h₂.peerRequests, h₂.interested ∘ h₁.interested, h₁.log.trans h₂.log⟩

theorem showInterested_retains {s s' : Session} (h : showInterested s = .ok s') :
    Retains s s' := by
  obtain ⟨⟨ok, t⟩, hsend, ht⟩ := bind_eq_ok.mp h
  obtain ⟨ok', sock, bytes, heq, -⟩ := msgSend_spec s .interested trivial
  cases heq.symm.trans hsend
  have hlog : s.log <+: (s.sent .interested ok sock).log := List.prefix_append _ _
  cases ok with
  | false =>
      cases ht
      exact ⟨rfl, rfl, List.prefix_rfl, id, hlog⟩
  | true =>
      cases ht
      exact ⟨rfl, rfl, List.prefix_rfl, fun _ => rfl, hlog⟩

theorem processHave_retains {s s' : Session} {index : ℕ} (h : processHave s index = .ok s') :
    Retains s s' := by
  obtain ⟨t, ht, hs'⟩ := bind_eq_ok.mp h
  have hkept : Retains s t := by
    split at ht
    · cases ht
      exact Retains.refl s
    split at ht
    · cases ht
    split at ht
    · exact showInterested_retains ht
    · cases ht
      exact Retains.refl s
  split at hs'
  · cases hs'
    exact hkept.trans ⟨rfl, rfl, List.prefix_rfl, id, List.prefix_rfl⟩
  · cases hs'

theorem processBitfield_retains {s s' : Session} {bits : List Bool}
    (h : processBitfield s bits = .ok s') : Retains s s' := by
  rw [processBitfield] at h
  split at h
  · cases h
  obtain ⟨interested, -, hs'⟩ := bind_eq_ok.mp h
  have hhave : Retains s { s with state := { s.state with
      peerHave := bits.take s.state.peerHave.length } } :=
    ⟨rfl, rfl, List.prefix_rfl, id, List.prefix_rfl⟩
  split at hs'
  · exact hhave.trans (showInterested_retains hs')
  · cases hs'
    exact hhave

theorem processMsg_retains {verify : Session → UInt32 → Except Crash Bool} {s s' : Session}
    {msg : PeerMsg} (hmsg : msg.type ≠ .msgPiece) (h : processMsg verify s msg = .ok s') :
    Retains s s' := by
  cases msg with
  | piece msg => exact absurd rfl hmsg
  | haveMsg index => exact processHave_retains h
  | bitfield bits => exact processBitfield_retains h
  | request msg =>
      cases h
      exact ⟨rfl, rfl, List.prefix_append _ _, id, List.prefix_rfl⟩
  | _ =>
      cases h
      exact ⟨rfl, rfl, List.prefix_rfl, id, List.prefix_rfl⟩

/-- A PIECE message changes nothing of the state but the requests. -/
theorem processPieceMsg_state {verify : Session → UInt32 → Except Crash Bool} {s s' : Session}
    (h : s.Accounted) {msg : PieceMsg} (heq : processPieceMsg verify s msg = .ok s') :
    s'.state = { s.state with localRequests := s'.state.localRequests } := by
  obtain ⟨-, rfl⟩ | ⟨r, -, -, ⟨-, rfl⟩ | ⟨-, valid, t, hchecked, rfl⟩⟩ :=
    processPieceMsg_cases h heq
  · rfl
  · rfl
  · rw [hchecked.state]

/-! ### What a round asks for -/

theorem requestBlocks_asks {index : UInt32} {blocks : List BlockRequest} {s s' : Session}
    (h : requestBlocks index blocks s = .ok (true, s')) :
    s'.state = s.state ∧ ∃ events, s'.log = s.log ++ events ∧ ∀ block ∈ blocks,
      .msgSend (.request ⟨index, UInt32.ofNat block.begin, UInt32.ofNat block.len⟩) true ∈
        events := by
  induction blocks generalizing s with
  | nil =>
      cases h
      exact ⟨rfl, [], (List.append_nil _).symm, by simp⟩
  | cons block blocks ih =>
      obtain ⟨⟨ok, t⟩, hsend, ht⟩ := bind_eq_ok.mp h
      obtain ⟨ok', sock, bytes, heq, -⟩ := msgSend_spec s
        (.request ⟨index, UInt32.ofNat block.begin, UInt32.ofNat block.len⟩) trivial
      cases heq.symm.trans hsend
      cases ok with
      | false => cases ht
      | true =>
          obtain ⟨hstate, events, hlog, hall⟩ := ih ht
          refine ⟨hstate, _ :: events, hlog.trans (List.append_assoc _ _ _), ?_⟩
          refine List.forall_mem_cons.mpr ⟨List.mem_cons_self, ?_⟩
          exact fun b hb => List.mem_cons_of_mem _ (hall b hb)

/-- What a round of the thread does to an interested connection. -/
structure Asks (s s' : Session) : Prop where
  peerRequests : s'.state.peerRequests = s.state.peerRequests
  interested : s'.state.localRequests ≠ [] → s'.state.localState.interested = true
  log : s.log <+: s'.log
  asked : s'.state.localRequests = s.state.localRequests ∨
    ∃ events, s'.log = s.log ++ events ∧ Asked s'.state.localRequests events

theorem showNotInterested_asks {s s' : Session} (hnone : s.state.localRequests = [])
    (h : showNotInterested s = .ok s') : Asks s s' := by
  obtain ⟨⟨ok, t⟩, hsend, ht⟩ := bind_eq_ok.mp h
  obtain ⟨ok', sock, bytes, heq, -⟩ := msgSend_spec s .notInterested trivial
  cases heq.symm.trans hsend
  have hlog : s.log <+: (s.sent .notInterested ok sock).log := List.prefix_append _ _
  cases ok with
  | false =>
      cases ht
      exact ⟨rfl, fun hne => absurd hnone hne, hlog, .inl rfl⟩
  | true =>
      cases ht
      exact ⟨rfl, fun hne => absurd hnone hne, hlog, .inl rfl⟩

theorem sendRequests_asks {s s' : Session} (h : s.Accounted)
    (hinterested : s.state.localState.interested = true)
    (hsend : sendRequests s = .ok (true, s')) : Asks s s' := by
  by_cases hne : s.state.localRequests ≠ []
  · rw [sendRequests_outstanding h hne] at hsend
    cases hsend
    exact ⟨rfl, fun _ => hinterested, List.prefix_rfl, .inl rfl⟩
  have hnone : s.state.localRequests = [] := not_not.mp hne
  rw [sendRequests, hnone, List.length_nil, requestCount_zero, if_neg (by decide),
    Int.toNat_one] at hsend
  obtain ⟨⟨result, t⟩, hloop, ht⟩ := bind_eq_ok.mp hsend
  obtain ⟨next, hnext, hloop⟩ := bind_eq_ok.mp hloop
  cases next with
  | none =>
      cases hloop
      dsimp only at ht
      split at ht
      · obtain ⟨s', hshow, hs'⟩ := bind_eq_ok.mp ht
        cases hs'
        exact showNotInterested_asks hnone hshow
      · cases ht
        exact ⟨rfl, fun _ => hinterested, List.prefix_rfl, .inl rfl⟩
  | some next =>
      obtain ⟨⟨ok, u⟩, hblocks, hu⟩ := bind_eq_ok.mp hloop
      cases ok with
      | false =>
          cases hu
          cases ht
      | true =>
          cases hu
          obtain ⟨hstate, events, hlog, hall⟩ := requestBlocks_asks hblocks
          have hlog' : u.log = s.log ++ events := hlog
          dsimp only at ht
          rw [if_neg (by simp)] at ht
          cases ht
          refine ⟨by rw [hstate], fun _ => by rw [hstate]; exact hinterested,
            hlog' ▸ List.prefix_append _ _, .inr ⟨events, hlog', ?_⟩⟩
          intro r hr block hblock _
          rw [hstate, hnone, List.nil_append, List.mem_singleton] at hr
          subst hr
          exact hall block hblock

theorem connectionRound_asks {s s' : Session} (h : s.Accounted)
    (hinterested : s.state.localRequests ≠ [] → s.state.localState.interested = true)
    (hround : connectionRound s = .ok (.connected s')) : Asks s s' := by
  obtain ⟨⟨ok, t⟩, hrequests, hc⟩ := bind_eq_ok.mp hround
  split at hc
  swap
  · cases hc
  rename_i hok
  cases hc
  obtain ⟨rfl, -⟩ := hok
  split at hrequests
  · rename_i heligible
    exact sendRequests_asks h heligible.2.2 hrequests
  · cases hrequests
    exact ⟨rfl, hinterested, List.prefix_rfl, .inl rfl⟩

/-! ### One step of a connection -/

/-- A connection goes on. What has been asked for since some point of the log
stays so, and what comes in addition is asked for. -/
structure Proceeds (s s' : Session) : Prop where
  peerRequests : s.state.peerRequests <+: s'.state.peerRequests
  interested : s'.state.localRequests ≠ [] → s'.state.localState.interested = true
  log : s.log <+: s'.log
  asked : ∀ mark ≤ s.log.length, Asked s.state.localRequests (s.log.drop mark) →
    Asked s'.state.localRequests (s'.log.drop mark)

theorem Retains.proceeds {s s' : Session} (h : Retains s s')
    (hinterested : s.state.localRequests ≠ [] → s.state.localState.interested = true) :
    Proceeds s s' := by
  refine ⟨h.peerRequests, fun hne => h.interested (hinterested (h.localRequests ▸ hne)), h.log, ?_⟩
  intro mark _ hasked
  rw [h.localRequests]
  exact hasked.mono (h.log.drop mark).subset

theorem Asks.proceeds {s s' : Session} (h : Asks s s') : Proceeds s s' := by
  refine ⟨h.peerRequests ▸ List.prefix_rfl, h.interested, h.log, ?_⟩
  intro mark hmark hasked
  rcases h.asked with hsame | ⟨events, hlog, hevents⟩
  · rw [hsame]
    exact hasked.mono (h.log.drop mark).subset
  · rw [hlog, List.drop_append_of_le_length hmark]
    exact hevents.mono (List.subset_append_right _ _)

theorem processPieceMsg_proceeds {verify : Session → UInt32 → Except Crash Bool} {s s' : Session}
    (h : s.Accounted)
    (hinterested : s.state.localRequests ≠ [] → s.state.localState.interested = true)
    {msg : PieceMsg} (heq : processPieceMsg verify s msg = .ok s') : Proceeds s s' := by
  have hstate := processPieceMsg_state h heq
  have hpeer : s'.state.peerRequests = s.state.peerRequests := by
    rw [hstate]
  have hkept : s'.state.localState.interested = s.state.localState.interested := by
    rw [hstate]
  rw [← hkept] at hinterested
  cases processPieceMsg_step h heq with
  | unasked hindex hrequests hlog =>
      refine ⟨hpeer ▸ List.prefix_rfl, fun hne => hinterested (hrequests ▸ hne),
        hlog ▸ List.prefix_rfl, fun mark _ hasked => ?_⟩
      rw [hrequests, hlog]
      exact hasked
  | counted r hr hindex hleft hrequests hlog =>
      refine ⟨hpeer ▸ List.prefix_rfl, fun _ => hinterested (by simp [hr]),
        hlog ▸ List.prefix_rfl, fun mark _ hasked => ?_⟩
      rw [hr] at hasked
      rw [hrequests, hlog]
      exact hasked.receive
  | checked r hr hindex hleft hrequests valid events hlog hrest =>
      refine ⟨hpeer ▸ List.prefix_rfl, fun hne => absurd hrequests hne,
        hlog ▸ List.prefix_append _ _, fun mark _ _ => ?_⟩
      rw [hrequests]
      exact fun r hr => absurd hr List.not_mem_nil

/-- **One step.** -/
theorem clientStep_proceeds {s s' : Session} (h : s.Accounted)
    (hinterested : s.state.localRequests ≠ [] → s.state.localState.interested = true)
    {a : Answered} (hstep : clientStep processAnswered (.connected s) a = .ok (.connected s')) :
    Proceeds s s' := by
  cases a with
  | connect sock =>
      cases hstep
      exact (Retains.refl s).proceeds hinterested
  | drop => cases hstep
  | round => exact (connectionRound_asks h hinterested hstep).proceeds
  | receive m =>
      obtain ⟨msg, answer⟩ := m
      obtain ⟨t, ht, hc⟩ := bind_eq_ok.mp hstep
      cases hc
      by_cases hmsg : msg.type = .msgPiece
      swap
      · exact (processMsg_retains hmsg ht).proceeds hinterested
      cases msg with
      | piece msg =>
          obtain ⟨t, hpiece, hs'⟩ := bind_eq_ok.mp ht
          obtain ⟨hpeer, hstill, hlog, hasked⟩ := processPieceMsg_proceeds h hinterested hpiece
          cases hs'
          exact ⟨hpeer, hstill, hlog, hasked⟩
      | _ => cases hmsg

/-! ### Runs -/

/-- The program, and how long the log was when the last CHOKE came. -/
structure Marked where
  client : Client
  mark : ℕ

/-- A CHOKE takes back all that was asked for, as a new connection does. -/
def Client.markAfter (mark : ℕ) : Client → Answered → ℕ
  | .idle _ _ log, .connect _ => log.length
  | .connected s, .receive (.choke, _) => s.log.length
  | _, _ => mark

def markedStep (m : Marked) (a : Answered) : Except Crash Marked :=
  clientStep processAnswered m.client a >>= fun c => .ok ⟨c, m.client.markAfter m.mark a⟩

/-- Where a round ends unchoked, interested and without requests of the peer,
every block that is outstanding has been asked for since the last CHOKE. -/
def RequestsSurvive (m : Marked) (a : Answered) : Prop :=
  a = .round → ∀ m', markedStep m a = .ok m' → ∀ s ∈ m'.client.session?,
    s.state.localState.choked = false → s.state.localState.interested = true →
      s.state.peerRequests = [] → Asked s.state.localRequests (s.log.drop m'.mark)

def Answered.chokes : Answered → Bool
  | .receive (.choke, _) => true
  | _ => false

/-- A CHOKE comes only when no block is outstanding, or when the peer has asked
for a block, after which nothing is asked for. -/
def ChokesIdle (m : Marked) (a : Answered) : Prop :=
  a.chokes = true → ∀ s ∈ m.client.session?,
    s.state.peerRequests ≠ [] ∨ ∀ r ∈ s.state.localRequests, r.Whole

instance (m : Marked) (a : Answered) : Decidable (ChokesIdle m a) :=
  inferInstanceAs (Decidable (_ → ∀ s ∈ m.client.session?, _))

structure Marked.Tracks (m : Marked) : Prop where
  accounted : m.client.Accounted
  mark_le : ∀ s ∈ m.client.session?, m.mark ≤ s.log.length
  interested : ∀ s ∈ m.client.session?,
    s.state.localRequests ≠ [] → s.state.localState.interested = true

/-- Nothing will be asked for any more, or all that is outstanding has been asked
for since the last CHOKE. -/
def Marked.Covered (m : Marked) : Prop :=
  ∀ s ∈ m.client.session?,
    s.state.peerRequests ≠ [] ∨ Asked s.state.localRequests (s.log.drop m.mark)

/-- How the client behind a step comes to have a connection. -/
theorem markedStep_session {m m' : Marked} (h : m.Tracks) {a : Answered}
    (hstep : markedStep m a = .ok m') :
    m'.client.Accounted ∧ ∀ s' ∈ m'.client.session?,
      (s'.state.localRequests = [] ∧ m'.mark ≤ s'.log.length) ∨
        ∃ s ∈ m.client.session?, Proceeds s s' ∧
          (m'.mark = m.mark ∧ a.chokes = false ∨ m'.mark = s.log.length ∧ a.chokes = true) := by
  obtain ⟨c', hc', hm'⟩ := bind_eq_ok.mp hstep
  cases hm'
  obtain ⟨client, mark⟩ := m
  refine ⟨?_, fun s' hs' => ?_⟩
  · rcases clientStep_answered h.accounted a with ⟨_, heq, hgoes⟩ | ⟨_, heq, -⟩
    · cases heq.symm.trans hc'
      exact hgoes.accounted
    · cases heq.symm.trans hc'
  rw [Client.mem_session?] at hs'
  subst hs'
  cases client with
  | idle torrent disk log =>
      cases a with
      | connect sock =>
          obtain ⟨c', s, ok, events, heq, hfrom, -, hnone, hlog, -⟩ :=
            connectionStart_log h.accounted disk log sock
          cases heq.symm.trans hc'
          rcases hfrom with hs | hs
          · cases hs
            refine .inl ⟨hnone, ?_⟩
            rw [hlog, List.length_append]
            exact Nat.le_add_right _ _
          · cases hs
      | _ => cases hc'
  | connected s =>
      refine .inr ⟨s, rfl, clientStep_proceeds h.accounted (h.interested s rfl) hc', ?_⟩
      cases a with
      | receive m =>
          obtain ⟨msg, answer⟩ := m
          cases msg with
          | choke => exact .inr ⟨rfl, rfl⟩
          | _ => exact .inl ⟨rfl, rfl⟩
      | _ => exact .inl ⟨rfl, rfl⟩

theorem markedStep_tracks {m m' : Marked} (h : m.Tracks) {a : Answered}
    (hstep : markedStep m a = .ok m') : m'.Tracks := by
  obtain ⟨haccounted, hsession⟩ := markedStep_session h hstep
  refine ⟨haccounted, fun s' hs' => ?_, fun s' hs' => ?_⟩
  · rcases hsession s' hs' with ⟨-, hmark⟩ | ⟨s, hs, hproceeds, hmark⟩
    · exact hmark
    · have hle := hproceeds.log.length_le
      have hold := h.mark_le s hs
      rcases hmark with ⟨hmark, -⟩ | ⟨hmark, -⟩ <;> omega
  · rcases hsession s' hs' with ⟨hnone, -⟩ | ⟨s, hs, hproceeds, -⟩
    · exact fun hne => absurd hnone hne
    · exact hproceeds.interested

theorem asked_of_whole {requests : List PieceRequest} (h : ∀ r ∈ requests, r.Whole)
    (events : List Event) : Asked requests events := by
  intro r hr block hblock hcompleted
  rw [h r hr block hblock] at hcompleted
  cases hcompleted

theorem markedStep_covered {m m' : Marked} (h : m.Tracks) (hcovered : m.Covered) {a : Answered}
    (hidle : ChokesIdle m a) (hstep : markedStep m a = .ok m') : m'.Covered := by
  intro s' hs'
  rcases (markedStep_session h hstep).2 s' hs' with ⟨hnone, -⟩ | ⟨s, hs, hproceeds, hmark⟩
  · rw [hnone]
    exact .inr fun r hr => absurd hr List.not_mem_nil
  have hpeer : s.state.peerRequests ≠ [] → s'.state.peerRequests ≠ [] := fun hne hnil =>
    hne (List.prefix_nil.mp (hnil ▸ hproceeds.peerRequests))
  rcases hmark with ⟨hmark, -⟩ | ⟨hmark, hchokes⟩
  · rw [hmark]
    exact (hcovered s hs).imp hpeer (hproceeds.asked _ (h.mark_le s hs))
  · rw [hmark]
    exact (hidle hchokes s hs).imp hpeer fun hwhole =>
      hproceeds.asked _ le_rfl (asked_of_whole hwhole _)

theorem Marked.Covered.survive {m : Marked} (h : m.Tracks) (hcovered : m.Covered) {a : Answered}
    (hidle : ChokesIdle m a) : RequestsSurvive m a := by
  intro _ m' hstep s hs _ _ hnone
  exact (markedStep_covered h hcovered hidle hstep s hs).resolve_left (not_not.mpr hnone)

/-- The download is not complete while a piece is outstanding. -/
theorem Session.Accounted.incomplete {s : Session} (h : s.Accounted) {r : PieceRequest}
    (hr : r ∈ s.state.localRequests) : s.torrent.sh.completed = false := by
  by_contra hcompleted
  have hleft := (h.torrent.completed.mp (Bool.not_eq_false _ ▸ hcompleted)).1
  rw [h.torrent.left, List.countP_eq_zero] at hleft
  have hmem := List.mem_of_getElem? (h.requested r hr)
  exact hleft _ hmem (by decide)

/-- A CHOKE that finds a block outstanding, an UNCHOKE and a round: the block is
not asked for again. -/
theorem not_survive_of_not_idle {m : Marked} (h : m.Tracks) {a : Answered}
    (hidle : ¬ ChokesIdle m a) (answer : Session → UInt32 → Bool) :
    ∃ m', run markedStep m [a, .receive (.unchoke, answer)] = .ok m' ∧
      ¬ RequestsSurvive m' .round := by
  simp only [ChokesIdle, not_forall, not_or, not_not] at hidle
  obtain ⟨hchokes, s, hs, hnone, r, hr, hwhole⟩ := hidle
  obtain ⟨block, hblock, hcompleted⟩ : ∃ block ∈ r.blockRequests, block.completed = false := by
    simpa [PieceRequest.Whole] using hwhole
  obtain ⟨client, mark⟩ := m
  cases Client.mem_session?.mp hs
  have hne : s.state.localRequests ≠ [] := List.ne_nil_of_mem hr
  let s' : Session := { s with state := { s.state with
    localState := { s.state.localState with choked := false } } }
  have hrun : run markedStep ⟨.connected s, mark⟩ [a, .receive (.unchoke, answer)] =
      .ok ⟨.connected s', s.log.length⟩ := by
    cases a with
    | receive m =>
        obtain ⟨msg, answer'⟩ := m
        cases msg with
        | choke => rfl
        | _ => cases hchokes
    | _ => cases hchokes
  have hs' : s'.Accounted := (h.accounted : s.Accounted).frame ⟨rfl, rfl, rfl, rfl, rfl⟩
  have hround : markedStep ⟨.connected s', s.log.length⟩ .round =
      .ok ⟨.connected s', s.log.length⟩ := by
    have heligible : s'.state.peerRequests.length = 0 ∧ ¬ s'.state.localState.choked ∧
        s'.state.localState.interested :=
      ⟨List.length_eq_zero_iff.mpr hnone, by simp [s'], h.interested s rfl hne⟩
    rw [markedStep, clientStep, connectionRound, if_pos heligible, sendRequests_outstanding hs' hne]
    simp only [ok_bind, hs'.incomplete hr]
    rfl
  refine ⟨_, hrun, fun hsurvive => ?_⟩
  have hasked := hsurvive rfl _ hround s' rfl rfl (h.interested s rfl hne) hnone r hr block hblock
    hcompleted
  rw [show s'.log = s.log from rfl, List.drop_length] at hasked
  cases hasked

/-- **Requests and chokes.** When every CHOKE of a run finds no block outstanding,
then after every round that ends unchoked, interested and without requests of the
peer, the blocks that are outstanding have been asked for since the last CHOKE.
And whenever a CHOKE finds a block outstanding, an UNCHOKE and a round are enough
to see that it is not. -/
theorem run_requestsSurvive {env : Environment} {metainfo : BencodeValue} {destdir : Bytes}
    {torrent : TorrentInfo} (hinit : torrentInit env metainfo destdir = .ok torrent) (disk : Disk)
    (acts : List Answered) :
    (RunMeets markedStep ChokesIdle ⟨.idle torrent disk [], 0⟩ acts →
      RunMeets markedStep RequestsSurvive ⟨.idle torrent disk [], 0⟩ acts) ∧
    ∀ m a answer, run markedStep ⟨.idle torrent disk [], 0⟩ acts = .ok m → ¬ ChokesIdle m a →
      ¬ RunMeets markedStep RequestsSurvive ⟨.idle torrent disk [], 0⟩
        (acts ++ [a, .receive (.unchoke, answer)] ++ [.round]) := by
  have hstart : Marked.Tracks ⟨.idle torrent disk [], 0⟩ := by
    refine ⟨accounted_torrentInit hinit, ?_, ?_⟩ <;>
      exact fun s hs => absurd hs (Option.not_mem_none s)
  have hcovered : Marked.Covered ⟨.idle torrent disk [], 0⟩ :=
    fun s hs => absurd hs (Option.not_mem_none s)
  constructor
  · intro hidle
    exact hidle.of_invariant (I := fun m : Marked => m.Tracks ∧ m.Covered) ⟨hstart, hcovered⟩
      (fun m a m' hm hidle hstep =>
        ⟨markedStep_tracks hm.1 hstep, markedStep_covered hm.1 hm.2 hidle hstep⟩)
      fun m a hm hidle => hm.2.survive hm.1 hidle
  · intro m a answer hrun hidle hsurvive
    have htracks : m.Tracks :=
      run_invariant_of_step markedStep (fun _ _ _ h => markedStep_tracks h) hstart hrun
    obtain ⟨m', hm', hnot⟩ := not_survive_of_not_idle htracks hidle answer
    exact hnot (hsurvive.last _ ((run_append_eq_ok _).mpr ⟨m, hrun, hm'⟩))

def noAnswer : Session → UInt32 → Bool := fun _ _ => false

def askActs : List Answered :=
  [.connect ⟨[], [], [], []⟩, .receive (.bitfield [true], noAnswer), .receive (.choke, noAnswer),
    .receive (.unchoke, noAnswer), .round]

theorem run_requestsSurvive_twoBlocks :
    RunMeets markedStep RequestsSurvive ⟨.idle twoBlocks blankDisk [], 0⟩ askActs :=
  (run_requestsSurvive torrentInit_twoBlocks blankDisk askActs).1 (by decide +kernel)

/-- Choked and unchoked again, we wait for blocks that we have not asked for
since. -/
theorem run_requestsForgotten :
    torrentInit quietEnvironment (.bencodeDict [(infoKey, twoBlocksInfo)]) [] = .ok twoBlocks ∧
      ¬ RunMeets markedStep RequestsSurvive ⟨.idle twoBlocks blankDisk [], 0⟩
        (askActs ++ [.receive (.choke, noAnswer), .receive (.unchoke, noAnswer)] ++ [.round]) := by
  refine ⟨torrentInit_twoBlocks, fun hmeets => ?_⟩
  obtain ⟨m, hrun, m', hstep, s, hs, hchoked, hinterested, hnone, hasked⟩ :
      ∃ m, run markedStep ⟨.idle twoBlocks blankDisk [], 0⟩
          (askActs ++ [.receive (.choke, noAnswer), .receive (.unchoke, noAnswer)]) = .ok m ∧
        ∃ m', markedStep m .round = .ok m' ∧ ∃ s ∈ m'.client.session?,
          s.state.localState.choked = false ∧ s.state.localState.interested = true ∧
            s.state.peerRequests = [] ∧ ¬ Asked s.state.localRequests (s.log.drop m'.mark) := by
    decide +kernel
  exact hasked (hmeets.last _ hrun rfl m' hstep s hs hchoked hinterested hnone)

end Daobell
