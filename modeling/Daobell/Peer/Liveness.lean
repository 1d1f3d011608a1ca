import Daobell.Lib.Fairness
import Daobell.Peer.InFlight

/-!
A download comes to its end. As long as the connection lasts and the peer neither
chokes us nor asks us for anything, each step of either end that has an effect
brings the download nearer to its end; and while the download is not complete,
there is such a step. So under a schedule that lets both ends go on again and
again, all the files come to be there.
-/

namespace Daobell

open Lib

/-! ### A peer that stays with us -/

/-- A message that does not keep us from asking: neither a CHOKE nor a REQUEST, nor a
bit field in place of the first. -/
def PeerMsg.Calm : PeerMsg → Prop
  | .choke => False
  | .bitfield _ => False
  | .request _ => False
  | _ => True

section

variable (torrent : TorrentInfo) (contents : Bytes)

/-- Whatever the peer says of its own accord does not keep us from asking. -/
def ExchangeAct.Calm : ExchangeAct → Prop
  | .say msg => msg.Streamed torrent ∧ msg.InRange torrent.pieces.length ∧ msg.Calm
  | _ => True

def Whole (s : Session) : Prop := ∀ i, ¬ Lacks s.torrent.sh.piecesState i

/-- What we know of the peer: nothing yet, and its bit field is the next message; or
that it has every piece, and then we are interested unless we have them too. -/
inductive Knows (s : Session) : List PeerMsg → Prop
  | begins (rest : List PeerMsg) (hchoked : s.state.localState.choked = true)
      (hpeer : false ∈ s.state.peerHave) (hcalm : ∀ msg ∈ rest, msg.Calm) :
      Knows s (.bitfield (List.replicate torrent.pieces.length true) :: rest)
  | goes (incoming : List PeerMsg) (hcalm : ∀ msg ∈ incoming, msg.Calm)
      (hpeer : s.state.peerHave = List.replicate torrent.pieces.length true)
      (hinterested : s.state.localState.interested = true ∨ Whole s) : Knows s incoming

structure Attuned (choking : Bool) (s : Session) (incoming : List PeerMsg) : Prop where
  unasked : s.state.peerRequests = []
  unchoked : s.state.localState.choked = true → choking = true ∨ .unchoke ∈ incoming
  knows : Knows torrent s incoming

structure Exchange.Cordial (e : Exchange) : Prop where
  kept : e.client.Kept torrent contents
  flows : ∀ s, e.client = .connected s → ∃ incoming outgoing,
    Ledger torrent contents e.owed e.taken s incoming outgoing ∧
      Attuned torrent e.choking s incoming

end

section

variable {torrent : TorrentInfo} {contents : Bytes} {owed : List RequestMsg} {taken : ℕ}
  {s s' : Session} {incoming outgoing msgs : List PeerMsg} {choking : Bool}

theorem Knows.append (h : Knows torrent s incoming) {msg : PeerMsg} (hmsg : msg.Calm)
    (sock : Socket) : Knows torrent { s with sock := sock } (incoming ++ [msg]) := by
  have hcalm : ∀ rest : List PeerMsg, (∀ m ∈ rest, m.Calm) → ∀ m ∈ rest ++ [msg], m.Calm := by
    intro rest hrest m hm
    rcases List.mem_append.mp hm with hm | hm
    · exact hrest m hm
    · rw [List.mem_singleton.mp hm]
      exact hmsg
  cases h with
  | begins rest hchoked hpeer hrest => exact .begins _ hchoked hpeer (hcalm rest hrest)
  | goes _ hrest hpeer hinterested => exact .goes _ (hcalm _ hrest) hpeer hinterested

theorem Attuned.append (h : Attuned torrent choking s incoming) {msg : PeerMsg} (hmsg : msg.Calm)
    {choking' : Bool} (hchoking : choking = true → choking' = true ∨ msg = .unchoke)
    (sock : Socket) : Attuned torrent choking' { s with sock := sock } (incoming ++ [msg]) where
  unasked := h.unasked
  unchoked hchoked := by
    rcases h.unchoked hchoked with hstill | hmem
    · exact (hchoking hstill).imp_right fun heq => by simp [heq]
    · exact .inr (List.mem_append_left _ hmem)
  knows := h.knows.append hmsg sock

/-! ### What is left to do -/

variable (torrent) in
def requestWeight : ℕ := 17000 * (torrent.pieceLength.toNat / peerRequestSize) + 1

variable (torrent) in
def Session.left (s : Session) : ℕ :=
  (if s.state.localState.interested then 0 else 5000) +
    (if false ∈ s.state.peerHave then 5001 else 0) +
    (if s.state.localRequests = [] then requestWeight torrent else 0) +
    (requestWeight torrent + 9000) * s.torrent.sh.piecesLeft

variable (torrent) in
/-- What is left to do. A byte that the peer has not read weighs more than one that we
have not, as it may be part of a request; a request that it owes an answer weighs
more than that answer; and a piece that is not there weighs more than all that it
takes to ask for it. -/
def Exchange.left (e : Exchange) : ℕ :=
  match e.client with
  | .idle _ _ _ => 0
  | .connected s =>
      1 + s.sock.inp.length + 1000 * (s.sock.out.length - e.taken) + 16398 * e.owed.length +
        (if e.choking then 6 else 0) + s.left torrent

/-! ### A message is received -/

theorem Whole.advances {P : ℕ → Prop} (h : Whole s) (hs : s.Accounted) (hs' : s'.Accounted)
    (hadvances : Advances P s.torrent s'.torrent) : Whole s' := by
  rintro i ⟨state, hstate, hne⟩
  have hi : i < s.torrent.sh.piecesState.length := by
    rw [hs.torrent.length, ← hadvances.pieces, ← hs'.torrent.length]
    exact (List.getElem?_eq_some_iff.mp hstate).1
  have hhas : s.torrent.Has i := by
    by_contra hno
    exact h i ⟨_, List.getElem?_eq_getElem hi, fun heq => hno (by
      rw [TorrentInfo.Has, List.getElem?_eq_getElem hi, heq])⟩
  exact hne (Option.some.inj (hstate.symm.trans (hadvances.stays i hhas)))

/-- A message of a peer that is known to have everything changes neither that nor
the interest in it, which it can only set off. -/
theorem note_calm {n : ℕ} {state : ConnState} {msg : PeerMsg} (hcalm : msg.Calm)
    (hpeer : state.peerHave = List.replicate n true) :
    (state.note n msg).peerHave = List.replicate n true ∧
      (state.note n msg).localState.interested = state.localState.interested ∧
      (state.note n msg).peerRequests = state.peerRequests ∧
      (state.note n msg).localRequests = state.localRequests ∧
      ((state.note n msg).localState.choked = true →
        state.localState.choked = true ∧ msg ≠ .unchoke) := by
  cases msg with
  | choke => exact hcalm.elim
  | bitfield bits => exact hcalm.elim
  | request r => exact hcalm.elim
  | haveMsg index =>
      refine ⟨?_, rfl, rfl, rfl, fun h => ⟨h, by simp⟩⟩
      simp only [ConnState.note, ConnState.setPeerHave, hpeer]
      refine List.ext_getElem (by simp) fun i h₁ h₂ => ?_
      simp
  | unchoke => exact ⟨hpeer, rfl, rfl, rfl, fun h => absurd h (by simp [ConnState.note])⟩
  | _ => exact ⟨hpeer, rfl, rfl, rfl, fun h => ⟨h, by simp⟩⟩

theorem length_interested (torrent : TorrentInfo) :
    ([PeerMsg.interested].flatMap (PeerMsg.wire torrent)).length = 5 := by
  rw [List.flatMap_singleton, length_wire (show PeerMsg.Streamed torrent .interested from trivial)]
  rfl

theorem Noted.begins {bits : List Bool} (hs' : s'.Accounted)
    (htorrent : s'.torrent = s.torrent) (hpieces : s.torrent.pieces = torrent.pieces)
    (hbits : bits.take torrent.pieces.length = List.replicate torrent.pieces.length true)
    (hpeer : false ∈ s.state.peerHave) (hcalm : ∀ msg ∈ incoming, msg.Calm)
    (hnoted : Noted s.torrent s.state s'.state (.bitfield bits) msgs) :
    Knows torrent s' incoming ∧ s'.state.peerRequests = s.state.peerRequests ∧
      s'.state.localState.choked = s.state.localState.choked ∧
      s'.left torrent + 1000 * (msgs.flatMap (PeerMsg.wire torrent)).length ≤ s.left torrent := by
  rw [← hpieces] at hbits
  have hnone : false ∉ List.replicate s.torrent.pieces.length true := by simp
  cases hnoted with
  | silent hstate hlacks =>
      have hwhole : Whole s' := by
        rintro i ⟨state, hi, hne⟩
        have hlt : i < s.torrent.pieces.length := by
          rw [← htorrent, ← hs'.torrent.length]
          exact (List.getElem?_eq_some_iff.mp hi).1
        rw [htorrent] at hi
        exact hlacks bits rfl i (by rw [hbits]; simp [hlt]) ⟨state, hi, hne⟩
      refine ⟨.goes _ hcalm ?_ (.inr hwhole), ?_, ?_, ?_⟩
      · rw [hstate, ← hpieces]
        exact hbits
      · rw [hstate]
        rfl
      · rw [hstate]
        rfl
      · simp only [Session.left, hstate, htorrent, ConnState.note, hbits, if_neg hnone,
          if_pos hpeer, List.flatMap_nil, List.length_nil]
        omega
  | interested hstate =>
      refine ⟨.goes _ hcalm ?_ (.inl ?_), ?_, ?_, ?_⟩
      · rw [hstate, ← hpieces]
        exact hbits
      · rw [hstate]
        rfl
      · rw [hstate]
        rfl
      · rw [hstate]
        rfl
      · simp only [Session.left, hstate, htorrent, ConnState.note, ConnState.setInterested, hbits,
          if_neg hnone, if_pos hpeer, length_interested, if_true]
        omega

theorem Noted.goes {msg : PeerMsg} (htorrent : s'.torrent = s.torrent)
    (hpieces : s.torrent.pieces = torrent.pieces) (hmsg : msg.Calm)
    (hpeer : s.state.peerHave = List.replicate torrent.pieces.length true)
    (hwanted : s.state.localState.interested = true ∨ Whole s)
    (hcalm : ∀ msg ∈ incoming, msg.Calm) (hnoted : Noted s.torrent s.state s'.state msg msgs) :
    Knows torrent s' incoming ∧ s'.state.peerRequests = s.state.peerRequests ∧
      (s'.state.localState.choked = true → s.state.localState.choked = true ∧ msg ≠ .unchoke) ∧
      s'.left torrent + 1000 * (msgs.flatMap (PeerMsg.wire torrent)).length ≤ s.left torrent := by
  obtain ⟨hpeer', hinterested', hasked', hrequests', hchoked'⟩ := note_calm hmsg hpeer
  have hwhole : Whole s → Whole s' := by
    intro h
    rw [Whole, htorrent]
    exact h
  rw [← hpieces] at hpeer' hinterested' hasked' hrequests' hchoked'
  cases hnoted with
  | silent hstate =>
      rw [← hstate] at hpeer' hinterested' hasked' hrequests' hchoked'
      rw [hpieces] at hpeer'
      refine ⟨.goes _ hcalm hpeer' ?_, hasked', hchoked', ?_⟩
      · rw [hinterested']
        exact hwanted.imp_right hwhole
      · simp only [Session.left, hinterested', hpeer', hpeer, hrequests', htorrent,
          List.flatMap_nil, List.length_nil]
        omega
  | interested hstate hwhy =>
      rw [hpieces] at hpeer'
      have huninterested : s.state.localState.interested = false := by
        refine hwhy.resolve_right fun htype => ?_
        cases msg with
        | bitfield bits => exact hmsg
        | _ => cases htype
      have hfinal : s'.state.peerHave = List.replicate torrent.pieces.length true := by
        rw [hstate, ← hpeer', ← hpieces]
        rfl
      have hlocal : s'.state.localRequests = s.state.localRequests := by
        rw [hstate]
        exact hrequests'
      have hshown : s'.state.localState.interested = true := by
        rw [hstate]
        rfl
      refine ⟨.goes _ hcalm hfinal (.inl hshown), ?_, ?_, ?_⟩
      · rw [hstate]
        exact hasked'
      · rw [hstate]
        exact hchoked'
      · simp only [Session.left, hfinal, hpeer, hlocal, hshown, huninterested, htorrent,
          length_interested]
        simp only [if_true, Bool.false_eq_true, if_false]
        omega

/-- **A message received** keeps the connection as it is, and what it sets off weighs
no more than what it settles. -/
theorem Receipt.attuned {msg : PeerMsg}
    (hkept : Client.Kept torrent contents (.connected s))
    (hkept' : Client.Kept torrent contents (.connected s'))
    (hstorable : Storable torrent contents) (h : Attuned torrent choking s (msg :: incoming))
    (hreceipt : Receipt torrent contents s s' msg msgs) :
    Attuned torrent choking s' incoming ∧
      s'.left torrent + 1000 * (msgs.flatMap (PeerMsg.wire torrent)).length ≤ s.left torrent := by
  obtain ⟨hunasked, hunchoked, hknows⟩ := h
  have hpieces : s.torrent.pieces = torrent.pieces := hkept.pieces
  cases hreceipt with
  | noted received _ hmsg hecho hnoted htorrent =>
      cases hknows with
      | begins rest hchoked hpeer hcalm =>
          obtain ⟨bits, rfl, -, hbits, -⟩ := hecho
          rw [hpieces] at hbits
          obtain ⟨hknows, hasked, hstill, hleft⟩ := hnoted.begins hkept'.accounted
            htorrent hpieces hbits hpeer hcalm
          refine ⟨⟨hasked.trans hunasked, fun hchoked' => ?_, hknows⟩, hleft⟩
          exact (hunchoked (hstill ▸ hchoked')).imp_right fun hmem =>
            (List.mem_cons.mp hmem).resolve_left (by simp)
      | goes _ hcalm hpeer hwanted =>
          obtain ⟨hmsgcalm, hrest⟩ := List.forall_mem_cons.mp hcalm
          obtain rfl : received = msg := by
            cases msg with
            | bitfield bits => exact hmsgcalm.elim
            | _ => exact hecho
          obtain ⟨hknows, hasked, hstill, hleft⟩ := hnoted.goes htorrent hpieces hmsgcalm hpeer
            hwanted hrest
          refine ⟨⟨hasked.trans hunasked, fun hchoked' => ?_, hknows⟩, hleft⟩
          obtain ⟨hchoked, hne⟩ := hstill hchoked'
          exact (hunchoked hchoked).imp_right fun hmem =>
            (List.mem_cons.mp hmem).resolve_left (Ne.symm hne)
  | counted piece r hmsg hr hleft hstate htorrent =>
      subst hmsg
      cases hknows with
      | goes _ hcalm hpeer hwanted =>
          obtain ⟨-, hrest⟩ := List.forall_mem_cons.mp hcalm
          refine ⟨⟨by rw [hstate]; exact hunasked, fun hchoked => ?_,
            .goes _ hrest (by rw [hstate]; exact hpeer) ?_⟩, ?_⟩
          · rw [hstate] at hchoked
            exact (hunchoked hchoked).imp_right fun hmem =>
              (List.mem_cons.mp hmem).resolve_left (by simp)
          · rw [hstate, Whole, htorrent]
            exact hwanted
          · simp [Session.left, hstate, ConnState.setRequests, htorrent, hr]
  | finished piece r hmsg hr hstate hadvances hleft =>
      subst hmsg
      cases hknows with
      | goes _ hcalm hpeer hwanted =>
          obtain ⟨-, hrest⟩ := List.forall_mem_cons.mp hcalm
          refine ⟨⟨by rw [hstate]; exact hunasked, fun hchoked => ?_,
            .goes _ hrest (by rw [hstate]; exact hpeer) ?_⟩, ?_⟩
          · rw [hstate] at hchoked
            exact (hunchoked hchoked).imp_right fun hmem =>
              (List.mem_cons.mp hmem).resolve_left (by simp)
          · rw [hstate]
            exact hwanted.imp_right fun hwhole =>
              hwhole.advances hkept.accounted hkept'.accounted hadvances
          · have hhave :
                ([PeerMsg.haveMsg r.pieceIndex].flatMap (PeerMsg.wire torrent)).length = 9 := by
              rw [List.flatMap_singleton, 
                length_wire (show PeerMsg.Streamed torrent (.haveMsg r.pieceIndex) from trivial)]
              rfl
            have hmul : (requestWeight torrent + 9000) * s.torrent.sh.piecesLeft =
                (requestWeight torrent + 9000) * s'.torrent.sh.piecesLeft +
                  (requestWeight torrent + 9000) := by
              rw [← hleft, Nat.mul_succ]
            simp only [Session.left, hstate, ConnState.setRequests, hr, hhave, hmul, if_true]
            rw [if_neg (List.cons_ne_nil _ _)]
            omega
  | failed piece r hmsg hr hstate hunfit => exact absurd hstorable hunfit

/-! ### The steps -/

/-- The download of a session that has every piece is complete. -/
theorem Whole.completed (h : Whole s) (hs : s.Accounted) (hpos : 1 ≤ s.torrent.pieces.length) :
    s.torrent.sh.completed = true := by
  refine hs.torrent.completed.mpr ⟨?_, hpos⟩
  rw [hs.torrent.left, List.countP_eq_zero]
  intro state hmem hne
  obtain ⟨i, hi⟩ := List.mem_iff_getElem?.mp hmem
  exact h i ⟨state, hi, by simpa using hne⟩

theorem length_asks (torrent : TorrentInfo) (r : PieceRequest) (blocks : List BlockRequest) :
    ((blocks.map r.ask).flatMap (PeerMsg.wire torrent)).length = 17 * blocks.length := by
  induction blocks with
  | nil => rfl
  | cons block blocks ih =>
      have hlen : ((r.ask block).wire torrent).length = 17 :=
        length_wire (show PeerMsg.Streamed torrent (r.ask block) from trivial)
      rw [List.map_cons, List.flatMap_cons, List.length_append, hlen, ih, List.length_cons]
      omega

/-- What it takes to ask for a piece has been accounted for. -/
theorem length_asks_lt (hdescribes : Describes torrent contents)
    (hlayout : s.torrent.layout = torrent.layout) (index : UInt32) :
    1000 * (((pieceRequestCreate s.torrent.layout index).blockRequests.map
      (pieceRequestCreate s.torrent.layout index).ask).flatMap (PeerMsg.wire s.torrent)).length <
        requestWeight torrent := by
  have hle := length_pieceAddresses_le torrent.layout hdescribes.aligned index
  obtain ⟨k, hk⟩ := hdescribes.aligned
  have hblocks : (pieceRequestCreate torrent.layout index).blockRequests.length ≤ k := by
    rw [length_blockRequests, chunkCount]
    simp only [peerRequestSize] at hk ⊢
    have hlength : torrent.layout.pieceLength.toNat = 16384 * k := hk
    omega
  have hdiv : torrent.pieceLength.toNat / peerRequestSize = k := by
    rw [hk, Nat.mul_div_cancel_left k (by decide)]
  rw [length_asks, hlayout, requestWeight, hdiv]
  omega

variable (torrent taken) in
def Session.due (s : Session) : ℕ :=
  s.sock.inp.length + 1000 * (s.sock.out.length - taken) + s.left torrent

theorem Ledger.due (h : Ledger torrent contents owed taken s incoming outgoing) :
    s.due torrent taken = (incoming.flatMap (peerWire torrent contents)).length +
      1000 * (outgoing.flatMap (PeerMsg.wire torrent)).length + s.left torrent := by
  rw [Session.due, h.inp, ← h.out, List.length_drop]

/-- **A round** leaves the session as it is, ends it, or asks for a piece. -/
theorem RoundStep.attuned (hdescribes : Describes torrent contents)
    (hkept : Client.Kept torrent contents (.connected s)) (h : Attuned torrent choking s incoming)
    (htaken : taken ≤ s.sock.out.length) (hgoing : s.torrent.sh.completed = false)
    (hstep : RoundStep s s') :
    s' = s ∧ (s.state.localState.choked = true ∨ s.state.localState.interested = false ∨
        s.state.localRequests ≠ []) ∨
      Attuned torrent choking s' incoming ∧ s'.due torrent taken < s.due torrent taken := by
  have hpieces : s.torrent.pieces = torrent.pieces := hkept.pieces
  have hs : s.Accounted := hkept.accounted
  have hwhole : ¬ Whole s := fun hall => by
    rw [hall.completed hs (by rw [hpieces]; exact hdescribes.nonempty)] at hgoing
    cases hgoing
  cases hstep with
  | rests heq hwhy => exact .inl ⟨heq, hwhy.resolve_left (not_not.mpr h.unasked)⟩
  | losesInterest hchoked hnone hlacks hspeaks hstate =>
      cases h.knows with
      | begins rest hchoked' => exact absurd (hchoked.symm.trans hchoked') (by simp)
      | goes _ hcalm hpeer hinterested =>
          -- with a peer that has everything, there is nothing left that we lack
          refine absurd (fun i hi => hlacks i ?_ hi) hwhole
          obtain ⟨state, hstate, -⟩ := hi
          have hlt := (List.getElem?_eq_some_iff.mp hstate).1
          rw [hs.torrent.length, hpieces] at hlt
          rw [hpeer, List.getElem?_replicate, if_pos hlt]
  | asks i hchoked hinterested hnone hpeer hlacks hspeaks hstate =>
      have hsock := hspeaks.sock
      have hasks := length_asks_lt hdescribes hkept.layout (UInt32.ofNat i)
      refine .inr ⟨⟨?_, ?_, ?_⟩, ?_⟩
      · rw [hstate]
        exact h.unasked
      · rw [hstate]
        exact h.unchoked
      · cases h.knows with
        | begins rest hchoked' => exact absurd (hchoked.symm.trans hchoked') (by simp)
        | goes _ hcalm hpeer _ =>
            refine .goes _ hcalm ?_ (.inl ?_)
            · rw [hstate]
              exact hpeer
            · rw [hstate]
              exact hinterested
      · have hout : s'.sock.out.length - taken = s.sock.out.length - taken +
            (((pieceRequestCreate s.torrent.layout (UInt32.ofNat i)).blockRequests.map
              (pieceRequestCreate s.torrent.layout (UInt32.ofNat i)).ask).flatMap
                (PeerMsg.wire s.torrent)).length := by
          rw [hsock.out, List.length_append]
          exact Nat.sub_add_comm htaken
        have hinp : s'.sock.inp.length = s.sock.inp.length := congrArg List.length hsock.inp
        have hleft : s'.left torrent + requestWeight torrent = s.left torrent := by
          simp only [Session.left, hstate, hspeaks.torrent, Session.asking, TorrentInfo.setState,
            hnone, if_true, List.cons_ne_nil, if_false]
          omega
        rw [Session.due, Session.due, hout, hinp]
        omega

end

section

variable {torrent : TorrentInfo} {contents : Bytes} {e : Exchange}

theorem left_idle (t : TorrentInfo) (disk : Disk) (log : List Event) (choking : Bool)
    (owed : List RequestMsg) (taken : ℕ) :
    Exchange.left torrent ⟨.idle t disk log, choking, owed, taken⟩ = 0 := rfl

theorem left_connected (s : Session) (choking : Bool) (owed : List RequestMsg) (taken : ℕ) :
    Exchange.left torrent ⟨.connected s, choking, owed, taken⟩ =
      1 + s.due torrent taken + 16398 * owed.length + (if choking then 6 else 0) := by
  simp only [Exchange.left, Session.due]
  omega

theorem cordial_idle {client : Client} (hkept : client.Kept torrent contents)
    (hidle : ∀ s, client ≠ .connected s) (choking : Bool) (owed : List RequestMsg) (taken : ℕ) :
    Exchange.Cordial torrent contents ⟨client, choking, owed, taken⟩ :=
  ⟨hkept, fun s hs => absurd hs (hidle s)⟩

theorem cordial_connected {s : Session} {choking : Bool} {owed : List RequestMsg} {taken : ℕ} :
    Exchange.Cordial torrent contents ⟨.connected s, choking, owed, taken⟩ ↔
      Client.Kept torrent contents (.connected s) ∧ ∃ incoming outgoing,
        Ledger torrent contents owed taken s incoming outgoing ∧
          Attuned torrent choking s incoming := by
  refine ⟨fun h => ⟨h.kept, h.flows s rfl⟩, fun ⟨hkept, hflow⟩ => ⟨hkept, ?_⟩⟩
  rintro _ ⟨⟩
  exact hflow

def Exchange.Stuck (e : Exchange) (s : Session) : ExchangeAct → Prop
  | .receive avail => s.sock.inp = [] ∨ avail < s.sock.inp.length
  | .round => s.torrent.sh.completed = false ∧ (s.state.localState.choked = true ∨
      s.state.localState.interested = false ∨ s.state.localRequests ≠ [])
  | .unchoke => e.choking = false
  | .read => s.sock.out.length ≤ e.taken
  | .answer k => e.owed[k]? = none
  | _ => True

def Exchange.Lasting (e : Exchange) : Prop :=
  (∃ s, e.client = .connected s) ∨ e.client.torrent.sh.completed = true

variable (torrent) in
/-- An action has no effect, for a reason; or there is less left to do. -/
def Progresses (e e' : Exchange) (a : ExchangeAct) : Prop :=
  e' = e ∧ (∀ s, e.client = .connected s → e.Stuck s a) ∨
    e'.Lasting ∧ e'.left torrent < e.left torrent

theorem Exchange.Cordial.receive (h : e.Cordial torrent contents)
    (hdescribes : Describes torrent contents) (hstorable : Storable torrent contents) (avail : ℕ) :
    ∃ e', e.proceed (.receive avail) = .ok e' ∧ e'.Cordial torrent contents ∧
      Progresses torrent e e' (.receive avail) := by
  obtain ⟨client, choking, owed, taken⟩ := e
  cases client with
  | idle t disk log => exact ⟨_, rfl, h, .inl ⟨rfl, fun _ hs => by cases hs⟩⟩
  | connected s =>
      obtain ⟨hkept, incoming, outgoing, hledger, hattuned⟩ := cordial_connected.mp h
      rcases processQueued_cases hkept hdescribes hledger avail with
        ⟨heq, hwhy⟩ | ⟨msg, rest, s', msgs, rfl, heq, hreceipt, hkept', hledger'⟩
      · refine ⟨_, by rw [Exchange.proceed, clientStep, heq, ok_bind], h, .inl ⟨rfl, ?_⟩⟩
        rintro _ ⟨⟩
        refine hwhy.imp_left ?_
        rintro rfl
        exact hledger.inp
      · obtain ⟨hattuned', hleft⟩ := hreceipt.attuned hkept hkept' hstorable hattuned
        refine ⟨_, by rw [Exchange.proceed, clientStep, heq, ok_bind],
          cordial_connected.mpr ⟨hkept', _, _, hledger', hattuned'⟩, .inr ⟨.inl ⟨s', rfl⟩, ?_⟩⟩
        obtain ⟨len, payload, -, -, hwire⟩ := peerWire_length contents
          (hledger.fromPeer msg List.mem_cons_self)
        rw [left_connected, left_connected, hledger.due, hledger'.due, List.flatMap_cons,
          List.flatMap_append, List.length_append, List.length_append, hwire, List.length_append,
          length_wordBytes]
        omega

/-- The thread goes around its loop. -/
theorem Exchange.Cordial.round (h : e.Cordial torrent contents)
    (hdescribes : Describes torrent contents) :
    ∃ e', e.proceed .round = .ok e' ∧ e'.Cordial torrent contents ∧
      Progresses torrent e e' .round := by
  obtain ⟨client, choking, owed, taken⟩ := e
  cases client with
  | idle t disk log => exact ⟨_, rfl, h, .inl ⟨rfl, fun _ hs => by cases hs⟩⟩
  | connected s =>
      obtain ⟨hkept, incoming, outgoing, hledger, hattuned⟩ := cordial_connected.mp h
      obtain ⟨s', msgs, hstep, heq, hkept', hledger'⟩ :=
        connectionRound_ledger hkept hdescribes hledger
      have hproceed : Exchange.proceed ⟨.connected s, choking, owed, taken⟩ .round =
          .ok ⟨if s.torrent.sh.completed then s'.hangUp else .connected s', choking, owed,
            taken⟩ := by
        rw [Exchange.proceed, clientStep, heq, ok_bind]
      refine ⟨_, hproceed, ?_⟩
      cases hcompleted : s.torrent.sh.completed with
      | true =>
          refine ⟨cordial_idle hkept'.hangUp (fun _ hs => by cases hs) _ _ _, .inr ⟨.inr ?_, ?_⟩⟩
          · have htorrent : s'.torrent.sh.completed = s.torrent.sh.completed := by
              cases hstep with
              | rests heq => rw [heq]
              | losesInterest hchoked hnone hlacks hspeaks hstate => rw [hspeaks.torrent]
              | asks i hchoked hinterested hnone hpeer hlacks hspeaks hstate =>
                  rw [hspeaks.torrent]
                  rfl
            exact htorrent.trans hcompleted
          · rw [if_pos rfl, Session.hangUp, left_idle, left_connected]
            omega
      | false =>
          rcases hstep.attuned hdescribes hkept hattuned hledger.taken_le hcompleted with
            ⟨rfl, hwhy⟩ | ⟨hattuned', hless⟩
          · refine ⟨h, .inl ⟨rfl, ?_⟩⟩
            rintro _ ⟨⟩
            exact ⟨hcompleted, hwhy⟩
          · refine ⟨cordial_connected.mpr ⟨hkept', _, _, hledger', hattuned'⟩,
              .inr ⟨.inl ⟨s', rfl⟩, ?_⟩⟩
            simp only [Bool.false_eq_true, if_false]
            rw [left_connected, left_connected]
            omega

/-- The peer says something, on a connection that there is. -/
theorem Exchange.Cordial.push (h : e.Cordial torrent contents) {msg : PeerMsg}
    (hmsg : msg.FromPeer torrent) (hcalm : msg.Calm) {owed : List RequestMsg} {choking : Bool}
    (howed : e.owed.Perm (msg.answers?.toList ++ owed))
    (hchoking : e.choking = true → choking = true ∨ msg = .unchoke) :
    ({ e.push torrent contents msg with owed := owed, choking := choking } : Exchange).Cordial
      torrent contents := by
  obtain ⟨client, choking₀, owed₀, taken⟩ := e
  cases client with
  | idle t disk log => exact cordial_idle h.kept (fun _ hs => by cases hs) _ _ _
  | connected s =>
      obtain ⟨hkept, incoming, outgoing, hledger, hattuned⟩ := cordial_connected.mp h
      exact cordial_connected.mpr
        ⟨hkept.sock _, _, _, hledger.pushed hmsg howed, hattuned.append hcalm hchoking _⟩

theorem Exchange.Cordial.unchoke (h : e.Cordial torrent contents) :
    (e.unchoke torrent contents).Cordial torrent contents ∧
      Progresses torrent e (e.unchoke torrent contents) .unchoke := by
  obtain ⟨client, choking, owed, taken⟩ := e
  cases client with
  | idle t disk log => exact ⟨h, .inl ⟨rfl, fun _ hs => by cases hs⟩⟩
  | connected s =>
      cases choking with
      | false =>
          refine ⟨h, .inl ⟨rfl, ?_⟩⟩
          rintro _ ⟨⟩
          rfl
      | true =>
          refine ⟨h.push (show PeerMsg.FromPeer torrent .unchoke from ⟨trivial, trivial⟩) trivial
            (List.Perm.refl _)
            fun _ => .inr rfl, .inr ⟨.inl ⟨_, rfl⟩, ?_⟩⟩
          have hlen : (peerWire torrent contents .unchoke).length = 5 :=
            length_wire (show PeerMsg.Streamed torrent .unchoke from trivial)
          simp only [Exchange.unchoke, if_true, Exchange.push, left_connected, Session.due,
            Session.left, List.length_append, hlen, Bool.false_eq_true, if_false]
          omega

/-- What a message of ours may oblige the peer to weighs less than the message. -/
theorem weight_wire {msg : PeerMsg} (h : msg.Streamed torrent) :
    16398 * msg.request?.toList.length < 1000 * (msg.wire torrent).length := by
  rw [length_wire h]
  cases msg with
  | request r => simp [PeerMsg.request?, PeerMsg.type, msgLength]
  | _ =>
      simp only [PeerMsg.request?, Option.toList_none, List.length_nil]
      omega

theorem Exchange.Cordial.read (h : e.Cordial torrent contents)
    (hdescribes : Describes torrent contents) :
    (e.read torrent).Cordial torrent contents ∧ Progresses torrent e (e.read torrent) .read := by
  obtain ⟨client, choking, owed, taken⟩ := e
  cases client with
  | idle t disk log => exact ⟨h, .inl ⟨rfl, fun _ hs => by cases hs⟩⟩
  | connected s =>
      obtain ⟨hkept, incoming, outgoing, hledger, hattuned⟩ := cordial_connected.mp h
      cases outgoing with
      | nil =>
          rw [read_nil rfl hledger]
          refine ⟨h, .inl ⟨rfl, ?_⟩⟩
          rintro _ ⟨⟩
          exact List.drop_eq_nil_iff.mp hledger.out
      | cons msg outgoing =>
          rw [read_cons hdescribes rfl hledger]
          dsimp only
          refine ⟨cordial_connected.mpr ⟨hkept, _, _, hledger.read, hattuned⟩,
            .inr ⟨.inl ⟨s, rfl⟩, ?_⟩⟩
          have hweight := weight_wire (hledger.toPeer msg List.mem_cons_self)
          rw [left_connected, left_connected, hledger.due, hledger.read.due, List.flatMap_cons,
            List.length_append, List.length_append]
          omega

theorem Exchange.Cordial.answer (h : e.Cordial torrent contents) (k : ℕ) :
    (e.answer torrent contents k).Cordial torrent contents ∧
      Progresses torrent e (e.answer torrent contents k) (.answer k) := by
  obtain ⟨client, choking, owed, taken⟩ := e
  cases client with
  | idle t disk log => exact ⟨h, .inl ⟨rfl, fun _ hs => by cases hs⟩⟩
  | connected s =>
      cases hr : owed[k]? with
      | none =>
          simp only [Exchange.answer, hr]
          refine ⟨h, .inl ⟨rfl, ?_⟩⟩
          rintro _ ⟨⟩
          exact hr
      | some r =>
          simp only [Exchange.answer, hr]
          obtain ⟨hkept, incoming, outgoing, hledger, -⟩ := cordial_connected.mp h
          obtain ⟨hk, rfl⟩ := List.getElem?_eq_some_iff.mp hr
          have hle := hledger.owed_le hkept (List.getElem_mem hk)
          have hfrom : PeerMsg.FromPeer torrent owed[k].answer := hle
          refine ⟨h.push hfrom trivial ?_ .inl, .inr ⟨.inl ⟨_, rfl⟩, ?_⟩⟩
          · have hanswers : owed[k].answer.answers? = some owed[k] := by
              simp [RequestMsg.answer, PeerMsg.answers?]
            rw [hanswers]
            exact (List.getElem_cons_eraseIdx_perm hk).symm
          · have hwirelen : (peerWire torrent contents owed[k].answer).length ≤ 16397 := by
              simp only [RequestMsg.answer, peerWire, blockWire, List.length_append,
                length_wordBytes, List.length_take, peerRequestSize] at hle ⊢
              simp
              omega
            simp only [Exchange.push, left_connected, Session.due, Session.left,
              List.length_append, List.length_eraseIdx_of_lt hk]
            omega

def ExchangeAct.Goes : ExchangeAct → Prop
  | .connect _ _ => False
  | .drop => False
  | .say _ => False
  | _ => True

/-- **A step of either end** has no effect, or brings the end nearer. -/
theorem exchangeStep_progresses (h : e.Cordial torrent contents)
    (hdescribes : Describes torrent contents) (hstorable : Storable torrent contents)
    {a : ExchangeAct} (ha : a.Goes) :
    ∃ e', exchangeStep torrent contents e a = .ok e' ∧ e'.Cordial torrent contents ∧
      Progresses torrent e e' a := by
  cases a with
  | connect recvs sends => exact ha.elim
  | drop => exact ha.elim
  | say msg => exact ha.elim
  | receive avail => exact h.receive hdescribes hstorable avail
  | round => exact h.round hdescribes
  | unchoke => exact ⟨_, rfl, h.unchoke⟩
  | read => exact ⟨_, rfl, h.read hdescribes⟩
  | answer k => exact ⟨_, rfl, h.answer k⟩

theorem exchangeStep_cordial (h : e.Cordial torrent contents)
    (hdescribes : Describes torrent contents) (hstorable : Storable torrent contents)
    {a : ExchangeAct} (ha : a.Calm torrent) :
    ∃ e', exchangeStep torrent contents e a = .ok e' ∧ e'.Cordial torrent contents := by
  by_cases hgoes : a.Goes
  · obtain ⟨e', heq, hcordial, -⟩ := exchangeStep_progresses h hdescribes hstorable hgoes
    exact ⟨e', heq, hcordial⟩
  obtain ⟨client, choking, owed, taken⟩ := e
  cases a with
  | connect recvs sends =>
      rw [exchangeStep, Exchange.connect]
      cases client with
      | connected s => exact ⟨_, rfl, h⟩
      | idle t disk log =>
          obtain ⟨s, heq, hkept, hledger, hlocal, hasked, -, hhave⟩ :=
            connectionStart_ledger h.kept rfl recvs sends
          refine ⟨⟨.connected s, true, [], 0⟩, ?_,
            cordial_connected.mpr ⟨hkept, _, _, hledger, hasked, fun _ => .inl rfl, ?_⟩⟩
          · simp only [heq, ok_bind]
          · have hnonempty := hdescribes.nonempty
            refine .begins [] ?_ ?_ fun _ hm => absurd hm List.not_mem_nil
            · rw [hlocal]
            · rw [hhave, List.mem_replicate]
              exact ⟨by omega, rfl⟩
  | drop =>
      rw [exchangeStep, Exchange.proceed]
      cases client with
      | idle t disk log => exact ⟨_, rfl, h⟩
      | connected s =>
          exact ⟨_, rfl,
            cordial_idle (cordial_connected.mp h).1.hangUp (fun _ hs => by cases hs) _ _ _⟩
  | say msg =>
      have hmsg : msg.type ≠ .msgPiece := by
        intro htype
        cases msg with
        | piece piece => exact ha.1.elim
        | _ => cases htype
      refine ⟨_, rfl, ?_⟩
      have howed : owed.Perm (msg.answers?.toList ++ owed) := by
        rw [answers?_of_ne hmsg]
        exact List.Perm.refl _
      have hpush := h.push ((fromPeer_of_ne hmsg).mpr ⟨ha.1, ha.2.1⟩) ha.2.2 howed
        (show choking = true → choking = true ∨ msg = .unchoke from .inl)
      cases client with
      | idle t disk log => exact hpush
      | connected s => exact hpush
  | _ => exact absurd trivial hgoes

/-! ### The end -/

/-- What has to be done again and again: the thread sees all that has arrived by some
time, and goes around its loop; the peer unchokes us, reads, and answers. -/
inductive Turn
  | receive (avail : ℕ)
  | round
  | unchoke
  | read
  | answer

def Turn.DoneBy : Turn → ExchangeAct → Prop
  | .receive avail, a => ∃ avail' ≥ avail, a = .receive avail'
  | .round, a => a = .round
  | .unchoke, a => a = .unchoke
  | .read, a => a = .read
  | .answer, a => a = .answer 0

theorem Turn.DoneBy.goes {turn : Turn} {a : ExchangeAct} (h : turn.DoneBy a) : a.Goes := by
  cases turn with
  | receive avail =>
      obtain ⟨avail', -, rfl⟩ := h
      trivial
  | _ =>
      obtain rfl : a = _ := h
      trivial

/-- **While there is a connection, something can be done.** -/
theorem Exchange.Cordial.not_stuck (h : e.Cordial torrent contents)
    (hdescribes : Describes torrent contents) {s : Session} (hs : e.client = .connected s)
    (hstuck : ∀ turn : Turn, ∃ a, turn.DoneBy a ∧ e.Stuck s a) : False := by
  obtain ⟨client, choking, owed, taken⟩ := e
  obtain rfl : client = .connected s := hs
  obtain ⟨hkept, incoming, outgoing, hledger, hattuned⟩ := cordial_connected.mp h
  obtain ⟨_, ⟨avail, havail, rfl⟩, hreceive⟩ := hstuck (.receive s.sock.inp.length)
  obtain ⟨_, rfl, hgoing, hrests⟩ := hstuck .round
  obtain ⟨_, rfl, hchoking⟩ := hstuck .unchoke
  obtain ⟨_, rfl, hread⟩ := hstuck .read
  obtain ⟨_, rfl, hanswer⟩ := hstuck .answer
  simp only [Exchange.Stuck] at hreceive hgoing hrests hchoking hread hanswer
  -- nothing is under way
  have hincoming : incoming = [] := by
    cases incoming with
    | nil => rfl
    | cons msg rest =>
        obtain ⟨len, payload, -, -, hwire⟩ := peerWire_length contents
          (hledger.fromPeer msg List.mem_cons_self)
        have hinp := congrArg List.length hledger.inp
        rw [hreceive.resolve_right (Nat.not_lt.mpr havail), List.flatMap_cons, List.length_append,
          hwire, List.length_append, length_wordBytes, List.length_nil] at hinp
        omega
  have houtgoing : outgoing = [] := by
    cases outgoing with
    | nil => rfl
    | cons msg rest =>
        have hout := congrArg List.length hledger.out
        rw [List.length_drop, List.flatMap_cons, List.length_append,
          length_wire (hledger.toPeer msg List.mem_cons_self)] at hout
        omega
  have howed : owed = [] := List.isEmpty_iff.mp (by simpa using hanswer)
  subst hincoming houtgoing howed
  -- so nothing is awaited, and nothing requested
  have hnone : s.state.localRequests = [] := by
    rw [List.eq_nil_iff_forall_not_mem]
    intro r hr
    refine hkept.awaits r hr (List.eq_nil_iff_forall_not_mem.mpr fun ticket hticket => ?_)
    exact List.not_mem_nil (hledger.tickets.symm.subset (List.mem_flatMap.mpr ⟨r, hr, hticket⟩))
  have hchoked : s.state.localState.choked = false := by
    by_contra hchoked
    rcases hattuned.unchoked (by simpa using hchoked) with h | h
    · cases hchoking.symm.trans h
    · exact List.not_mem_nil h
  -- and we are interested, unless the download is complete
  cases hattuned.knows with
  | goes _ _ _ hinterested =>
      rcases hinterested with hinterested | hwhole
      · simp [hchoked, hinterested, hnone] at hrests
      · have hpieces : s.torrent.pieces = torrent.pieces := hkept.pieces
        have hcompleted := hwhole.completed hkept.accounted
          (by rw [hpieces]; exact hdescribes.nonempty)
        cases hgoing.symm.trans hcompleted

end

def roundRobin (k : ℕ) : ExchangeAct :=
  match k % 5 with
  | 0 => .receive k
  | 1 => .round
  | 2 => .unchoke
  | 3 => .read
  | _ => .answer 0

theorem fair_roundRobin : Fair Turn.DoneBy roundRobin := by
  intro turn k
  cases turn with
  | receive avail =>
      refine ⟨5 * (k + avail), by omega, 5 * (k + avail), by omega, ?_⟩
      rw [roundRobin, Nat.mul_mod_right]
      rfl
  | round => exact ⟨5 * k + 1, by omega, by rw [roundRobin, Nat.mul_add_mod]; rfl⟩
  | unchoke => exact ⟨5 * k + 2, by omega, by rw [roundRobin, Nat.mul_add_mod]; rfl⟩
  | read => exact ⟨5 * k + 3, by omega, by rw [roundRobin, Nat.mul_add_mod]; rfl⟩
  | answer => exact ⟨5 * k + 4, by omega, by rw [roundRobin, Nat.mul_add_mod]; rfl⟩

theorem goes_roundRobin (k : ℕ) : (roundRobin k).Goes := by
  rw [roundRobin]
  split <;> trivial

end Daobell
