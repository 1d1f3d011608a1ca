import Daobell.Peer.Socket
import Daobell.Torrent.InfoSpec

/-!
The handshake of a connection. Each side sends its `info_hash` and its peer ID
behind a fixed header. The header that is received is checked and the rest is
handed to the caller, which does not compare the hash with its own.
-/

namespace Daobell

def pstr : Bytes := bytesOf "BitTorrent protocol"

def peerSendHandshake (localPeerId : Bytes) (sock : Socket) (infoHash : Bytes) :
    Except Crash (Bool × Socket) :=
  peerSendBuff sock ([19] ++ pstr ++ List.replicate 8 0 ++ infoHash.take 20 ++ localPeerId.take 20)

/-- `peer_recv_handshake`: `out_info_hash` and `out_peer_id`, which is not written
unless `peerId` is set, or `none` where it returns -1. -/
def peerRecvHandshake (sock : Socket) (peerId : Bool) : Option (Bytes × Option Bytes) × Socket :=
  let bufflen := 1 + 19 + 8 + 20 + if peerId then 20 else 0
  let (ok, buff, sock) := peerRecvBuff sock bufflen
  if ¬ ok then (none, sock)
  else if buff.headD 0 ≠ 19 then (none, sock)
  else if ¬ strncmpEq (buff.drop 1) pstr 19 then (none, sock)
  else (some ((buff.drop 28).take 20, if peerId then some ((buff.drop 48).take 20) else none), sock)

/-- What `handshake` gives its caller when it returns 0. -/
structure Shaken where
  torrent : Option TorrentInfo
  infoHash : Bytes
  peerId : Bytes
  deriving DecidableEq

/-- `handshake`, with the torrent of its `peer_arg` where this has one; `none` where
it returns -1. The buffers of the caller are filled with zeros. -/
def handshake (localPeerId : Bytes) (sock : Socket) (torrent : Option TorrentInfo) :
    Except Crash (Option Shaken × Socket) :=
  let zeros := List.replicate 20 0
  match torrent with
  | none => .ok (some ⟨none, zeros, zeros⟩, sock)
  | some torrent =>
      peerSendHandshake localPeerId sock torrent.infoHash >>= fun r =>
      if ¬ r.1 then .ok (none, r.2)
      else
        let (received, sock) := peerRecvHandshake r.2 true
        .ok (received.map fun h => ⟨some torrent, h.1, h.2.getD zeros⟩, sock)

/-! ### What is accepted -/

def handshakeWire (reserved infoHash peerId : Bytes) : Bytes :=
  [19] ++ pstr ++ reserved ++ infoHash ++ peerId

/-- The stream begins with a handshake for a torrent with this hash. -/
def OpensWith (infoHash inp : Bytes) : Prop :=
  ∃ reserved peerId rest, inp = handshakeWire reserved infoHash peerId ++ rest ∧
    reserved.length = 8 ∧ infoHash.length = 20 ∧ peerId.length = 20

/-- The handshake is accepted as it should be on the stream `inp`: just when the
stream begins with one for the torrent, and then with the peer ID of it. -/
def AcceptsRightly (localPeerId : Bytes) (torrent : TorrentInfo) (inp : Bytes) : Prop :=
  ∀ sock : Socket, sock.inp = inp → sock.RecvReliable → sock.SendReliable →
    ∃ shaken sock', handshake localPeerId sock (some torrent) = .ok (shaken, sock') ∧
      (shaken.isSome ↔ OpensWith torrent.infoHash inp) ∧
      ∀ reserved peerId rest, inp = handshakeWire reserved torrent.infoHash peerId ++ rest →
        reserved.length = 8 → torrent.infoHash.length = 20 → peerId.length = 20 →
          ∃ h ∈ shaken, h.torrent = some torrent ∧ h.peerId = peerId

theorem length_pstr : pstr.length = 19 := rfl

theorem zero_notMem_pstr : (0 : UInt8) ∉ pstr := by decide

/-- What the checks come to on a stream that does not fail. -/
theorem peerRecvHandshake_reliable {sock : Socket} (hrel : sock.RecvReliable) :
    (peerRecvHandshake sock true).1 =
      if 68 ≤ sock.inp.length ∧ [19] ++ pstr <+: sock.inp then
        some ((sock.inp.drop 28).take 20, some ((sock.inp.drop 48).take 20))
      else none := by
  obtain ⟨hok, hbytes, -⟩ := peerRecvBuff_reliable hrel (show 0 < 68 by decide) (by decide)
  have h68 : 1 + 19 + 8 + 20 + 20 = 68 := rfl
  simp only [peerRecvHandshake, if_true, h68, hok, hbytes, decide_eq_true_eq]
  by_cases hlen : 68 ≤ sock.inp.length
  swap
  · rw [if_pos (by simpa using hlen), if_neg fun h => hlen h.1]
  obtain ⟨b, inp, hinp⟩ := List.exists_cons_of_length_pos (show 0 < sock.inp.length by omega)
  have hhead : [19] ++ pstr <+: sock.inp ↔ b = 19 ∧ pstr <+: (sock.inp.take 68).drop 1 := by
    have hle : pstr.length ≤ 67 := by decide
    rw [hinp, List.singleton_append, List.cons_prefix_cons, eq_comm, List.take_succ_cons,
      List.drop_succ_cons, List.drop_zero, List.prefix_take_iff]
    exact and_congr_right fun _ => (and_iff_left hle).symm
  have hb : (sock.inp.take 68).headD 0 = b := by rw [hinp]; rfl
  have hhash : ((sock.inp.take 68).drop 28).take 20 = (sock.inp.drop 28).take 20 := by
    rw [List.drop_take, List.take_take, Nat.min_eq_left (by decide)]
  have hpeer : ((sock.inp.take 68).drop 48).take 20 = (sock.inp.drop 48).take 20 := by
    rw [List.drop_take, List.take_take, Nat.min_eq_left (by decide)]
  have hcmp : strncmpEq ((sock.inp.take 68).drop 1) pstr 19 = true ↔
      pstr <+: (sock.inp.take 68).drop 1 := strncmpEq_iff zero_notMem_pstr
  simp only [not_true_eq_false, if_false, hb, hhash, hpeer, hhead, hcmp, hlen, true_and]
  by_cases h19 : b = 19 <;> by_cases hpstr : pstr <+: (sock.inp.take 68).drop 1 <;>
    simp only [h19, hpstr, ne_eq, not_true_eq_false, not_false_eq_true, true_and, false_and,
      if_true, if_false]

theorem fields_of_opensWith {inp reserved infoHash peerId rest : Bytes}
    (hinp : inp = handshakeWire reserved infoHash peerId ++ rest) (hreserved : reserved.length = 8)
    (hhash : infoHash.length = 20) (hpeer : peerId.length = 20) :
    68 ≤ inp.length ∧ [19] ++ pstr <+: inp ∧ (inp.drop 28).take 20 = infoHash ∧
      (inp.drop 48).take 20 = peerId := by
  have hlen := length_pstr
  subst hinp
  refine ⟨?_, ?_, ?_, ?_⟩
  · simp only [handshakeWire, List.length_append, List.length_singleton, hlen, hreserved, hhash,
      hpeer]
    omega
  · simp [handshakeWire]
  · have hsplit : handshakeWire reserved infoHash peerId ++ rest =
        ([19] ++ pstr ++ reserved) ++ (infoHash ++ (peerId ++ rest)) := by
      simp [handshakeWire]
    rw [hsplit, List.drop_left' (by simp [hlen, hreserved]), List.take_left' hhash]
  · have hsplit : handshakeWire reserved infoHash peerId ++ rest =
        ([19] ++ pstr ++ reserved ++ infoHash) ++ (peerId ++ rest) := by
      simp [handshakeWire]
    rw [hsplit, List.drop_left' (by simp [hlen, hreserved, hhash]), List.take_left' hpeer]

/-- A stream that passes the checks begins with a handshake. -/
theorem opensWith_of_prefix {inp : Bytes} (hlen : 68 ≤ inp.length)
    (hhead : [19] ++ pstr <+: inp) : OpensWith ((inp.drop 28).take 20) inp := by
  refine ⟨(inp.drop 20).take 8, (inp.drop 48).take 20, inp.drop 68, ?_, ?_, ?_, ?_⟩
  · have htake : [19] ++ pstr = inp.take 20 := List.prefix_iff_eq_take.mp hhead
    rw [handshakeWire, htake, List.append_assoc, List.append_assoc, List.append_assoc]
    have hsplit : ∀ m n, inp.drop m = (inp.drop m).take n ++ inp.drop (m + n) := by
      intro m n
      rw [← List.drop_drop, List.take_append_drop]
    rw [← hsplit 48 20, ← hsplit 28 20, ← hsplit 20 8, List.take_append_drop]
  · rw [List.length_take, List.length_drop]
    omega
  · rw [List.length_take, List.length_drop]
    omega
  · rw [List.length_take, List.length_drop]
    omega

theorem opensWith_unique {hash hash' inp : Bytes} (h : OpensWith hash inp)
    (h' : OpensWith hash' inp) : hash = hash' := by
  obtain ⟨_, _, _, hinp, hreserved, hhash, hpeer⟩ := h
  obtain ⟨_, _, _, hinp', hreserved', hhash', hpeer'⟩ := h'
  rw [← (fields_of_opensWith hinp hreserved hhash hpeer).2.2.1,
    (fields_of_opensWith hinp' hreserved' hhash' hpeer').2.2.1]

theorem handshake_reliable (localPeerId : Bytes) (torrent : TorrentInfo) {sock : Socket}
    (hrecv : sock.RecvReliable) (hsend : sock.SendReliable) :
    ∃ sock', handshake localPeerId sock (some torrent) =
      .ok (if 68 ≤ sock.inp.length ∧ [19] ++ pstr <+: sock.inp then
          some ⟨some torrent, (sock.inp.drop 28).take 20, (sock.inp.drop 48).take 20⟩
        else none, sock') := by
  have hlen : ([19] ++ pstr ++ List.replicate 8 0 ++ torrent.infoHash.take 20 ++
      localPeerId.take 20).length < 2 ^ 32 := by
    simp only [List.length_append, List.length_singleton, length_pstr, List.length_replicate,
      List.length_take]
    omega
  obtain ⟨ok, s, sent, heq, hstep, -, hok⟩ := peerSendBuff_spec sock hlen
  obtain rfl := hok hsend
  have hinp : s.inp = sock.inp := hstep.inp
  have hrel : s.RecvReliable := by
    rw [Socket.RecvReliable, hstep.recvs]
    exact hrecv
  refine ⟨(peerRecvHandshake s true).2, ?_⟩
  have hreceived := peerRecvHandshake_reliable hrel
  rw [hinp] at hreceived
  simp only [handshake, peerSendHandshake, heq, ok_bind, not_true_eq_false, if_false, hreceived]
  split <;> rfl

/-- **Which handshakes are accepted.** It is the right ones, on every stream but
those that begin with a handshake for another torrent. -/
theorem handshake_acceptsRightly_iff (localPeerId : Bytes) (torrent : TorrentInfo)
    (inp : Bytes) :
    AcceptsRightly localPeerId torrent inp ↔
      ∀ hash, OpensWith hash inp → hash = torrent.infoHash := by
  constructor
  · intro h hash hopens
    obtain ⟨_, _, _, hinp, hreserved, hhash, hpeer⟩ := hopens
    obtain ⟨hlen, hhead, hfield, -⟩ := fields_of_opensWith hinp hreserved hhash hpeer
    have hrecv : (⟨inp, [], [], []⟩ : Socket).RecvReliable := by simp [Socket.RecvReliable]
    have hsend : (⟨inp, [], [], []⟩ : Socket).SendReliable := by simp [Socket.SendReliable]
    obtain ⟨shaken, sock', heq, hiff, -⟩ := h ⟨inp, [], [], []⟩ rfl hrecv hsend
    obtain ⟨s, heq'⟩ := handshake_reliable localPeerId torrent hrecv hsend
    rw [heq', if_pos ⟨hlen, hhead⟩] at heq
    cases heq
    exact opensWith_unique ⟨_, _, _, hinp, hreserved, hhash, hpeer⟩ (hiff.mp rfl)
  · rintro h sock rfl hrecv hsend
    obtain ⟨s, heq⟩ := handshake_reliable localPeerId torrent hrecv hsend
    refine ⟨_, s, heq, ?_, fun reserved peerId rest hinp hreserved hhash hpeer => ?_⟩
    · constructor
      · intro hsome
        split at hsome
        · rename_i hchecks
          have hopens := opensWith_of_prefix hchecks.1 hchecks.2
          rwa [h _ hopens] at hopens
        · cases hsome
      · rintro ⟨_, _, _, hinp, hreserved, hhash, hpeer⟩
        obtain ⟨hlen, hhead, -⟩ := fields_of_opensWith hinp hreserved hhash hpeer
        rw [if_pos ⟨hlen, hhead⟩]
        rfl
    · obtain ⟨hlen, hhead, -, hfield⟩ := fields_of_opensWith hinp hreserved hhash hpeer
      rw [if_pos ⟨hlen, hhead⟩]
      exact ⟨_, rfl, rfl, hfield⟩

def strangerWire : Bytes :=
  handshakeWire (List.replicate 8 0) (List.replicate 20 1) (List.replicate 20 2)

/-- Its hash is not compared with the one of the torrent. -/
theorem stranger_accepted :
    torrentInit quietEnvironment twoPiecesMetainfo [] = .ok twoPieces ∧
      ¬ AcceptsRightly (List.replicate 20 3) twoPieces strangerWire := by
  refine ⟨torrentInit_twoPieces, fun h => ?_⟩
  have hrecv : (⟨strangerWire, [], [], []⟩ : Socket).RecvReliable := by simp [Socket.RecvReliable]
  have hsend : (⟨strangerWire, [], [], []⟩ : Socket).SendReliable := by simp [Socket.SendReliable]
  obtain ⟨shaken, sock', heq, hiff, -⟩ := h ⟨strangerWire, [], [], []⟩ rfl hrecv hsend
  have haccepted : (handshake (List.replicate 20 3) ⟨strangerWire, [], [], []⟩ (some twoPieces)).map
      (fun r => r.1.isSome) = .ok true := by
    decide +kernel
  rw [heq, Except.map, Except.ok.injEq] at haccepted
  have hopens : OpensWith (List.replicate 20 1) strangerWire :=
    ⟨List.replicate 8 0, List.replicate 20 2, [], rfl, rfl, rfl, rfl⟩
  have hhash : twoPieces.infoHash ≠ List.replicate 20 1 := by decide +kernel
  exact hhash (opensWith_unique (hiff.mp haccepted) hopens)

end Daobell
