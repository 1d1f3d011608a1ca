import Daobell.Peer.Message

/-!
A stream of messages: what the sender emits the receiver takes apart into the
same messages. `wire` is the byte string of a message; the sender puts it on
the stream and the receiver, finding it at the head of the stream, takes
exactly it. PIECE messages, whose payload is on disk, are not among these, nor
is CANCEL, which the sender does not support.
-/

namespace Daobell

open Lib

/-! ### Sending -/

/-- A call that puts `bytes` on the stream when it returns 0. Unless the socket
fails it, it returns 0 exactly when `P` holds. -/
def Sends (P : Prop) (r : Except Crash (Bool × Socket)) (sock : Socket) (bytes : Bytes) : Prop :=
  ∃ ok sock' sent, r = .ok (ok, sock') ∧ SendStep sock sock' sent ∧
    (ok = true → P ∧ sent = bytes) ∧ (sock.SendReliable → P → ok = true)

theorem sends_nothing (sock : Socket) : Sends True (.ok (true, sock)) sock [] :=
  ⟨true, sock, [], rfl, SendStep.refl sock, fun _ => ⟨trivial, rfl⟩, fun _ _ => rfl⟩

theorem sends_buff (sock : Socket) {bytes : Bytes} (h : bytes.length < 2 ^ 32) :
    Sends True (peerSendBuff sock bytes) sock bytes := by
  obtain ⟨ok, sock', sent, heq, hstep, hok, hrel⟩ := peerSendBuff_spec sock h
  exact ⟨ok, sock', sent, heq, hstep, fun h => ⟨trivial, hok h⟩, fun h _ => hrel h⟩

theorem sends_word (sock : Socket) (word : UInt32) :
    Sends True (peerSendBuff sock (wordBytes word)) sock (wordBytes word) :=
  sends_buff sock (by rw [length_wordBytes]; decide)

/-- One call after the other: the bytes of both, when both return 0. -/
theorem Sends.andThen {P Q : Prop} {r : Except Crash (Bool × Socket)} {sock : Socket}
    {a b : Bytes} {next : Socket → Except Crash (Bool × Socket)} (h : Sends P r sock a)
    (hnext : ∀ s, Sends Q (next s) s b) :
    Sends (P ∧ Q) (Daobell.sendThen r next) sock (a ++ b) := by
  obtain ⟨ok, mid, sent, heq, hstep, hok, hrel⟩ := h
  obtain ⟨ok', sock', sent', heq', hstep', hok', hrel'⟩ := hnext mid
  rw [heq, Daobell.sendThen, ok_bind]
  cases ok with
  | false => exact ⟨false, mid, sent, rfl, hstep, by simp, fun h hPQ => hrel h hPQ.1⟩
  | true =>
      refine ⟨ok', sock', sent ++ sent', heq', hstep.trans hstep', ?_,
        fun h hPQ => hrel' (hstep.reliable h) hPQ.2⟩
      intro h
      exact ⟨⟨(hok rfl).1, (hok' h).1⟩, by rw [(hok rfl).2, (hok' h).2]⟩

theorem Sends.sendThen {P : Prop} {r : Except Crash (Bool × Socket)} {sock : Socket} {a b : Bytes}
    {next : Socket → Except Crash (Bool × Socket)} (h : Sends True r sock a)
    (hnext : ∀ s, Sends P (next s) s b) : Sends P (sendThen r next) sock (a ++ b) := by
  have h := h.andThen hnext
  rwa [true_and] at h

def PeerMsg.payload : PeerMsg → Bytes
  | .haveMsg index => wordBytes index
  | .bitfield bits => bitfieldLoop 0 bits (List.replicate (bitfieldNumBytes bits.length) 0)
  | .request msg => wordBytes msg.index ++ (wordBytes msg.begin ++ wordBytes msg.length)
  | .port listenPort => wordBytes listenPort
  | _ => []

theorem peerMsgSendBitfield_sends (sock : Socket) {bits : List Bool} (h : bits.length < 2 ^ 32) :
    Sends True (peerMsgSendBitfield sock bits) sock (PeerMsg.bitfield bits).payload := by
  have heq : peerMsgSendBitfield sock bits =
      peerSendBuff sock (PeerMsg.bitfield bits).payload := if_neg (Nat.not_le.mpr h)
  rw [heq]
  refine sends_buff sock ?_
  rw [PeerMsg.payload, length_bitfieldLoop, List.length_replicate, bitfieldNumBytes_eq]
  omega

def PeerMsg.wire (torrent : TorrentInfo) (msg : PeerMsg) : Bytes :=
  wordBytes (UInt32.ofNat (msgLength msg.type torrent)) ++
    if msg = .keepalive then [] else [msg.type.toByte] ++ msg.payload

/-- The messages that carry their payload with them, bit fields with one bit
for every piece. -/
def PeerMsg.Streamed (torrent : TorrentInfo) : PeerMsg → Prop
  | .bitfield bits => bits.length = torrent.pieces.length
  | .piece _ => False
  | .cancel => False
  | _ => True

theorem peerMsgSend_sends (sock : Socket) (torrent : TorrentInfo) (disk : Disk) {msg : PeerMsg}
    (h : msg.Streamed torrent) :
    Sends True (peerMsgSend sock torrent disk msg) sock (msg.wire torrent) := by
  have hpayload : ∀ s, Sends True (peerMsgSendPayload s torrent disk msg) s msg.payload := by
    intro s
    cases msg with
    | piece _ => exact h.elim
    | cancel => exact h.elim
    | bitfield bits =>
        refine peerMsgSendBitfield_sends s ?_
        have hle := torrent.pieces_le
        rw [PeerMsg.Streamed] at h
        omega
    | request msg =>
        exact (sends_word s _).sendThen fun s => (sends_word s _).sendThen fun s => sends_word s _
    | haveMsg index => exact sends_word s _
    | port listenPort => exact sends_word s _
    | _ => exact sends_nothing s
  rw [peerMsgSend, PeerMsg.wire]
  refine (sends_word sock _).sendThen fun s => ?_
  by_cases hkeep : msg = .keepalive
  · rw [if_pos hkeep, if_pos hkeep]
    exact sends_nothing s
  · rw [if_neg hkeep, if_neg hkeep]
    exact (sends_buff s (by simp)).sendThen hpayload

/-! ### Receiving -/

/-- A call that receives either fails, or goes on with the bytes at the head of
the stream. -/
theorem recvThen_cases (sock : Socket) (disk : Disk) (len : ℕ)
    (next : Bytes → Socket → Except Crash Received) :
    (∃ sock', recvThen sock disk len next = .ok (none, sock', disk)) ∨
      ∃ bytes sock', bytes.length = len ∧ sock.inp = bytes ++ sock'.inp ∧
        recvThen sock disk len next = next bytes sock' := by
  obtain ⟨hstep, hlen⟩ := peerRecvBuff_spec sock len
  simp only [recvThen]
  by_cases hok : (peerRecvBuff sock len).1 = true
  · exact .inr ⟨_, _, (hlen hok).2, hstep.inp, if_pos hok⟩
  · exact .inl ⟨_, if_neg hok⟩

/-- A call that receives finds what it asks for at the head of the stream. -/
theorem recvThen_append {sock : Socket} (h : sock.RecvReliable) {bytes rest : Bytes}
    (hinp : sock.inp = bytes ++ rest) (hne : bytes ≠ []) (hlen : bytes.length < 2 ^ 32) (disk : Disk)
    (next : Bytes → Socket → Except Crash Received) :
    ∃ sock', RecvStep sock sock' bytes ∧ sock'.inp = rest ∧
      recvThen sock disk bytes.length next = next bytes sock' := by
  have hstep := (peerRecvBuff_spec sock bytes.length).1
  obtain ⟨hok, hbytes, hrest⟩ := peerRecvBuff_reliable h (List.length_pos_iff.mpr hne) hlen
  have htake : sock.inp.take bytes.length = bytes := by rw [hinp, List.take_left']; rfl
  rw [hinp, List.drop_left' rfl] at hrest
  rw [htake] at hbytes
  rw [hbytes] at hstep
  refine ⟨(peerRecvBuff sock bytes.length).2.2, hstep, hrest, ?_⟩
  have hle : bytes.length ≤ sock.inp.length := by simp [hinp]
  simp only [recvThen, hok, hle, decide_true, if_true, hbytes]

/-- On a stream that does not fail, a call that receives goes on when there is
enough. -/
theorem recvThen_reliable {sock : Socket} (h : sock.RecvReliable) (disk : Disk) {len : ℕ}
    (hlen : 0 < len) (hlen32 : len < 2 ^ 32) (hle : len ≤ sock.inp.length)
    (next : Bytes → Socket → Except Crash Received) :
    ∃ sock', sock'.RecvReliable ∧ sock'.inp = sock.inp.drop len ∧
      recvThen sock disk len next = next (sock.inp.take len) sock' := by
  have hstep := (peerRecvBuff_spec sock len).1
  obtain ⟨hok, hbytes, hrest⟩ := peerRecvBuff_reliable h hlen hlen32
  refine ⟨(peerRecvBuff sock len).2.2, hstep.reliable h, hrest, ?_⟩
  simp only [recvThen, hok, hbytes, hle, decide_true, if_true]

section

-- a property of calls that the ways of ending a call have, and that receiving
-- and going on keeps
variable {C : (Socket → Except Crash Received) → Prop} (torrent : TorrentInfo) (disk : Disk)
  (hok : ∀ msg, C fun sock => .ok (msg, sock, disk)) (herror : C fun _ => .error .assertFailed)
  (hrecv : ∀ {len : ℕ} {next : Bytes → Socket → Except Crash Received}, len < 2 ^ 32 →
    (∀ bytes, C (next bytes)) → C fun sock => recvThen sock disk len next)
  (hblock : ∀ index begin left, C fun sock => peerMsgRecvBlock sock torrent disk index begin left)

include herror in
theorem assertThen_closed {p : Prop} [Decidable p] {next : Socket → Except Crash Received}
    (h : C next) : C fun sock => assertThen p (next sock) := by
  by_cases hp : p
  · simpa only [assertThen, if_pos hp] using h
  · simpa only [assertThen, if_neg hp] using herror

include hok herror hrecv hblock

theorem peerMsgRecvPayload_closed (type : MsgType) {left : ℕ} (hleft : left < 2 ^ 32) :
    C fun sock => peerMsgRecvPayload sock torrent disk type left := by
  simp only [peerMsgRecvPayload]
  cases type with
  | msgPiece =>
      exact assertThen_closed herror (hrecv (by decide) fun b₀ => hrecv (by decide) fun b₁ =>
        hblock _ _ _)
  | msgBitfield => exact hrecv hleft fun buff => hok _
  | msgRequest => exact hrecv hleft fun buff => assertThen_closed herror (hok _)
  | msgHave => exact assertThen_closed herror (hrecv hleft fun buff => hok _)
  | msgPort => exact assertThen_closed herror (hrecv hleft fun buff => hok _)
  | msgCancel => exact herror
  | msgKeepalive => exact hok _
  | _ => exact assertThen_closed herror (hok _)

theorem peerMsgRecvPastlen_closed {len : ℕ} (hlen : len < 2 ^ 32) :
    C fun sock => peerMsgRecvPastlen sock torrent disk len := by
  simp only [peerMsgRecvPastlen]
  split
  · exact hok _
  refine hrecv (by decide) fun b => ?_
  simp only [peerMsgRecvTyped]
  split
  · exact hok _
  split
  · exact peerMsgRecvPayload_closed torrent disk hok herror hrecv hblock _ (by omega)
  · exact hok _

/-- **The shape of the receiver.** It ends, or it receives some bytes and goes on,
or it comes to the block of a PIECE message. -/
theorem peerMsgRecv_closed : C fun sock => peerMsgRecv sock torrent disk :=
  hrecv (by decide) fun b =>
    peerMsgRecvPastlen_closed torrent disk hok herror hrecv hblock (wordAt b).toNat_lt

end

/-- A call that does no more to its socket than to take bytes off the stream. -/
def OnlyReceives (call : Socket → Except Crash Received) : Prop :=
  ∀ sock r, call sock = .ok r → ∃ bytes, RecvStep sock r.2.1 bytes

theorem onlyReceives_ok (msg : Option PeerMsg) (disk : Disk) :
    OnlyReceives fun sock => .ok (msg, sock, disk) := by
  rintro sock r ⟨⟩
  exact ⟨[], RecvStep.refl sock⟩

theorem OnlyReceives.recvThen {len : ℕ} {disk : Disk}
    {next : Bytes → Socket → Except Crash Received} (h : ∀ bytes, OnlyReceives (next bytes)) :
    OnlyReceives fun sock => recvThen sock disk len next := by
  intro sock r hr
  have hstep := (peerRecvBuff_spec sock len).1
  simp only [Daobell.recvThen] at hr
  split at hr
  · obtain ⟨bytes, hstep'⟩ := h _ _ _ hr
    exact ⟨_, hstep.trans hstep'⟩
  · cases hr
    exact ⟨_, hstep⟩

theorem recvMems_onlyReceives (torrent : TorrentInfo) (mems : List FileMem) (sock : Socket)
    (disk : Disk) : ∃ bytes, RecvStep sock (recvMems torrent mems sock disk).1 bytes := by
  induction mems generalizing sock disk with
  | nil => exact ⟨[], RecvStep.refl sock⟩
  | cons mem mems ih =>
      rw [recvMems]
      split
      · obtain ⟨bytes, hstep⟩ := ih (peerRecvBuff sock mem.size).2.2
          (scatter torrent.place disk mem.positions (peerRecvBuff sock mem.size).2.1)
        exact ⟨_, (peerRecvBuff_spec sock mem.size).1.trans hstep⟩
      · exact ih sock disk

theorem peerMsgRecv_onlyReceives (torrent : TorrentInfo) (disk : Disk) :
    OnlyReceives fun sock => peerMsgRecv sock torrent disk := by
  refine peerMsgRecv_closed torrent disk (onlyReceives_ok · disk) (fun _ _ hr => by cases hr)
    (fun _ h => OnlyReceives.recvThen h) fun index begin left sock r hr => ?_
  simp only [peerMsgRecvBlock] at hr
  split at hr
  · cases hr
  · cases hr
    exact recvMems_onlyReceives torrent _ sock disk

/-- The message a receiver makes of `msg`: the same, except that a bit field
comes with the spare bits of its last byte, which are zero. -/
def Echo (torrent : TorrentInfo) (sent received : PeerMsg) : Prop :=
  match sent with
  | .bitfield bits => ∃ bits', received = .bitfield bits' ∧
      bits'.length = 8 * ((torrent.pieces.length + 7) / 8) ∧
      bits'.take torrent.pieces.length = bits ∧
      ∀ b ∈ bits'.drop torrent.pieces.length, b = false
  | _ => received = sent

theorem msgLength_lt (type : MsgType) (torrent : TorrentInfo) :
    msgLength type torrent < 2 ^ 32 := by
  cases type <;> simp only [msgLength, peerRequestSize] <;> omega

theorem msgLength_bitfield (torrent : TorrentInfo) :
    msgLength .msgBitfield torrent = 1 + bitfieldNumBytes torrent.pieces.length := by
  have hle := torrent.pieces_le
  rw [msgLength, bitfieldNumBytes_eq]
  exact Nat.mod_eq_of_lt (by omega)

theorem msgLength_pos {type : MsgType} (h : type ≠ .msgKeepalive) (torrent : TorrentInfo) :
    0 < msgLength type torrent := by
  cases type with
  | msgKeepalive => exact absurd rfl h
  | msgBitfield =>
      rw [msgLength_bitfield]
      omega
  | _ => simp [msgLength]

theorem type_eq_keepalive {msg : PeerMsg} : msg.type = .msgKeepalive ↔ msg = .keepalive := by
  cases msg <;> simp [PeerMsg.type]

/-- A call that, on a working stream with `bytes` at its head, takes exactly
these, returns a message that `P` holds of, and leaves `disk` behind. -/
def Receives (r : Socket → Except Crash Received) (bytes : Bytes) (disk : Disk)
    (P : PeerMsg → Prop) : Prop :=
  ∀ sock rest, sock.RecvReliable → sock.inp = bytes ++ rest →
    ∃ msg sock', r sock = .ok (some msg, sock', disk) ∧ P msg ∧ RecvStep sock sock' bytes ∧
      sock'.inp = rest

theorem receives_done {msg : PeerMsg} {disk : Disk} {P : PeerMsg → Prop} (h : P msg) :
    Receives (fun sock => .ok (some msg, sock, disk)) [] disk P :=
  fun sock _ _ hinp => ⟨msg, sock, rfl, h, RecvStep.refl sock, hinp⟩

theorem Receives.recvThen {a b : Bytes} {disk disk' : Disk} {P : PeerMsg → Prop}
    (next : Bytes → Socket → Except Crash Received) (ha : a ≠ []) (hlen : a.length < 2 ^ 32)
    (hnext : Receives (next a) b disk' P) :
    Receives (fun sock => recvThen sock disk a.length next) (a ++ b) disk' P := by
  intro sock rest hrel hinp
  rw [List.append_assoc] at hinp
  obtain ⟨mid, hstep, hmid, heq⟩ := recvThen_append hrel hinp ha hlen disk next
  obtain ⟨msg, sock', hok, hP, hstep', hrest⟩ := hnext mid rest (hstep.reliable hrel) hmid
  exact ⟨msg, sock', heq.trans hok, hP, hstep.trans hstep', hrest⟩

theorem receives_field {a : Bytes} {disk : Disk} {P : PeerMsg → Prop} (ha : a ≠ [])
    (hlen : a.length < 2 ^ 32) (f : Bytes → PeerMsg) (h : P (f a)) :
    Receives (fun sock => Daobell.recvThen sock disk a.length fun buff sock =>
      .ok (some (f buff), sock, disk)) a disk P := by
  rw [← List.append_nil a]
  have hdone : Receives (fun sock => .ok (some (f a), sock, disk)) [] disk P := receives_done h
  simpa using Receives.recvThen (fun buff sock => .ok (some (f buff), sock, disk)) ha hlen hdone

theorem ofByte_toByte {type : MsgType} (h : type ≠ .msgKeepalive) :
    MsgType.ofByte type.toByte = some type := by
  cases type <;> first | rfl | exact absurd rfl h

theorem echo_bitfield {torrent : TorrentInfo} {bits : List Bool}
    (hlen : bits.length = torrent.pieces.length) :
    Echo torrent (.bitfield bits) (.bitfield
      ((List.range (bitfieldNumBytes bits.length * 8 % 2 ^ 32)).map
        (bitfieldIsset · (PeerMsg.bitfield bits).payload))) := by
  have hle := torrent.pieces_le
  have hnum := bitfieldNumBytes_eq bits.length
  have hget : ∀ i, bitfieldIsset i (PeerMsg.bitfield bits).payload = bits.getD i false :=
    fun i => bitfieldIsset_payload i bits
  rw [hlen] at hnum
  rw [hlen, hnum, Nat.mod_eq_of_lt (by omega)]
  refine ⟨_, rfl, by simp [Nat.mul_comm], ?_, ?_⟩
  · apply List.ext_getElem
    · simp
      omega
    · intro i h₁ h₂
      rw [List.getElem_take, List.getElem_map, List.getElem_range, hget,
        List.getD_eq_getElem?_getD, List.getElem?_eq_getElem h₂]
      rfl
  · intro b hb
    obtain ⟨i, hi, rfl⟩ := List.mem_iff_getElem.mp hb
    rw [List.getElem_drop, List.getElem_map, List.getElem_range, hget, List.getD_eq_getElem?_getD,
      List.getElem?_eq_none (by omega)]
    rfl

theorem receives_payload {torrent : TorrentInfo} (hn : 1 ≤ torrent.pieces.length) (disk : Disk)
    {msg : PeerMsg} (h : msg.Streamed torrent) (hkeep : msg ≠ .keepalive) :
    Receives (fun sock => peerMsgRecvPayload sock torrent disk msg.type
      (msgLength msg.type torrent - 1)) msg.payload disk (Echo torrent msg) := by
  cases msg with
  | keepalive => exact absurd rfl hkeep
  | piece _ => exact h.elim
  | cancel => exact h.elim
  | bitfield bits =>
      rw [PeerMsg.Streamed] at h
      have hlen : (PeerMsg.bitfield bits).payload.length = bitfieldNumBytes bits.length := by
        rw [PeerMsg.payload, length_bitfieldLoop, List.length_replicate]
      have hne : (PeerMsg.bitfield bits).payload ≠ [] := by
        rw [List.ne_nil_iff_length_pos, hlen, bitfieldNumBytes_eq]
        omega
      have hmsg : msgLength .msgBitfield torrent - 1 = (PeerMsg.bitfield bits).payload.length := by
        rw [msgLength_bitfield, hlen, h, Nat.add_sub_cancel_left]
      simp only [PeerMsg.type, hmsg, peerMsgRecvPayload]
      have hle := torrent.pieces_le
      have hlen32 : (PeerMsg.bitfield bits).payload.length < 2 ^ 32 := by
        rw [hlen, bitfieldNumBytes_eq]
        omega
      refine receives_field hne hlen32 (fun buff => .bitfield ((List.range
        ((PeerMsg.bitfield bits).payload.length * 8 % 2 ^ 32)).map (bitfieldIsset · buff))) ?_
      rw [hlen]
      exact echo_bitfield h
  | request msg =>
      have hlen : msgLength .msgRequest torrent - 1 = (PeerMsg.request msg).payload.length := rfl
      have h12 : (PeerMsg.request msg).payload.length = 3 * 4 := rfl
      simp only [PeerMsg.type, hlen, peerMsgRecvPayload, assertThen, if_pos h12]
      refine receives_field (by simp [PeerMsg.payload, wordBytes]) (h12 ▸ by decide)
        (fun buff => .request ⟨wordAt buff, wordAt (buff.drop 4), wordAt (buff.drop 8)⟩) ?_
      have h₀ : wordAt (PeerMsg.request msg).payload = msg.index := wordAt_wordBytes _ _
      have h₄ : wordAt ((PeerMsg.request msg).payload.drop 4) = msg.begin := wordAt_wordBytes _ _
      have h₈ : wordAt ((PeerMsg.request msg).payload.drop 8) = msg.length :=
        wordAt_wordBytes_self _
      simp only [h₀, h₄, h₈]
      rfl
  | haveMsg index =>
      exact receives_field (a := wordBytes index) (by simp [wordBytes]) (by simp [wordBytes])
        (fun buff => .haveMsg (wordAt buff)) (congrArg PeerMsg.haveMsg (wordAt_wordBytes_self index))
  | port listenPort =>
      exact receives_field (a := wordBytes listenPort) (by simp [wordBytes]) (by simp [wordBytes])
        (fun buff => .port (wordAt buff)) (congrArg PeerMsg.port (wordAt_wordBytes_self listenPort))
  | _ => exact receives_done rfl

/-- A message with a type, on the stream as its length, its type and its
payload, is received when its payload is. -/
theorem receives_typed {torrent : TorrentInfo} {disk disk' : Disk} {type : MsgType} {len : ℕ}
    {payload : Bytes} {P : PeerMsg → Prop} (htype : type ≠ .msgKeepalive) (hpos : len ≠ 0)
    (hlen : len < 2 ^ 32) (hvalid : validLen type torrent len = true)
    (hpayload : Receives (fun sock => peerMsgRecvPayload sock torrent disk type (len - 1))
      payload disk' P) :
    Receives (fun sock => peerMsgRecv sock torrent disk)
      (wordBytes (UInt32.ofNat len) ++ ([type.toByte] ++ payload)) disk' P := by
  refine Receives.recvThen (fun b sock => peerMsgRecvPastlen sock torrent disk (wordAt b).toNat)
    (by simp [wordBytes]) (by simp [wordBytes]) ?_
  rw [wordAt_wordBytes_self, UInt32.toNat_ofNat_of_lt' hlen]
  simp only [peerMsgRecvPastlen, if_neg hpos]
  refine Receives.recvThen (fun b sock => peerMsgRecvTyped sock torrent disk len (b.headD 0))
    (by simp) (by simp) ?_
  have hbyte : MsgType.ofByte (([type.toByte] : Bytes).headD 0) = some type := ofByte_toByte htype
  simp only [peerMsgRecvTyped, hbyte, hvalid, if_true]
  exact hpayload

/-- **One message.** The receiver takes exactly the byte string of the message
off the stream and returns the message. -/
theorem peerMsgRecv_receives {torrent : TorrentInfo} (hn : 1 ≤ torrent.pieces.length)
    (disk : Disk) {msg : PeerMsg} (h : msg.Streamed torrent) :
    Receives (fun sock => peerMsgRecv sock torrent disk) (msg.wire torrent) disk
      (Echo torrent msg) := by
  rw [PeerMsg.wire]
  by_cases hkeep : msg = .keepalive
  · subst hkeep
    refine Receives.recvThen (fun b sock => peerMsgRecvPastlen sock torrent disk
      (wordAt b).toNat) (by simp [wordBytes]) (by simp [wordBytes]) ?_
    rw [wordAt_wordBytes_self]
    exact receives_done rfl
  · rw [if_neg hkeep]
    have htype : msg.type ≠ .msgKeepalive := fun h => hkeep (type_eq_keepalive.mp h)
    have hvalid : validLen msg.type torrent (msgLength msg.type torrent) = true := by
      cases msg <;> first
        | exact h.elim
        | simp [PeerMsg.type, validLen]
    exact receives_typed htype (msgLength_pos htype torrent).ne' (msgLength_lt msg.type torrent)
      hvalid (receives_payload hn disk h hkeep)

/-! ### Sequences of messages -/

/-- `peer_msg_send` on each message, as long as it returns 0. -/
def sendAll (torrent : TorrentInfo) (disk : Disk) : List PeerMsg → Socket →
    Except Crash (Bool × Socket)
  | [], sock => .ok (true, sock)
  | msg :: msgs, sock =>
      match peerMsgSend sock torrent disk msg with
      | .error c => .error c
      | .ok (ok, sock) => if ok then sendAll torrent disk msgs sock else .ok (false, sock)

/-- `peer_msg_recv` a number of times, as long as it returns 0. -/
def recvAll (torrent : TorrentInfo) : ℕ → Socket → Disk →
    Except Crash (Option (List PeerMsg) × Socket × Disk)
  | 0, sock, disk => .ok (some [], sock, disk)
  | k + 1, sock, disk =>
      match peerMsgRecv sock torrent disk with
      | .error c => .error c
      | .ok (none, sock, disk) => .ok (none, sock, disk)
      | .ok (some msg, sock, disk) =>
          match recvAll torrent k sock disk with
          | .error c => .error c
          | .ok (msgs, sock, disk) => .ok (msgs.map (msg :: ·), sock, disk)

theorem sendAll_sends (torrent : TorrentInfo) (disk : Disk) {msgs : List PeerMsg}
    (h : ∀ msg ∈ msgs, msg.Streamed torrent) (sock : Socket) :
    Sends True (sendAll torrent disk msgs sock) sock (msgs.flatMap (PeerMsg.wire torrent)) := by
  induction msgs generalizing sock with
  | nil => exact sends_nothing sock
  | cons msg msgs ih =>
      obtain ⟨hmsg, hmsgs⟩ := List.forall_mem_cons.mp h
      obtain ⟨ok, mid, sent, heq, hstep, hok, hrel⟩ := peerMsgSend_sends sock torrent disk hmsg
      obtain ⟨ok', sock', sent', heq', hstep', hok', hrel'⟩ := ih hmsgs mid
      rw [sendAll, heq, List.flatMap_cons]
      cases ok with
      | false => exact ⟨false, mid, sent, rfl, hstep, by simp, fun h => absurd (hrel h trivial) (by simp)⟩
      | true =>
          refine ⟨ok', sock', sent ++ sent', heq', hstep.trans hstep', ?_,
            fun h => hrel' (hstep.reliable h)⟩
          intro h
          exact ⟨trivial, by rw [(hok rfl).2, (hok' h).2]⟩

theorem recvAll_echo {torrent : TorrentInfo} (hn : 1 ≤ torrent.pieces.length) (disk : Disk)
    {msgs : List PeerMsg} (h : ∀ msg ∈ msgs, msg.Streamed torrent) {sock : Socket} {rest : Bytes}
    (hrel : sock.RecvReliable) (hinp : sock.inp = msgs.flatMap (PeerMsg.wire torrent) ++ rest) :
    ∃ received sock', recvAll torrent msgs.length sock disk = .ok (some received, sock', disk) ∧
      sock'.inp = rest ∧ List.Forall₂ (Echo torrent) msgs received := by
  induction msgs generalizing sock with
  | nil => exact ⟨[], sock, rfl, hinp, .nil⟩
  | cons msg msgs ih =>
      obtain ⟨hmsg, hmsgs⟩ := List.forall_mem_cons.mp h
      rw [List.flatMap_cons, List.append_assoc] at hinp
      obtain ⟨msg', mid, heq, hecho, hstep, hmid⟩ :=
        peerMsgRecv_receives hn disk hmsg sock _ hrel hinp
      obtain ⟨received, sock', heq', hrest, hall⟩ := ih hmsgs (hstep.reliable hrel) hmid
      dsimp only at heq
      refine ⟨msg' :: received, sock', ?_, hrest, .cons hecho hall⟩
      rw [List.length_cons, recvAll, heq]
      simp only [heq', Option.map_some]

/-- **The message stream round trip.** Whatever messages are sent, without
PIECE and CANCEL, the receiver of the bytes emitted returns them one by one and
comes to the end of the stream with the last. -/
theorem recvAll_sendAll (torrent : TorrentInfo) (hn : 1 ≤ torrent.pieces.length)
    (msgs : List PeerMsg) (h : ∀ msg ∈ msgs, msg.Streamed torrent) (disk disk' : Disk)
    (sender : Socket) (hsender : sender.SendReliable) :
    ∃ sender' emitted, sendAll torrent disk msgs sender = .ok (true, sender') ∧
      sender'.out = sender.out ++ emitted ∧
      ∀ receiver : Socket, receiver.RecvReliable → receiver.inp = emitted →
        ∃ received receiver',
          recvAll torrent msgs.length receiver disk' = .ok (some received, receiver', disk') ∧
          receiver'.inp = [] ∧ List.Forall₂ (Echo torrent) msgs received := by
  obtain ⟨ok, sender', sent, heq, hstep, hok, hrel⟩ := sendAll_sends torrent disk h sender
  obtain rfl := hrel hsender trivial
  refine ⟨sender', sent, heq, hstep.out, fun receiver hreceiver hinp => ?_⟩
  exact recvAll_echo hn disk' h hreceiver (by rw [hinp, (hok rfl).2, List.append_nil])

theorem recvAll_sendAll_twoPieces :
    ∃ sender' emitted, sendAll twoPieces blankDisk [.bitfield [true, false], .haveMsg 1, .keepalive]
        ⟨[], [], [], [.transfers 0]⟩ = .ok (true, sender') ∧
      sender'.out = [] ++ emitted ∧
      ∀ receiver : Socket, receiver.RecvReliable → receiver.inp = emitted →
        ∃ received receiver',
          recvAll twoPieces 3 receiver blankDisk = .ok (some received, receiver', blankDisk) ∧
          receiver'.inp = [] ∧ List.Forall₂ (Echo twoPieces)
            [.bitfield [true, false], .haveMsg 1, .keepalive] received :=
  recvAll_sendAll twoPieces (by decide) [.bitfield [true, false], .haveMsg 1, .keepalive]
    (by simp [PeerMsg.Streamed, twoPieces]) blankDisk blankDisk ⟨[], [], [], [.transfers 0]⟩
    (by simp [Socket.SendReliable])

end Daobell
