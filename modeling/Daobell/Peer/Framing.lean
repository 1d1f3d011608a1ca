import Daobell.Peer.Header

/-!
Framing: whether a call takes off the stream, or puts on it, as many bytes as
the length at the head of the message says. For PIECE messages neither side
looks at that length again: the receiver reads as much as its own layout of the
block says and does not look at failures, the sender announces a whole block
whatever the length of the one it sends.
-/

namespace Daobell

open Lib

/-! ### Receiving -/

/-- What framing asks of a call that receives a message of `n` bytes from a
stream that goes on with `inp`: when it returns 0 it has taken exactly these,
and when there are not as many it returns -1. -/
def FramesAt (r : Except Crash Received) (inp : Bytes) (n : ℕ) : Prop :=
  (∀ msg sock' disk', r = .ok (some msg, sock', disk') →
    n ≤ inp.length ∧ sock'.inp = inp.drop n) ∧
  (inp.length < n → ∃ sock' disk', r = .ok (none, sock', disk'))

theorem framesAt_none (sock : Socket) (disk : Disk) (inp : Bytes) (n : ℕ) :
    FramesAt (.ok (none, sock, disk)) inp n :=
  ⟨fun _ _ _ h => by simp at h, fun _ => ⟨sock, disk, rfl⟩⟩

theorem framesAt_error (c : Crash) (inp : Bytes) (n : ℕ) :
    FramesAt (.error c) inp n ↔ n ≤ inp.length := by
  constructor
  · intro h
    by_contra hlt
    obtain ⟨_, _, h⟩ := h.2 (by omega)
    cases h
  · intro h
    refine ⟨fun _ _ _ h => ?_, fun hlt => by omega⟩
    cases h

theorem framesAt_some (msg : PeerMsg) (sock : Socket) (disk : Disk) (inp : Bytes) (n : ℕ) :
    FramesAt (.ok (some msg, sock, disk)) inp n ↔ n ≤ inp.length ∧ sock.inp = inp.drop n := by
  constructor
  · exact fun h => h.1 msg sock disk rfl
  · intro h
    refine ⟨fun msg' sock' disk' heq => ?_, fun hlt => absurd h.1 (by omega)⟩
    cases heq
    exact h

/-- The message is framed when, behind `len` of its bytes, the rest of it is. -/
theorem framesAt_drop {r : Except Crash Received} {inp : Bytes} {len n : ℕ} (hn : len ≤ n)
    (hle : len ≤ inp.length) : FramesAt r (inp.drop len) (n - len) ↔ FramesAt r inp n := by
  have h₁ : n - len ≤ inp.length - len ↔ n ≤ inp.length := by omega
  have h₂ : inp.length - len < n - len ↔ inp.length < n := by omega
  simp only [FramesAt, List.length_drop, List.drop_drop, Nat.add_sub_cancel' hn, h₁, h₂]

/-- A call of `recv` that fails ends the message; otherwise the rest of the
message is to be framed. -/
theorem FramesAt.recvThen {sock : Socket} {disk : Disk} {len n : ℕ} (hn : len ≤ n)
    {next : Bytes → Socket → Except Crash Received}
    (hnext : ∀ sock', len ≤ sock.inp.length → sock'.inp = sock.inp.drop len →
      FramesAt (next (sock.inp.take len) sock') sock'.inp (n - len)) :
    FramesAt (recvThen sock disk len next) sock.inp n := by
  rcases recvThen_cases sock disk len next with ⟨sock', heq⟩ | ⟨bytes, sock', hlen, hinp, heq⟩
  · rw [heq]
    exact framesAt_none _ _ _ _
  · have hle : len ≤ sock.inp.length := by simp [hinp, hlen]
    have hdrop : sock'.inp = sock.inp.drop len := by rw [hinp, List.drop_left' hlen]
    have hrest := hnext sock' hle hdrop
    rw [hdrop, framesAt_drop hn hle] at hrest
    rw [heq]
    rwa [hinp, List.take_left' hlen, ← hinp] at hrest

theorem framesAt_field (sock : Socket) (disk : Disk) (n : ℕ) (f : Bytes → PeerMsg) :
    FramesAt (recvThen sock disk n fun buff sock => .ok (some (f buff), sock, disk)) sock.inp n := by
  refine FramesAt.recvThen le_rfl fun sock' _ _ => ?_
  rw [framesAt_some, Nat.sub_self]
  exact ⟨Nat.zero_le _, List.drop_zero.symm⟩

/-- How many bytes of a block can be received: those of its mapped ranges. -/
def mappedSize (torrent : TorrentInfo) (mems : List FileMem) : ℕ :=
  ((mems.filter torrent.isMapped).map FileMem.size).sum

theorem recvMems_reliable (torrent : TorrentInfo) {mems : List FileMem}
    (hsize : ∀ mem ∈ mems, mem.size < 2 ^ 32) {sock : Socket} (h : sock.RecvReliable)
    (disk : Disk) :
    (recvMems torrent mems sock disk).1.RecvReliable ∧
      (recvMems torrent mems sock disk).1.inp = sock.inp.drop (mappedSize torrent mems) := by
  induction mems generalizing sock disk with
  | nil => exact ⟨h, by simp [mappedSize, recvMems]⟩
  | cons mem mems ih =>
      obtain ⟨hmem, hmems⟩ := List.forall_mem_cons.mp hsize
      rw [recvMems]
      by_cases hmapped : torrent.isMapped mem = true
      · have hsize : mappedSize torrent (mem :: mems) = mem.size + mappedSize torrent mems := by
          simp [mappedSize, hmapped]
        have hstep := (peerRecvBuff_spec sock mem.size).1
        have hrest : (peerRecvBuff sock mem.size).2.2.inp = sock.inp.drop mem.size := by
          rcases Nat.eq_zero_or_pos mem.size with h0 | hpos
          · rw [h0, peerRecvBuff, if_pos rfl, List.drop_zero]
          · exact (peerRecvBuff_reliable h hpos hmem).2.2
        obtain ⟨hrel, hinp⟩ := ih hmems (hstep.reliable h)
          (scatter torrent.place disk mem.positions (peerRecvBuff sock mem.size).2.1)
        rw [if_pos hmapped]
        exact ⟨hrel, hinp.trans (by rw [hrest, hsize, List.drop_drop])⟩
      · have hsize : mappedSize torrent (mem :: mems) = mappedSize torrent mems := by
          simp [mappedSize, hmapped]
        rw [if_neg hmapped, hsize]
        exact ih hmems h disk

/-- What the payload of a PIECE message must meet, with `inp` behind its header:
the bytes that can be received, or all that are still to come when these are
fewer, are as many as announced; and where no block of the layout is named,
which ends the program, they are all there. -/
def PieceFramed (torrent : TorrentInfo) (inp : Bytes) (blockLen : ℕ) (index begin : UInt32) :
    Prop :=
  match pieceRequestBlockAt (pieceRequestCreate torrent.layout index) begin.toNat with
  | none => blockLen ≤ inp.length
  | some block => min (mappedSize torrent block.fileMems) inp.length = blockLen

/-- The condition under which a message is received by its length. The header of
a PIECE message names the length of the block, the index and the begin. -/
def Framed (torrent : TorrentInfo) (inp : Bytes) : Prop :=
  PieceHeader inp → PieceFramed torrent (inp.drop 13) ((wordAt inp).toNat - 9)
    (wordAt (inp.drop 5)) (wordAt (inp.drop 9))

theorem framesAt_block {sock : Socket} (h : sock.RecvReliable) (torrent : TorrentInfo)
    (disk : Disk) (index begin : UInt32) (left n : ℕ) :
    FramesAt (peerMsgRecvBlock sock torrent disk index begin left) sock.inp n ↔
      PieceFramed torrent sock.inp n index begin := by
  rw [peerMsgRecvBlock, PieceFramed]
  cases hblock : pieceRequestBlockAt (pieceRequestCreate torrent.layout index) begin.toNat with
  | none => exact framesAt_error _ _ _
  | some block =>
      obtain ⟨-, hrest⟩ := recvMems_reliable torrent (fun mem hmem =>
        mem_size_lt torrent.layout (List.mem_of_find?_eq_some hblock) hmem) h disk
      simp only [framesAt_some, hrest]
      constructor
      · rintro ⟨hle, heq⟩
        have hlen := congrArg List.length heq
        simp only [List.length_drop] at hlen hle ⊢
        omega
      · intro hmin
        have hle : n ≤ sock.inp.length := by omega
        refine ⟨hle, ?_⟩
        rcases Nat.le_total (mappedSize torrent block.fileMems) sock.inp.length with hm | hm
        · rw [Nat.min_eq_left hm] at hmin
          rw [hmin]
        · rw [Nat.min_eq_right hm] at hmin
          rw [List.drop_eq_nil_of_le hm, List.drop_eq_nil_of_le hmin.le]

theorem framesAt_payload (sock : Socket) (torrent : TorrentInfo) (disk : Disk) {type : MsgType}
    (hpiece : type ≠ .msgPiece) (hkeep : type ≠ .msgKeepalive) :
    FramesAt (peerMsgRecvPayload sock torrent disk type (msgLength type torrent - 1)) sock.inp
      (msgLength type torrent - 1) := by
  cases type with
  | msgKeepalive => exact absurd rfl hkeep
  | msgPiece => exact absurd rfl hpiece
  | msgCancel => exact (framesAt_error _ _ _).mpr (Nat.zero_le _)
  | msgBitfield =>
      exact framesAt_field sock disk _ fun buff => .bitfield ((List.range
        ((msgLength .msgBitfield torrent - 1) * 8 % 2 ^ 32)).map (bitfieldIsset · buff))
  | msgRequest =>
      exact framesAt_field sock disk (msgLength .msgRequest torrent - 1) fun buff =>
        .request ⟨wordAt buff, wordAt (buff.drop 4), wordAt (buff.drop 8)⟩
  | msgHave =>
      exact framesAt_field sock disk (msgLength .msgHave torrent - 1) fun buff =>
        .haveMsg (wordAt buff)
  | msgPort =>
      exact framesAt_field sock disk (msgLength .msgPort torrent - 1) fun buff =>
        .port (wordAt buff)
  | _ => exact (framesAt_some _ _ _ _ _).mpr ⟨Nat.zero_le _, List.drop_zero.symm⟩

/-- Every message but a PIECE with its header is framed, whatever the calls of
`recv` do. -/
theorem peerMsgRecv_frames (torrent : TorrentInfo) (disk : Disk) (sock : Socket)
    (h : ¬ PieceHeader sock.inp) :
    FramesAt (peerMsgRecv sock torrent disk) sock.inp (4 + (wordAt sock.inp).toNat) := by
  rw [peerMsgRecv]
  refine FramesAt.recvThen (Nat.le_add_right _ _) fun s₁ h4 hinp₁ => ?_
  rw [Nat.add_sub_cancel_left, wordAt_take _ 4 le_rfl, peerMsgRecvPastlen]
  by_cases h0 : (wordAt sock.inp).toNat = 0
  · rw [if_pos h0, h0, framesAt_some]
    exact ⟨Nat.zero_le _, List.drop_zero.symm⟩
  rw [if_neg h0]
  refine FramesAt.recvThen (Nat.one_le_iff_ne_zero.mpr h0) fun s₂ h1 hinp₂ => ?_
  obtain ⟨b, rest, hb⟩ := List.exists_cons_of_ne_nil (List.ne_nil_of_length_pos h1)
  have hhead : (s₁.inp.take 1).headD 0 = b := by rw [hb]; rfl
  rw [hhead, peerMsgRecvTyped]
  cases htype : MsgType.ofByte b with
  | none => exact framesAt_none _ _ _ _
  | some type =>
      obtain ⟨hbyte, hkeep⟩ := ofByte_eq_some htype
      by_cases hvalid : validLen type torrent (wordAt sock.inp).toNat = true
      swap
      · simp only [hvalid]
        exact framesAt_none _ _ _ _
      simp only [hvalid, if_true]
      by_cases hpiece : type = .msgPiece
      -- the stream ends inside the header
      · subst hpiece
        have hlen : 10 ≤ (wordAt sock.inp).toNat ∧ (wordAt sock.inp).toNat ≤ 9 + peerRequestSize := by
          simpa [validLen] using hvalid
        have h7 : sock.inp[4]? = some 7 := by
          rw [← List.head?_drop, ← hinp₁, hb, hbyte]
          rfl
        rw [peerMsgRecvPayload, assertThen, if_pos (show 0 < (wordAt sock.inp).toNat - 1 by omega),
          peerMsgRecvPiece]
        refine FramesAt.recvThen (by omega) fun s₃ h5 hinp₃ => ?_
        refine FramesAt.recvThen (by omega) fun s₄ h9 hinp₄ => ?_
        refine absurd ⟨?_, h7, hlen⟩ h
        rw [hinp₃, hinp₂, hinp₁] at h9
        simp only [List.length_drop] at h9
        omega
      · have heq : (wordAt sock.inp).toNat = msgLength type torrent := by
          simpa [validLen, hpiece] using hvalid
        rw [heq]
        exact framesAt_payload s₂ torrent disk hpiece hkeep

/-- **Receive framing.** `peer_msg_recv` keeps to the length of the message
exactly when the condition on PIECE messages holds. Only for these does it
matter that no call of `recv` fails. -/
theorem peerMsgRecv_framesAt_iff (torrent : TorrentInfo) (disk : Disk) (sock : Socket)
    (h : PieceHeader sock.inp → sock.RecvReliable) :
    FramesAt (peerMsgRecv sock torrent disk) sock.inp (4 + (wordAt sock.inp).toNat) ↔
      Framed torrent sock.inp := by
  by_cases hheader : PieceHeader sock.inp
  swap
  · exact iff_of_true (peerMsgRecv_frames torrent disk sock hheader) fun hcontra =>
      absurd hcontra hheader
  obtain ⟨sock', hrel, hinp, heq⟩ := peerMsgRecv_of_pieceHeader torrent disk (h hheader) hheader
  have h13 : 13 ≤ sock.inp.length := hheader.1
  have h10 : 10 ≤ (wordAt sock.inp).toNat := hheader.2.2.1
  have hrest : 4 + (wordAt sock.inp).toNat - 13 = (wordAt sock.inp).toNat - 9 := by omega
  rw [heq, ← framesAt_drop (by omega) h13, ← hinp, hrest, framesAt_block hrel, hinp, Framed]
  exact ⟨fun hframed _ => hframed, fun hframed => hframed hheader⟩

def headerOnly : Socket := ⟨[0, 0, 0, 10, 7, 0, 0, 0, 1, 0, 0, 0, 0], [], [], []⟩

/-- It is received although its one byte never came. -/
theorem peerMsgRecv_headerOnly :
    ¬ FramesAt (peerMsgRecv headerOnly twoPieces blankDisk) headerOnly.inp
      (4 + (wordAt headerOnly.inp).toNat) := by
  have hmsg : (peerMsgRecv headerOnly twoPieces blankDisk).map (fun r => r.1) =
      .ok (some (.piece ⟨1, 0, 1⟩)) := by decide +kernel
  intro h
  obtain ⟨sock', disk', hnone⟩ := h.2 (by decide)
  rw [hnone] at hmsg
  cases hmsg

theorem peerMsgRecv_framesAt_iff_onePiece :
    FramesAt (peerMsgRecv ⟨headerOnly.inp ++ [42], [.transfers 0], [], []⟩ twoPieces blankDisk)
        (headerOnly.inp ++ [42]) (4 + (wordAt (headerOnly.inp ++ [42])).toNat) ↔
      Framed twoPieces (headerOnly.inp ++ [42]) :=
  peerMsgRecv_framesAt_iff twoPieces blankDisk ⟨headerOnly.inp ++ [42], [.transfers 0], [], []⟩
    fun _ => by simp [Socket.RecvReliable]

/-! ### Sending -/

/-- What framing asks of a call that sends a message: when it returns 0, it has
sent four bytes, and then as many as these say. -/
def SendsFramed (r : Except Crash (Bool × Socket)) (sock : Socket) : Prop :=
  ∀ sock', r = .ok (true, sock') → ∃ head body, sock'.out = sock.out ++ head ++ body ∧
    head.length = 4 ∧ body.length = (wordAt head).toNat

def Readable (torrent : TorrentInfo) (as : List Address) : Prop :=
  ∀ p ∈ as, ∃ f, torrent.files[p.1]? = some f ∧ f.mapped = true

theorem readable_append (torrent : TorrentInfo) (as bs : List Address) :
    Readable torrent (as ++ bs) ↔ Readable torrent as ∧ Readable torrent bs :=
  List.forall_mem_append

theorem isMapped_eq_true {torrent : TorrentInfo} {mem : FileMem} :
    torrent.isMapped mem = true ↔ ∃ f, torrent.files[mem.file]? = some f ∧ f.mapped = true := by
  rw [TorrentInfo.isMapped]
  cases torrent.files[mem.file]? <;> simp

theorem readable_span {torrent : TorrentInfo} {mem : FileMem} {len : ℕ} (hlen : 0 < len) :
    Readable torrent (span mem.file mem.offset len) ↔ torrent.isMapped mem = true := by
  rw [isMapped_eq_true]
  constructor
  · intro h
    exact h (mem.file, mem.offset) (mem_span.mpr ⟨rfl, le_rfl, Nat.lt_add_of_pos_right hlen⟩)
  · intro h p hp
    rw [(mem_span.mp hp).1]
    exact h

theorem readable_mems {torrent : TorrentInfo} {mems : List FileMem} :
    Readable torrent (mems.flatMap FileMem.positions) ↔
      ∀ mem ∈ mems, 0 < mem.size → torrent.isMapped mem = true := by
  rw [Readable, List.forall_mem_flatMap]
  refine forall₂_congr fun mem _ => ?_
  rcases Nat.eq_zero_or_pos mem.size with h0 | hpos
  · simp [FileMem.positions, h0]
  · exact (readable_span hpos).trans (by simp [hpos])

def InFile (torrent : TorrentInfo) (mem : FileMem) : Prop :=
  0 < mem.size → mem.offset + mem.size ≤ torrent.layout.sizes.getD mem.file 0

theorem sendMem_sends {torrent : TorrentInfo} {mem : FileMem} (hin : InFile torrent mem)
    (disk : Disk) (sock : Socket) {len : ℕ} (hlen : len ≤ mem.size) :
    Sends (Readable torrent (mem.positions.take len)) (sendMem sock torrent disk mem 0 len) sock
      ((mem.positions.take len).map disk) := by
  rw [FileMem.positions, span_take _ _ _ _ hlen, sendMem]
  rcases Nat.eq_zero_or_pos len with rfl | hpos
  · rw [if_pos rfl]
    exact ⟨true, sock, [], rfl, SendStep.refl sock, fun _ => ⟨by simp [Readable], by simp⟩,
      fun _ _ => rfl⟩
  · have hfile := hin (by omega)
    have hsize := getD_sizes_lt torrent.layout mem.file
    rw [if_neg hpos.ne', readable_span hpos]
    by_cases hmapped : torrent.isMapped mem = true
    · rw [if_neg (not_not.mpr hmapped)]
      rw [Nat.add_zero, Nat.mod_eq_of_lt (by omega), if_neg (by omega)]
      have hbytes : ((span mem.file mem.offset len).map disk).length < 2 ^ 32 := by
        rw [List.length_map, length_span]
        omega
      obtain ⟨ok, sock', sent, heq, hstep, hok, hrel⟩ := sends_buff sock hbytes
      exact ⟨ok, sock', sent, heq, hstep, fun h => ⟨hmapped, (hok h).2⟩, fun h _ => hrel h trivial⟩
    · rw [if_pos hmapped]
      exact ⟨false, sock, [], rfl, SendStep.refl sock, by simp, fun _ h => absurd h hmapped⟩

theorem length_flatMap_mems (mems : List FileMem) :
    (mems.flatMap FileMem.positions).length = (mems.map FileMem.size).sum := by
  simp [List.length_flatMap, FileMem.positions]

theorem sendPieceLoop_before (torrent : TorrentInfo) (disk : Disk) {msg : PieceMsg}
    (hlen : 0 < msg.blockLen) {mems : List FileMem} (rest : List FileMem) {offset : ℕ}
    (hbegin : offset + (mems.map FileMem.size).sum ≤ msg.begin.toNat) (sock : Socket) :
    sendPieceLoop torrent disk msg (mems ++ rest) offset 0 sock =
      sendPieceLoop torrent disk msg rest (offset + (mems.map FileMem.size).sum) 0 sock := by
  induction mems generalizing offset with
  | nil => rfl
  | cons mem mems ih =>
      rw [List.map_cons, List.sum_cons] at hbegin
      rw [List.cons_append, sendPieceLoop, if_neg (by omega), if_neg hlen.ne, ih (by omega),
        List.map_cons, List.sum_cons, Nat.add_assoc]

/-- From the start of the block on, ranges are sent until there is enough. -/
theorem sendPieceLoop_sends {torrent : TorrentInfo} (disk : Disk) (msg : PieceMsg)
    (hblock : msg.blockLen < 2 ^ 32) {mems : List FileMem}
    (hin : ∀ mem ∈ mems, InFile torrent mem) (offset written : ℕ)
    (hbegin : msg.begin.toNat ≤ offset) (hwritten : written < msg.blockLen)
    (hmore : msg.blockLen - written ≤ (mems.flatMap FileMem.positions).length) (sock : Socket) :
    Sends (Readable torrent ((mems.flatMap FileMem.positions).take (msg.blockLen - written)))
      (sendPieceLoop torrent disk msg mems offset written sock) sock
      (((mems.flatMap FileMem.positions).take (msg.blockLen - written)).map disk) := by
  induction mems generalizing offset written sock with
  | nil =>
      simp only [List.flatMap_nil, List.length_nil] at hmore
      omega
  | cons mem mems ih =>
      obtain ⟨hmem, hmems⟩ := List.forall_mem_cons.mp hin
      have hlen : mem.positions.length = mem.size := length_span _ _ _
      rw [List.flatMap_cons, List.length_append, hlen] at hmore
      rw [sendPieceLoop, List.flatMap_cons]
      by_cases hsize : msg.begin.toNat < offset + mem.size
      swap
      -- an empty range at the start of the block
      · have hnil : mem.positions = [] := List.length_eq_zero_iff.mp (by omega)
        rw [if_neg hsize, if_neg hwritten.ne, hnil, List.nil_append]
        exact ih hmems (offset + mem.size) written (by omega) hwritten (by omega) sock
      have hbeg : (if msg.begin.toNat < offset then 0 else subSize offset msg.begin.toNat) = 0 := by
        have hbegin32 : msg.begin.toNat < 2 ^ 32 := msg.begin.toNat_lt
        split
        · rfl
        · rw [subSize_of_le (by omega) (by omega)]
          omega
      have hsize32 : mem.size < 2 ^ 32 := by
        have hfile := getD_sizes_lt torrent.layout mem.file
        rcases Nat.eq_zero_or_pos mem.size with h | h
        · omega
        · have hle := hmem h
          omega
      rw [if_pos hsize]
      simp only [hbeg]
      rw [subSize_of_le (Nat.zero_le _) (by omega), subSize_of_le hwritten.le (by omega),
        Nat.sub_zero]
      have hsend := sendMem_sends hmem disk sock
        (Nat.min_le_left mem.size (msg.blockLen - written))
      rw [List.take_append, hlen]
      by_cases hlast : msg.blockLen - written ≤ mem.size
      -- the block ends in this range
      · rw [Nat.min_eq_right hlast] at hsend ⊢
        rw [Nat.sub_eq_zero_of_le hlast, List.take_zero, List.append_nil]
        simp only [Nat.add_sub_cancel' hwritten.le, if_true]
        simpa using hsend.andThen sends_nothing
      · rw [Nat.min_eq_left (by omega)] at hsend ⊢
        rw [List.take_of_length_le hlen.le] at hsend
        rw [readable_append, List.map_append, List.take_of_length_le (by omega)]
        have hne : ¬ written + mem.size = msg.blockLen := by omega
        simp only [hne, if_false]
        refine hsend.andThen fun s => ?_
        rw [← Nat.sub_add_eq]
        exact ih hmems (offset + mem.size) (written + mem.size) (by omega) (by omega) (by omega) s

def PieceMsg.addresses (msg : PieceMsg) (torrent : TorrentInfo) : List Address :=
  ((torrent.layout.pieceAddresses msg.index).drop msg.begin.toNat).take msg.blockLen

structure PieceMsg.Inside (msg : PieceMsg) (torrent : TorrentInfo) : Prop where
  index_lt : msg.index.toNat < torrent.pieces.length
  aligned : peerRequestSize ∣ msg.begin.toNat
  pos : 1 ≤ msg.blockLen
  le : msg.blockLen ≤ peerRequestSize
  inside : msg.begin.toNat + msg.blockLen ≤ (torrent.layout.pieceAddresses msg.index).length

def pieceMems (torrent : FileRow) (index : UInt32) : List FileMem :=
  (pieceRequestCreate torrent index).blockRequests.flatMap (·.fileMems)

theorem flatMap_positions_mems (blocks : List BlockRequest) :
    (blocks.flatMap (·.fileMems)).flatMap FileMem.positions =
      blocks.flatMap BlockRequest.positions := List.flatMap_assoc

theorem positions_pieceMems (torrent : Layout) (index : UInt32) :
    (pieceMems torrent index).flatMap FileMem.positions = torrent.pieceAddresses index := by
  rw [pieceMems, flatMap_positions_mems, flatMap_positions]

theorem inFile_pieceMems (torrent : TorrentInfo) (index : UInt32) :
    ∀ mem ∈ pieceMems torrent.layout index, InFile torrent mem := by
  intro mem hmem hsize
  obtain ⟨block, hblock, hmem⟩ := List.mem_flatMap.mp hmem
  exact mem_le_size torrent.layout hblock hmem hsize

theorem peerMsgSendPiece_sends_of_split {torrent : TorrentInfo} (disk : Disk) {msg : PieceMsg}
    {before after : List FileMem} (hsplit : pieceMems torrent.layout msg.index = before ++ after)
    (hbegin : (before.map FileMem.size).sum = msg.begin.toNat) (hpos : 1 ≤ msg.blockLen)
    (hblock : msg.blockLen < 2 ^ 32)
    (hinside : msg.begin.toNat + msg.blockLen ≤ (torrent.layout.pieceAddresses msg.index).length)
    (sock : Socket) :
    Sends (Readable torrent (msg.addresses torrent)) (peerMsgSendPiece sock torrent disk msg) sock
      (wordBytes msg.index ++ (wordBytes msg.begin ++ (msg.addresses torrent).map disk)) := by
  have hafter : after.flatMap FileMem.positions =
      (torrent.layout.pieceAddresses msg.index).drop msg.begin.toNat := by
    rw [← positions_pieceMems, hsplit, List.flatMap_append,
      List.drop_left' ((length_flatMap_mems before).trans hbegin)]
  have hin : ∀ mem ∈ after, InFile torrent mem := fun mem hmem =>
    inFile_pieceMems torrent msg.index mem (hsplit ▸ List.mem_append_right _ hmem)
  refine (sends_word sock _).sendThen fun s => (sends_word s _).sendThen fun s => ?_
  have hloop := sendPieceLoop_sends disk msg hblock hin (0 + (before.map FileMem.size).sum) 0
    (by omega) hpos (by rw [hafter, List.length_drop]; omega) s
  rw [← sendPieceLoop_before torrent disk hpos _ (by omega), ← hsplit, hafter] at hloop
  exact hloop

theorem exists_split_of_dvd {torrent : TorrentInfo} {msg : PieceMsg}
    (hdvd : peerRequestSize ∣ msg.begin.toNat)
    (hle : msg.begin.toNat ≤ (torrent.layout.pieceAddresses msg.index).length) :
    ∃ before after, pieceMems torrent.layout msg.index = before ++ after ∧
      (before.map FileMem.size).sum = msg.begin.toNat := by
  obtain ⟨j, hj⟩ := hdvd
  let blocks := (pieceRequestCreate torrent.layout msg.index).blockRequests
  refine ⟨(blocks.take j).flatMap (·.fileMems), (blocks.drop j).flatMap (·.fileMems), ?_, ?_⟩
  · rw [← List.flatMap_append, List.take_append_drop]
    rfl
  · rw [← length_flatMap_mems, flatMap_positions_mems, flatMap_positions_take, List.length_take,
      hj]
    omega

theorem peerMsgSendPiece_sends {torrent : TorrentInfo} (disk : Disk) {msg : PieceMsg}
    (h : msg.Inside torrent) (sock : Socket) :
    Sends (Readable torrent (msg.addresses torrent)) (peerMsgSendPiece sock torrent disk msg) sock
      (wordBytes msg.index ++ (wordBytes msg.begin ++ (msg.addresses torrent).map disk)) := by
  obtain ⟨-, hdvd, hpos, hle, hinside⟩ := h
  obtain ⟨before, after, hsplit, hbegin⟩ := exists_split_of_dvd hdvd (Nat.le_of_add_right_le hinside)
  exact peerMsgSendPiece_sends_of_split disk hsplit hbegin hpos
    (by simp only [peerRequestSize] at hle; omega) hinside sock

def PeerMsg.Sendable (torrent : TorrentInfo) : PeerMsg → Prop
  | .piece msg => msg.Inside torrent
  | msg => msg.Streamed torrent

/-- No PIECE message, or one with a whole block, or one whose block cannot be
read from the files. -/
def PeerMsg.Fits (torrent : TorrentInfo) : PeerMsg → Prop
  | .piece msg => msg.blockLen = peerRequestSize ∨ ¬ Readable torrent (msg.addresses torrent)
  | _ => True

theorem Sends.framed_iff {P : Prop} {f : Socket → Except Crash (Bool × Socket)} {word : UInt32}
    {body : Bytes} (h : ∀ sock, Sends P (f sock) sock (wordBytes word ++ body)) :
    (∀ sock, SendsFramed (f sock) sock) ↔ (P → body.length = word.toNat) := by
  constructor
  · intro hframed hP
    obtain ⟨ok, sock', sent, heq, hstep, hok, hrel⟩ := h ⟨[], [], [], []⟩
    obtain rfl := hrel (by simp [Socket.SendReliable]) hP
    obtain ⟨head, body', hout, hhead, hbody⟩ := hframed _ sock' heq
    rw [hstep.out, (hok rfl).2, List.append_assoc, List.append_cancel_left_eq] at hout
    obtain ⟨rfl, rfl⟩ := List.append_inj hout (by rw [hhead, length_wordBytes])
    rwa [wordAt_wordBytes_self] at hbody
  · intro hP sock sock' heq
    obtain ⟨ok, sock'', sent, heq', hstep, hok, -⟩ := h sock
    rw [heq'] at heq
    cases heq
    obtain ⟨hp, rfl⟩ := hok rfl
    exact ⟨wordBytes word, body, by rw [hstep.out, List.append_assoc], length_wordBytes word,
      by rw [hP hp, wordAt_wordBytes_self]⟩

theorem toNat_msgLength (type : MsgType) (torrent : TorrentInfo) :
    (UInt32.ofNat (msgLength type torrent)).toNat = msgLength type torrent :=
  UInt32.toNat_ofNat_of_lt' (msgLength_lt type torrent)

theorem streamed_framed (torrent : TorrentInfo) (disk : Disk) {msg : PeerMsg}
    (h : msg.Streamed torrent) (sock : Socket) :
    SendsFramed (peerMsgSend sock torrent disk msg) sock := by
  refine (Sends.framed_iff fun sock => peerMsgSend_sends sock torrent disk h).mpr (fun _ => ?_) sock
  rw [toNat_msgLength]
  cases msg with
  | piece _ => exact h.elim
  | cancel => exact h.elim
  | bitfield bits =>
      rw [PeerMsg.Streamed] at h
      simp only [PeerMsg.type, PeerMsg.payload, reduceCtorEq, if_false, List.length_append,
        List.length_singleton, length_bitfieldLoop, List.length_replicate, msgLength_bitfield, h]
  | _ => rfl

theorem piece_framed_iff (torrent : TorrentInfo) (disk : Disk) {msg : PieceMsg}
    (h : msg.Inside torrent) :
    (∀ sock, SendsFramed (peerMsgSend sock torrent disk (.piece msg)) sock) ↔
      (Readable torrent (msg.addresses torrent) → msg.blockLen = peerRequestSize) := by
  have hsends : ∀ sock, Sends (Readable torrent (msg.addresses torrent))
      (peerMsgSend sock torrent disk (.piece msg)) sock
      (wordBytes (UInt32.ofNat (msgLength .msgPiece torrent)) ++ ([MsgType.msgPiece.toByte] ++
        (wordBytes msg.index ++ (wordBytes msg.begin ++ (msg.addresses torrent).map disk)))) := by
    intro sock
    rw [peerMsgSend]
    refine (sends_word sock _).sendThen fun s => ?_
    rw [if_neg (by simp)]
    exact (sends_buff s (by simp)).sendThen fun s => peerMsgSendPiece_sends disk h s
  have haddresses : (msg.addresses torrent).length = msg.blockLen := by
    have hinside := h.inside
    rw [PieceMsg.addresses, List.length_take, List.length_drop]
    omega
  rw [Sends.framed_iff hsends, toNat_msgLength]
  simp only [List.length_append, List.length_map, length_wordBytes, haddresses, msgLength,
    List.length_singleton]
  refine imp_congr_right fun _ => ?_
  omega

/-- **Send framing.** A message that the sender supports is sent in the frame it
announces exactly when it fits. -/
theorem peerMsgSend_framed_iff (torrent : TorrentInfo) (disk : Disk) (msg : PeerMsg)
    (h : msg.Sendable torrent) :
    (∀ sock, SendsFramed (peerMsgSend sock torrent disk msg) sock) ↔ msg.Fits torrent := by
  cases msg with
  | piece msg =>
      rw [piece_framed_iff torrent disk h, PeerMsg.Fits, imp_iff_not_or]
      exact or_comm
  | _ => exact iff_of_true (streamed_framed torrent disk h) trivial

/-- The block that is the second piece, of a single byte, does not fit. -/
theorem peerMsgSend_shortBlock :
    ¬ SendsFramed (peerMsgSend ⟨[], [], [], []⟩ twoPieces blankDisk (.piece ⟨1, 0, 1⟩))
      ⟨[], [], [], []⟩ := by
  have hsent : (peerMsgSend ⟨[], [], [], []⟩ twoPieces blankDisk (.piece ⟨1, 0, 1⟩)) =
      .ok (true, ⟨[], [], [0, 0, 64, 9, 7, 0, 0, 0, 1, 0, 0, 0, 0, 0], []⟩) := by
    decide +kernel
  intro h
  obtain ⟨head, body, hout, hhead, hbody⟩ := h _ hsent
  have hlength := congrArg List.length hout
  have hword : wordAt head = 16393 := by
    have htake := congrArg (List.take 4) hout
    rw [List.nil_append, List.take_left' hhead] at htake
    rw [← htake]
    rfl
  simp only [List.nil_append, List.length_append, hhead, hbody, hword] at hlength
  revert hlength
  decide

theorem peerMsgSend_framed_iff_wholeBlock :
    (∀ sock, SendsFramed (peerMsgSend sock twoPieces blankDisk (.piece ⟨0, 0, 16384⟩)) sock) ↔
      PeerMsg.Fits twoPieces (.piece ⟨0, 0, 16384⟩) :=
  peerMsgSend_framed_iff twoPieces blankDisk (.piece ⟨0, 0, 16384⟩)
    ⟨by decide, by decide, by decide, by decide, by
      simp [Layout.pieceAddresses, TorrentInfo.layout, twoPieces]⟩

end Daobell
