import Daobell.Peer.Completion
import Daobell.Peer.Integrity
import Daobell.Peer.Speaking

/-!
A download from a peer that has it all. The program is at one end of the
connection, with its thread, its torrent and its files; at the other end is a
peer that reads what the program sends and answers each REQUEST, in whatever
order, with the bytes that it asks for. Between them are the messages that one
has sent and the other has not taken yet. The connection may break at any point
and another one begin, and the peer may say whatever else it likes in between.
-/

namespace Daobell

open Lib

/-! ### The two ends -/

/-- The program and the peer it is connected to: whether the peer has yet to
unchoke us, the requests it has read and not answered, and how many of the bytes
that we have sent it has read. -/
structure Exchange where
  client : Client
  choking : Bool
  owed : List RequestMsg
  taken : ℕ

section

-- the torrent as the peer knows it, and the contents of its files
variable (torrent : TorrentInfo) (contents : Bytes)

def pieceContents (i : ℕ) : Bytes :=
  (contents.drop (torrent.pieceLength.toNat * i)).take torrent.pieceLength.toNat

/-- The torrent describes the contents: it has their length and the digest of each
of their pieces, and pieces are made of whole blocks. No offset wraps. -/
structure Describes : Prop where
  aligned : peerRequestSize ∣ torrent.pieceLength.toNat
  length : contents.length = torrent.layout.sizes.sum
  small : contents.length < 2 ^ 32
  pieces : torrent.pieces = (chunks torrent.pieceLength.toNat contents).map sha1
  nonempty : 1 ≤ torrent.pieces.length

/-- The bytes of a message of the peer. A PIECE message carries the bytes of the
contents that it names. -/
def peerWire : PeerMsg → Bytes
  | .piece msg => blockWire msg.index msg.begin
      (((pieceContents torrent contents msg.index.toNat).drop msg.begin.toNat).take msg.blockLen)
  | msg => msg.wire torrent

def RequestMsg.answer (r : RequestMsg) : PeerMsg := .piece ⟨r.index, r.begin, r.length.toNat⟩

def PeerMsg.request? : PeerMsg → Option RequestMsg
  | .request r => some r
  | _ => none

def PeerMsg.answers? : PeerMsg → Option RequestMsg
  | .piece msg => some ⟨msg.index, msg.begin, UInt32.ofNat msg.blockLen⟩
  | _ => none

inductive ExchangeAct
  /-- a connection to the peer is made; how much each call moves is up to the network -/
  | connect (recvs sends : List ℕ)
  | drop
  | receive (avail : ℕ)
  | round
  | unchoke
  /-- the peer sends a message of its own accord -/
  | say (msg : PeerMsg)
  /-- the peer reads the next message -/
  | read
  /-- the peer answers one of the requests it has read -/
  | answer (k : ℕ)

def Exchange.push (e : Exchange) (msg : PeerMsg) : Exchange :=
  match e.client with
  | .idle _ _ _ => e
  | .connected s =>
      { e with client := .connected { s with
          sock := { s.sock with inp := s.sock.inp ++ peerWire torrent contents msg } } }

def Exchange.proceed (e : Exchange) (a : Act ℕ) : Except Crash Exchange :=
  clientStep processQueued e.client a >>= fun client => .ok { e with client := client }

/-- A new connection, on which the peer begins with its bit field. -/
def Exchange.connect (e : Exchange) (recvs sends : List ℕ) : Except Crash Exchange :=
  match e.client with
  | .connected _ => .ok e
  | .idle _ _ _ =>
      clientStep processQueued e.client (.connect
        ⟨peerWire torrent contents (.bitfield (List.replicate torrent.pieces.length true)),
          recvs.map Reply.transfers, [], sends.map Reply.transfers⟩) >>= fun client =>
      .ok ⟨client, true, [], 0⟩

def Exchange.unchoke (e : Exchange) : Exchange :=
  match e.client with
  | .idle _ _ _ => e
  | .connected _ =>
      if e.choking then { e.push torrent contents .unchoke with choking := false } else e

/-- The peer reads the next message, if there is one, and notes what it is asked
for. -/
def Exchange.read (e : Exchange) : Exchange :=
  match e.client with
  | .idle _ _ _ => e
  | .connected s =>
      match peerMsgRecv ⟨s.sock.out.drop e.taken, [], [], []⟩ torrent (fun _ => 0) with
      | .ok (some msg, sock, _) =>
          { e with
            owed := e.owed ++ msg.request?.toList
            taken := s.sock.out.length - sock.inp.length }
      | _ => e

def Exchange.answer (e : Exchange) (k : ℕ) : Exchange :=
  match e.client, e.owed[k]? with
  | .connected _, some r => { e.push torrent contents r.answer with owed := e.owed.eraseIdx k }
  | _, _ => e

def exchangeStep (e : Exchange) : ExchangeAct → Except Crash Exchange
  | .connect recvs sends => e.connect torrent contents recvs sends
  | .drop => e.proceed .drop
  | .receive avail => e.proceed (.receive avail)
  | .round => e.proceed .round
  | .unchoke => .ok (e.unchoke torrent contents)
  | .say msg => .ok (e.push torrent contents msg)
  | .read => .ok (e.read torrent)
  | .answer k => .ok (e.answer torrent contents k)

/-- Whatever the peer says of its own accord is a message of the protocol, about
pieces that there are. It sends no PIECE message that it is not asked for. -/
def ExchangeAct.Proper : ExchangeAct → Prop
  | .say msg => msg.Streamed torrent ∧ msg.InRange torrent.pieces.length
  | _ => True

end

def Exchange.start (torrent : TorrentInfo) (disk : Disk) : Exchange :=
  ⟨.idle torrent disk [], false, [], 0⟩

/-! ### What the torrent describes -/

section

variable {torrent : TorrentInfo} {contents : Bytes}

theorem Describes.pieceLength_pos (h : Describes torrent contents) :
    0 < torrent.pieceLength.toNat := by
  by_contra h0
  have hcount : torrent.pieces.length = 0 := by
    rw [h.pieces, List.length_map, length_chunks, chunkCount, Nat.eq_zero_of_not_pos h0,
      Nat.div_zero]
  have hn := h.nonempty
  omega

theorem Describes.lt_iff (h : Describes torrent contents) {i : ℕ} :
    i < torrent.pieces.length ↔ torrent.pieceLength.toNat * i < contents.length := by
  rw [h.pieces, List.length_map, length_chunks, lt_chunkCount_iff h.pieceLength_pos]

theorem Describes.digest (h : Describes torrent contents) {i : ℕ}
    (hi : i < torrent.pieces.length) :
    torrent.pieces[i]? = some (sha1 (pieceContents torrent contents i)) := by
  rw [h.pieces, List.length_map, length_chunks] at hi
  simp [h.pieces, chunks, hi, pieceContents]

theorem toNat_ofNat_index {i : ℕ} (hi : i < torrent.pieces.length) :
    (UInt32.ofNat i).toNat = i := by
  have hle := torrent.pieces_le
  exact UInt32.toNat_ofNat_of_lt' (show i < 2 ^ 32 by omega)

theorem Describes.pieceAddresses (h : Describes torrent contents) {index : UInt32}
    (hi : index.toNat < torrent.pieces.length) :
    torrent.layout.pieceAddresses index =
      ((addresses torrent.layout.sizes).drop (torrent.pieceLength.toNat * index.toNat)).take
        torrent.pieceLength.toNat := by
  have hlt := h.lt_iff.mp hi
  have hsmall := h.small
  rw [Nat.mul_comm] at hlt ⊢
  exact pieceAddresses_of_dvd torrent.layout h.aligned (hlt.trans hsmall)

theorem Describes.length_piece (h : Describes torrent contents) {index : UInt32}
    (hi : index.toNat < torrent.pieces.length) :
    (pieceContents torrent contents index.toNat).length =
      (torrent.layout.pieceAddresses index).length := by
  rw [h.pieceAddresses hi]
  simp [pieceContents, h.length]

theorem Describes.exists_values (h : Describes torrent contents) :
    ∃ c : Address → UInt8, (addresses torrent.layout.sizes).map c = contents :=
  exists_map_eq (nodup_addresses _) (by rw [length_addresses, h.length])

theorem Describes.pieceContents_map {c : Address → UInt8}
    (h : Describes torrent ((addresses torrent.layout.sizes).map c)) {index : UInt32}
    (hi : index.toNat < torrent.pieces.length) :
    pieceContents torrent ((addresses torrent.layout.sizes).map c) index.toNat =
      (torrent.layout.pieceAddresses index).map c := by
  rw [h.pieceAddresses hi, pieceContents, List.map_take, List.map_drop]

theorem Describes.piece_small (h : Describes torrent contents) (index : UInt32) :
    (torrent.layout.pieceAddresses index).length ≤ 2 ^ 32 :=
  (length_pieceAddresses_le torrent.layout h.aligned index).trans
    torrent.layout.pieceLength.toNat_lt.le

theorem Describes.piece_pos (h : Describes torrent contents) {index : UInt32}
    (hi : index.toNat < torrent.pieces.length) :
    0 < (torrent.layout.pieceAddresses index).length := by
  have hlt := h.lt_iff.mp hi
  have hpos := h.pieceLength_pos
  rw [← h.length_piece hi, pieceContents, List.length_take, List.length_drop]
  omega

theorem Describes.whole (h : Describes torrent contents) {disk : Disk}
    (hall : ∀ i < torrent.pieces.length,
      (torrent.layout.pieceAddresses (UInt32.ofNat i)).map disk =
        pieceContents torrent contents i) :
    (addresses torrent.layout.sizes).map disk = contents := by
  have hlen : ((addresses torrent.layout.sizes).map disk).length = contents.length := by
    simp [h.length]
  refine eq_of_chunks h.pieceLength_pos hlen fun i hi => ?_
  rw [hlen, lt_chunkCount_iff h.pieceLength_pos, ← h.lt_iff] at hi
  have hpiece := hall i hi
  rw [h.pieceAddresses (by rwa [toNat_ofNat_index hi]), toNat_ofNat_index hi] at hpiece
  rw [← List.map_drop, ← List.map_take]
  exact hpiece

end

/-! ### A request on its way -/

def PieceRequest.ticket (r : PieceRequest) (block : BlockRequest) : RequestMsg :=
  ⟨r.pieceIndex, UInt32.ofNat block.begin, UInt32.ofNat block.len⟩

def PieceRequest.awaited (r : PieceRequest) : List RequestMsg :=
  (r.blockRequests.filter fun block => !block.completed).map r.ticket

def BlockRequest.unmark (block : BlockRequest) : BlockRequest := { block with completed := false }

section

variable (torrent : TorrentInfo) (contents : Bytes)

/-- The contents can be in the files: bytes of them that are to be at one place of the
file system are the same. -/
def Storable : Prop := Fits torrent.place (addresses torrent.layout.sizes) contents

/-- A request is under way: it is the one that was made, but for the marks, and the
blocks with a mark are in their places, where they can be. -/
structure Underway (disk : Disk) (r : PieceRequest) : Prop where
  index : r.pieceIndex.toNat < torrent.pieces.length
  blocks : r.blockRequests.map BlockRequest.unmark =
    (pieceRequestCreate torrent.layout r.pieceIndex).blockRequests
  counted : r.Counted
  stored : Storable torrent contents → ∀ block ∈ r.blockRequests, block.completed = true →
    block.positions.map disk =
      ((pieceContents torrent contents r.pieceIndex.toNat).drop block.begin).take block.len

variable {torrent contents} {disk : Disk} {r : PieceRequest}

theorem Underway.block (h : Underway torrent contents disk r) {j : ℕ} {block : BlockRequest}
    (hblock : r.blockRequests[j]? = some block) :
    peerRequestSize * j < (torrent.layout.pieceAddresses r.pieceIndex).length ∧
      block.begin = peerRequestSize * j ∧
      block.len = (blockAddresses torrent.layout r.pieceIndex j).length ∧
      block.positions = blockAddresses torrent.layout r.pieceIndex j := by
  have hmade : (pieceRequestCreate torrent.layout r.pieceIndex).blockRequests[j]? =
      some block.unmark := by
    rw [← h.blocks, List.getElem?_map, hblock]
    rfl
  have hj := (List.getElem?_eq_some_iff.mp hmade).1
  rw [length_blockRequests, lt_chunkCount_iff (by decide)] at hj
  obtain ⟨made, hmade', hbegin, hlen, -, hpositions⟩ :=
    exists_blockRequest torrent.layout r.pieceIndex j hj
  obtain rfl := Option.some.inj (hmade.symm.trans hmade')
  refine ⟨hj, hbegin, ?_, hpositions⟩
  rw [blockAddresses, List.length_take, List.length_drop]
  exact hlen

theorem Underway.block_contents {c : Address → UInt8}
    (h : Underway torrent ((addresses torrent.layout.sizes).map c) disk r)
    (hdescribes : Describes torrent ((addresses torrent.layout.sizes).map c)) {j : ℕ}
    {block : BlockRequest} (hblock : r.blockRequests[j]? = some block) :
    ((pieceContents torrent ((addresses torrent.layout.sizes).map c) r.pieceIndex.toNat).drop
      block.begin).take block.len = block.positions.map c := by
  obtain ⟨-, hbegin, hlen, hpositions⟩ := h.block hblock
  rw [hdescribes.pieceContents_map h.index, hpositions, blockAddresses, ← List.map_drop,
    ← List.map_take, hbegin, hlen, blockAddresses, List.length_take, ← List.take_eq_take_min]

theorem Underway.positions_subset (h : Underway torrent contents disk r) {j : ℕ}
    {block : BlockRequest} (hblock : r.blockRequests[j]? = some block) :
    block.positions ⊆ addresses torrent.layout.sizes := by
  rw [(h.block hblock).2.2.2]
  exact fun p hp => pieceAddresses_subset _ _ (blockAddresses_subset _ _ _ hp)

theorem Underway.eq_of_begin (h : Underway torrent contents disk r) {j k : ℕ}
    {block block' : BlockRequest} (hblock : r.blockRequests[j]? = some block)
    (hblock' : r.blockRequests[k]? = some block') (hbegin : block.begin = block'.begin) :
    j = k := by
  have hj := (h.block hblock).2.1
  have hk := (h.block hblock').2.1
  simp only [peerRequestSize] at hj hk
  omega

theorem Underway.nodup_awaited (h : Underway torrent contents disk r)
    (hsmall : (torrent.layout.pieceAddresses r.pieceIndex).length ≤ 2 ^ 32) : r.awaited.Nodup := by
  refine List.Nodup.map_on ?_ (List.Nodup.filter _ ?_)
  · intro block hblock block' hblock' heq
    obtain ⟨j, hj⟩ := List.mem_iff_getElem?.mp (List.mem_filter.mp hblock).1
    obtain ⟨k, hk⟩ := List.mem_iff_getElem?.mp (List.mem_filter.mp hblock').1
    obtain ⟨hlt, hbegin, -⟩ := h.block hj
    obtain ⟨hlt', hbegin', -⟩ := h.block hk
    have hword := congrArg (fun t => t.begin.toNat) heq
    simp only [PieceRequest.ticket] at hword
    rw [UInt32.toNat_ofNat_of_lt' (show block.begin < 2 ^ 32 by omega),
      UInt32.toNat_ofNat_of_lt' (show block'.begin < 2 ^ 32 by omega)] at hword
    obtain rfl := h.eq_of_begin hj hk hword
    exact Option.some.inj (hj.symm.trans hk)
  · rw [List.nodup_iff_getElem?_ne_getElem?]
    intro j k hjk hk heq
    have hsome := List.getElem?_eq_getElem (hjk.trans hk)
    have hjk' := h.eq_of_begin hsome (heq ▸ hsome) rfl
    omega

/-- What a message brings that answers a request for one of the blocks. -/
structure Brings (r : PieceRequest) (msg : PieceMsg) (before : List BlockRequest)
    (block : BlockRequest) (after : List BlockRequest) : Prop where
  split : r.blockRequests = before ++ block :: after
  awaited : block.completed = false
  index : r.pieceIndex = msg.index
  begin_eq : block.begin = msg.begin.toNat
  len_eq : block.len = msg.blockLen

theorem Underway.brings (h : Underway torrent contents disk r)
    (hsmall : (torrent.layout.pieceAddresses r.pieceIndex).length ≤ 2 ^ 32) {msg : PieceMsg}
    (hlen : msg.blockLen < 2 ^ 32)
    (hticket : ⟨msg.index, msg.begin, UInt32.ofNat msg.blockLen⟩ ∈ r.awaited) :
    ∃ before block after, Brings r msg before block after := by
  obtain ⟨block, hblock, hmsg⟩ := List.mem_map.mp hticket
  obtain ⟨hmem, hcompleted⟩ := List.mem_filter.mp hblock
  obtain ⟨before, after, hsplit⟩ := List.append_of_mem hmem
  have hget : r.blockRequests[before.length]? = some block := by simp [hsplit]
  obtain ⟨hlt, hbegin, hblockLen, -⟩ := h.block hget
  have hle := (blockAddresses_length hlt).2
  simp only [PieceRequest.ticket, RequestMsg.mk.injEq] at hmsg
  obtain ⟨hindex, hbegin', hlen'⟩ := hmsg
  refine ⟨before, block, after, hsplit, by simpa using hcompleted, hindex, ?_, ?_⟩
  · rw [← hbegin', UInt32.toNat_ofNat_of_lt' (show block.begin < 2 ^ 32 by omega)]
  · have hword := congrArg UInt32.toNat hlen'
    simp only [peerRequestSize] at hle
    rwa [UInt32.toNat_ofNat_of_lt' (show block.len < 2 ^ 32 by omega),
      UInt32.toNat_ofNat_of_lt' hlen] at hword

section

variable {msg : PieceMsg} {before after : List BlockRequest} {block : BlockRequest}

theorem Brings.receive (hb : Brings r msg before block after)
    (h : Underway torrent contents disk r)
    (hsmall : (torrent.layout.pieceAddresses r.pieceIndex).length ≤ 2 ^ 32) :
    (r.receive msg).blockRequests = before ++ { block with completed := true } :: after ∧
      (r.receive msg).Counted := by
  have hmatch : block.Matches msg := ⟨hb.len_eq, hb.begin_eq⟩
  obtain ⟨-, hall⟩ | ⟨before', found, after', hsplit, hfound, -, heq⟩ :=
    markBlock_cases msg r.blockRequests
  · exact absurd hmatch (hall block (by simp [hb.split]))
  -- the first block that matches is this one
  have hlen : before'.length = before.length := by
    have hget : r.blockRequests[before.length]? = some block := by simp [hb.split]
    have hget' : r.blockRequests[before'.length]? = some found := by simp [hsplit]
    exact h.eq_of_begin hget' hget (hfound.2.trans hmatch.2.symm)
  obtain ⟨rfl, hrest⟩ := List.append_inj (hsplit.symm.trans hb.split) hlen
  obtain ⟨rfl, rfl⟩ := List.cons.inj hrest
  have hcount : r.blocksLeft = (before'.countP fun block => !block.completed) +
      ((after'.countP fun block => !block.completed) + 1) := by
    rw [h.counted, hb.split, List.countP_append, List.countP_cons, hb.awaited]
    rfl
  have hlt : r.blocksLeft < 2 ^ 32 := by
    have hle : r.blocksLeft ≤ r.blockRequests.length := by
      rw [h.counted]
      exact List.countP_le_length
    have hmade : r.blockRequests.length =
        chunkCount peerRequestSize (torrent.layout.pieceAddresses r.pieceIndex).length := by
      rw [← length_blockRequests, ← h.blocks, List.length_map]
    simp only [hmade, chunkCount, peerRequestSize] at hle
    omega
  rw [PieceRequest.Counted, PieceRequest.receive, heq]
  refine ⟨rfl, ?_⟩
  simp only [List.countP_append, List.countP_cons]
  rw [subUnsigned_of_le (by omega) hlt, hcount]
  simp

theorem Brings.awaited_perm (hb : Brings r msg before block after)
    (hreceive : (r.receive msg).blockRequests =
      before ++ { block with completed := true } :: after) :
    r.awaited.Perm (r.ticket block :: (r.receive msg).awaited) := by
  have hticket : (r.receive msg).ticket = r.ticket := by
    funext b
    rw [PieceRequest.ticket, PieceRequest.ticket, pieceIndex_receive]
  rw [PieceRequest.awaited, PieceRequest.awaited, hticket, hreceive, hb.split]
  simp only [List.filter_append, List.filter_cons, hb.awaited, Bool.not_false, Bool.not_true,
    if_true, Bool.false_eq_true, if_false, List.map_append, List.map_cons]
  exact List.perm_middle

/-- When the bytes of a block are written, what has been right stays so. -/
theorem scatter_right {c : Address → UInt8}
    (hstorable : Storable torrent ((addresses torrent.layout.sizes).map c)) {as : List Address}
    (has : as ⊆ addresses torrent.layout.sizes) {p : Address}
    (hp : p ∈ addresses torrent.layout.sizes) (hright : disk p = c p ∨ p ∈ as) :
    scatter torrent.place disk as (as.map c) p = c p :=
  scatter_map_eq _ (hright.imp_right List.mem_map_of_mem) fun q hq hqp =>
    (fits_map_iff _).mp hstorable q (has hq) p hp hqp

/-- The block is put in its place, and the others stay in theirs. -/
theorem Brings.store (hb : Brings r msg before block after)
    (h : Underway torrent contents disk r) (hdescribes : Describes torrent contents) :
    Underway torrent contents (scatter torrent.place disk block.positions
      (((pieceContents torrent contents r.pieceIndex.toNat).drop block.begin).take block.len))
      (r.receive msg) := by
  have hsmall := hdescribes.piece_small r.pieceIndex
  obtain ⟨hreceive, hcounted⟩ := hb.receive h hsmall
  have hget : r.blockRequests[before.length]? = some block := by simp [hb.split]
  refine ⟨by rw [pieceIndex_receive]; exact h.index, ?_, hcounted, fun hstorable => ?_⟩
  · rw [hreceive, pieceIndex_receive, ← h.blocks, hb.split]
    simp [BlockRequest.unmark]
  · intro b hmem hcompleted
    obtain ⟨c, rfl⟩ := hdescribes.exists_values
    rw [pieceIndex_receive, h.block_contents hdescribes hget]
    -- it has been marked before, or it is the block itself
    have hcases : b ∈ r.blockRequests ∨ b = { block with completed := true } := by
      rw [hreceive, List.mem_append, List.mem_cons] at hmem
      rw [hb.split, List.mem_append, List.mem_cons]
      tauto
    rcases hcases with hold | rfl
    · obtain ⟨k, hk⟩ := List.mem_iff_getElem?.mp hold
      have hright := h.stored hstorable b hold hcompleted
      rw [h.block_contents hdescribes hk, List.map_inj_left] at hright
      rw [h.block_contents hdescribes hk]
      exact List.map_congr_left fun p hp => scatter_right hstorable (h.positions_subset hget)
        (h.positions_subset hk hp) (.inl (hright p hp))
    · have hself := h.block_contents hdescribes hget
      dsimp only
      rw [hself]
      exact List.map_congr_left fun p hp => scatter_right hstorable (h.positions_subset hget)
        (h.positions_subset hget hp) (.inr hp)

end

/-- **A PIECE message that is awaited.** It is taken off the stream, its bytes are put
in their place, and what has been right in the files stays so. -/
theorem recvMsg_piece {s : Session} (hdescribes : Describes torrent contents) (hs : s.Accounted)
    (hlayout : s.torrent.layout = torrent.layout) (hat : s.torrent.place = torrent.place)
    (hr : s.state.localRequests = [r])
    (h : Underway torrent contents s.disk r) (hrel : s.sock.RecvReliable) {msg : PieceMsg}
    (hlen : msg.blockLen < 2 ^ 32)
    (hticket : ⟨msg.index, msg.begin, UInt32.ofNat msg.blockLen⟩ ∈ r.awaited) {rest : Bytes}
    (hinp : s.sock.inp = peerWire torrent contents (.piece msg) ++ rest) :
    ∃ (sock : Socket) (disk : Disk), recvMsg s =
        (processMsg Session.sha1Verify { s with sock := sock, disk := disk } (.piece msg) >>=
          fun s => .ok (true, s)) ∧
      RecvStep s.sock sock (peerWire torrent contents (.piece msg)) ∧ sock.inp = rest ∧
      Underway torrent contents disk (r.receive msg) ∧ r.pieceIndex = msg.index ∧
      r.awaited.Perm
        (⟨msg.index, msg.begin, UInt32.ofNat msg.blockLen⟩ :: (r.receive msg).awaited) ∧
      (Storable torrent contents → ∀ c : Address → UInt8,
        (addresses torrent.layout.sizes).map c = contents →
          ∀ p ∈ addresses torrent.layout.sizes, s.disk p = c p → disk p = c p) := by
  have hsmall := hdescribes.piece_small r.pieceIndex
  obtain ⟨before, block, after, hb⟩ := h.brings hsmall hlen hticket
  have hget : r.blockRequests[before.length]? = some block := by simp [hb.split]
  obtain ⟨hlt, hbegin, hblockLen, hpositions⟩ := h.block hget
  have hlt32 : peerRequestSize * before.length < 2 ^ 32 := by omega
  have hword : msg.begin = UInt32.ofNat (peerRequestSize * before.length) := by
    rw [← hbegin, hb.begin_eq, UInt32.ofNat_toNat]
  have hmapped := hs.torrent.mapped_of_requested (hs.requested r (by simp [hr]))
  let bytes := ((pieceContents torrent contents msg.index.toNat).drop msg.begin.toNat).take
    msg.blockLen
  have hbytes : bytes.length = (blockAddresses torrent.layout msg.index before.length).length := by
    simp only [bytes]
    rw [List.length_take, List.length_drop, ← hb.index, hdescribes.length_piece h.index,
      ← hb.len_eq, hblockLen, ← hb.begin_eq, hbegin, blockAddresses, List.length_take,
      List.length_drop]
    omega
  have hreceives := peerMsgRecv_block (readable_block hmapped msg.index before.length)
    (by rw [hlayout, ← hb.index]; exact hlt) hlt32
    (show bytes.length = _ by rw [hlayout, hbytes]) s.disk
  rw [hlayout, hat, ← hword] at hreceives
  obtain ⟨received, sock, heq, rfl, hstep, hrest⟩ := hreceives s.sock rest hrel hinp
  have hmsg : bytes.length = msg.blockLen := by
    rw [hbytes, ← hb.len_eq, hblockLen, hb.index]
  rw [hmsg] at heq
  have hplace : blockAddresses torrent.layout msg.index before.length = block.positions := by
    rw [hpositions, hb.index]
  have hbytes' : bytes = ((pieceContents torrent contents r.pieceIndex.toNat).drop
      block.begin).take block.len := by
    rw [hb.index, hb.begin_eq, hb.len_eq]
  refine ⟨sock, scatter torrent.place s.disk block.positions bytes, ?_, hstep, hrest, ?_, hb.index,
    ?_, fun hstorable c hc p hp hright => ?_⟩
  · dsimp only at heq
    rw [recvMsg, heq, ok_bind, hplace]
  · rw [hbytes']
    exact hb.store h hdescribes
  · have hperm := hb.awaited_perm (hb.receive h hsmall).1
    rwa [PieceRequest.ticket, hb.index, hb.begin_eq, hb.len_eq, UInt32.ofNat_toNat] at hperm
  · subst hc
    rw [hbytes', h.block_contents hdescribes hget]
    exact scatter_right hstorable (h.positions_subset hget) hp (.inl hright)

/-- With nothing awaited any more, the piece is in its place. -/
theorem Underway.complete (h : Underway torrent contents disk r)
    (hdescribes : Describes torrent contents) (hstorable : Storable torrent contents)
    (hnone : r.awaited = []) :
    (torrent.layout.pieceAddresses r.pieceIndex).map disk =
      pieceContents torrent contents r.pieceIndex.toNat := by
  have hlength := hdescribes.length_piece h.index
  refine contents_of_stored hlength fun j hj => ?_
  rw [blockCount, hlength, ← length_blockRequests, ← h.blocks, List.length_map] at hj
  have hget := List.getElem?_eq_getElem hj
  obtain ⟨-, hbegin, hlen, hpositions⟩ := h.block hget
  have hcompleted : r.blockRequests[j].completed = true := by
    rw [PieceRequest.awaited, List.map_eq_nil_iff, List.filter_eq_nil_iff] at hnone
    simpa using hnone _ (List.getElem_mem hj)
  rw [← hpositions, h.stored hstorable _ (List.getElem_mem hj) hcompleted, blockContents, hbegin,
    hlen, ← length_blockContents hlength, blockContents, List.length_take, ← List.take_eq_take_min]

theorem Underway.awaited_eq_nil_iff (h : Underway torrent contents disk r) :
    r.awaited = [] ↔ r.blocksLeft = 0 := by
  rw [← h.counted.whole_iff, PieceRequest.awaited, List.map_eq_nil_iff, List.filter_eq_nil_iff,
    PieceRequest.Whole]
  simp

/-- A request that has just been made: none of its blocks has come. -/
theorem underway_pieceRequestCreate (hdescribes : Describes torrent contents) {index : UInt32}
    (hindex : index.toNat < torrent.pieces.length) (disk : Disk) :
    Underway torrent contents disk (pieceRequestCreate torrent.layout index) ∧
      (pieceRequestCreate torrent.layout index).awaited =
        (pieceRequestCreate torrent.layout index).blockRequests.map
          (pieceRequestCreate torrent.layout index).ticket := by
  have hnone : ∀ block ∈ (pieceRequestCreate torrent.layout index).blockRequests,
      block.completed = false := by
    intro block hblock
    obtain ⟨j, hj⟩ := List.mem_iff_getElem?.mp hblock
    have hlt := (List.getElem?_eq_some_iff.mp hj).1
    rw [length_blockRequests, lt_chunkCount_iff (by decide)] at hlt
    obtain ⟨made, hmade, -, -, hcompleted, -⟩ := exists_blockRequest torrent.layout index j hlt
    rwa [Option.some.inj (hj.symm.trans hmade)]
  refine ⟨⟨hindex, ?_, ?_, fun _ block hblock hcompleted => ?_⟩, ?_⟩
  · refine (List.map_congr_left fun block hblock => ?_).trans (List.map_id _)
    rw [BlockRequest.unmark, ← hnone block hblock]
    rfl
  · exact (sound_pieceRequestCreate (blockRequests_lt_of_dvd hdescribes.aligned _)).counted
  · rw [hnone block hblock] at hcompleted
    cases hcompleted
  · rw [PieceRequest.awaited,
      List.filter_eq_self.mpr fun block hblock => by simp [hnone block hblock]]

/-! ### A piece that is processed -/

def ConnState.setRequests (state : ConnState) (requests : List PieceRequest) : ConnState :=
  { state with
    localRequests := requests
    blocksRecvd := (state.blocksRecvd + 1) % 2 ^ 32 }

theorem processPiece_counted {s : Session} (hr : s.state.localRequests = [r]) {msg : PieceMsg}
    (hindex : r.pieceIndex = msg.index) (hleft : (r.receive msg).blocksLeft ≠ 0) :
    processMsg Session.sha1Verify s (.piece msg) =
      .ok { s with state := s.state.setRequests [r.receive msg] } := by
  rw [processMsg, processPieceMsg, hr, processPieceLoop_singleton, if_neg (not_not.mpr hindex),
    if_pos hleft, ok_bind]
  rfl

/-- The last block: the piece is checked, and when it is found to be right, the peer is
told that we have it. It is right when the contents can be in the files. -/
theorem processPiece_finished {s : Session} (hdescribes : Describes torrent contents)
    (hs : s.Accounted) (hpieces : s.torrent.pieces = torrent.pieces)
    (hlayout : s.torrent.layout = torrent.layout) (hr : s.state.localRequests = [r])
    (hsend : s.sock.SendReliable) {msg : PieceMsg} (hindex : r.pieceIndex = msg.index)
    (h : Underway torrent contents s.disk (r.receive msg)) (hnone : (r.receive msg).awaited = []) :
    ∃ s', processMsg Session.sha1Verify s (.piece msg) = .ok s' ∧ s'.Accounted ∧
      s'.disk = s.disk ∧ s'.state = s.state.setRequests [] ∧
      (Advances (· = r.pieceIndex.toNat) s.torrent s'.torrent ∧
          s'.torrent.sh.piecesLeft + 1 = s.torrent.sh.piecesLeft ∧
          SendStep s.sock s'.sock ((PeerMsg.haveMsg r.pieceIndex).wire torrent) ∨
        ¬ Storable torrent contents ∧ Advances (fun _ => False) s.torrent s'.torrent ∧
          s'.sock = s.sock) := by
  have hrequested := hs.requested r (by simp [hr])
  have hlt := h.index
  rw [pieceIndex_receive] at hlt
  obtain ⟨valid, hverify⟩ := torrentSha1Verify_ok (hs.torrent.mapped_of_requested hrequested) s.disk
    (show r.pieceIndex.toNat < s.torrent.pieces.length by rwa [hpieces])
  have hright : Storable torrent contents → valid = true := by
    intro hstorable
    have hplace := h.complete hdescribes hstorable hnone
    rw [pieceIndex_receive] at hplace
    obtain ⟨piece, hpiece, hvalid⟩ := torrentSha1Verify_eq_ok hverify
    rw [hpieces, hdescribes.digest hlt, Option.some.injEq] at hpiece
    rw [hvalid, hlayout, hplace, hpiece]
  obtain ⟨t, ht, hchecked⟩ := pieceReceived_spec Session.sha1Verify hs.torrent hrequested hverify
  have hstate : t.state = s.state := hchecked.state
  refine ⟨{ t with state := s.state.setRequests [] }, ?_, ?_, hchecked.disk, rfl, ?_⟩
  · rw [processMsg, processPieceMsg, hr, processPieceLoop_singleton, if_neg (not_not.mpr hindex),
      if_neg (not_not.mpr (h.awaited_eq_nil_iff.mp hnone)), pieceIndex_receive, ht]
    simp only [ok_bind, hstate]
    rfl
  · exact ⟨hchecked.accounted,
      hs.peerHave.trans (congrArg List.length hchecked.advances.pieces.symm),
      hs.localHave.trans (congrArg List.length hchecked.advances.pieces.symm), Nat.zero_le _,
      fun r hr => absurd hr List.not_mem_nil⟩
  · cases valid with
    | true =>
        obtain ⟨-, hleft, ok, bytes, -, hstep, hok, hrel⟩ := hchecked.verified rfl
        obtain rfl := hok (hrel hsend)
        rw [wire_congr (hchecked.advances.pieces.trans hpieces)] at hstep
        exact .inl ⟨hchecked.advances.mono fun _ h => h.1, hleft, hstep⟩
    | false =>
        refine .inr ⟨fun hstorable => Bool.false_ne_true (hright hstorable),
          hchecked.advances.mono fun _ h => Bool.false_ne_true h.2, (hchecked.failed rfl).1⟩

end

end Daobell
