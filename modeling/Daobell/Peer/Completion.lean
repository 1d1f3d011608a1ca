import Daobell.Peer.Accounting
import Daobell.Peer.Framing

/-!
The download of a piece. Once a piece has been requested the peer may send its
blocks in any order: each goes to its place in the files, the last one sets off
the check, and nothing happens before. The blocks are counted down and not
looked at again, so that all rests on each of them coming once.
-/

namespace Daobell

open Lib

/-! ### Receiving a block -/

def blockContents (contents : Bytes) (j : ℕ) : Bytes :=
  (contents.drop (peerRequestSize * j)).take peerRequestSize

def blockAddresses (torrent : Layout) (index : UInt32) (j : ℕ) : List Address :=
  ((torrent.pieceAddresses index).drop (peerRequestSize * j)).take peerRequestSize

def blockMsg (index : UInt32) (contents : Bytes) (j : ℕ) : PieceMsg :=
  ⟨index, UInt32.ofNat (peerRequestSize * j), (blockContents contents j).length⟩

/-- A well formed PIECE message with block `j`. -/
def pieceWire (index : UInt32) (contents : Bytes) (j : ℕ) : Bytes :=
  wordBytes (UInt32.ofNat (9 + (blockContents contents j).length)) ++
    ([MsgType.msgPiece.toByte] ++ (wordBytes index ++
      (wordBytes (UInt32.ofNat (peerRequestSize * j)) ++ blockContents contents j)))

/-- The contents of the blocks, when each address is to hold a byte of its own. -/
theorem blockContents_map (torrent : Layout) (index : UInt32) (c : Address → UInt8) (j : ℕ) :
    blockContents ((torrent.pieceAddresses index).map c) j =
      (blockAddresses torrent index j).map c := by
  rw [blockContents, blockAddresses, List.map_take, List.map_drop]

theorem blockAddresses_subset (torrent : Layout) (index : UInt32) (j : ℕ) :
    blockAddresses torrent index j ⊆ torrent.pieceAddresses index :=
  fun _ hp => List.drop_subset _ _ (List.take_subset _ _ hp)

theorem length_blockContents {torrent : Layout} {index : UInt32} {contents : Bytes}
    (hlen : contents.length = (torrent.pieceAddresses index).length) (j : ℕ) :
    (blockContents contents j).length = (blockAddresses torrent index j).length := by
  simp [blockContents, blockAddresses, hlen]

theorem exists_blockAddresses {torrent : Layout} {index : UInt32} {contents : Bytes}
    (hlen : contents.length = (torrent.pieceAddresses index).length) {p : Address}
    (hp : p ∈ torrent.pieceAddresses index) :
    ∃ j < chunkCount peerRequestSize contents.length, p ∈ blockAddresses torrent index j := by
  obtain ⟨k, hk, rfl⟩ := List.mem_iff_getElem.mp hp
  have hsize : 0 < peerRequestSize := by decide
  refine ⟨k / peerRequestSize, (lt_chunkCount_iff hsize).mpr ?_, mem_window.mpr
    ⟨k, Nat.mul_div_le k _, Nat.lt_mul_div_succ k hsize, List.getElem?_eq_getElem hk⟩⟩
  rw [hlen]
  exact (Nat.mul_div_le k _).trans_lt hk

theorem blockAddresses_length {torrent : Layout} {index : UInt32} {j : ℕ}
    (hj : peerRequestSize * j < (torrent.pieceAddresses index).length) :
    0 < (blockAddresses torrent index j).length ∧
      (blockAddresses torrent index j).length ≤ peerRequestSize := by
  rw [blockAddresses, List.length_take, List.length_drop]
  simp only [peerRequestSize] at *
  omega

theorem pieceRequestBlockAt_block {torrent : Layout} {index : UInt32} {j : ℕ}
    (hj : peerRequestSize * j < (torrent.pieceAddresses index).length) :
    ∃ block ∈ (pieceRequestCreate torrent index).blockRequests,
      pieceRequestBlockAt (pieceRequestCreate torrent index) (peerRequestSize * j) = some block ∧
      block.begin = peerRequestSize * j ∧
      block.len = (blockAddresses torrent index j).length ∧
      block.positions = blockAddresses torrent index j := by
  obtain ⟨block, hblock, hbegin, hlen, -, hpos⟩ := exists_blockRequest torrent index j hj
  obtain ⟨hlt, rfl⟩ := List.getElem?_eq_some_iff.mp hblock
  refine ⟨_, List.getElem_mem hlt, ?_, hbegin, by simp [hlen, blockAddresses], hpos⟩
  rw [pieceRequestBlockAt, List.find?_eq_some_iff_getElem]
  refine ⟨by simpa using hbegin, j, hlt, rfl, fun i hi => ?_⟩
  obtain ⟨block', hblock', hbegin', -⟩ := exists_blockRequest torrent index i
    (by simp only [peerRequestSize] at *; omega)
  obtain ⟨_, rfl⟩ := List.getElem?_eq_some_iff.mp hblock'
  simp only [hbegin', peerRequestSize, Bool.not_eq_true', decide_eq_false_iff_not]
  omega

theorem readable_block {torrent : TorrentInfo} (hall : ∀ f ∈ torrent.files, f.mapped = true)
    (index : UInt32) (j : ℕ) : Readable torrent (blockAddresses torrent.layout index j) := by
  intro p hp
  have hmem : p ∈ addresses torrent.layout.sizes :=
    pieceAddresses_subset torrent.layout index (blockAddresses_subset torrent.layout index j hp)
  obtain ⟨-, size, hsize, -⟩ := mem_addressesFrom.mp hmem
  rw [Nat.sub_zero, TorrentInfo.layout, List.getElem?_map, Option.map_eq_some_iff] at hsize
  obtain ⟨f, hf, -⟩ := hsize
  exact ⟨f, hf, hall f (List.mem_of_getElem? hf)⟩

/-- While the files are mapped, the bytes of a block go where the layout says. -/
theorem recvMems_spec {torrent : TorrentInfo} {mems : List FileMem}
    (hmapped : ∀ mem ∈ mems, 0 < mem.size → torrent.isMapped mem = true) {sock : Socket}
    (hrel : sock.RecvReliable) (disk : Disk) {bytes rest : Bytes} (hinp : sock.inp = bytes ++ rest)
    (hlen : bytes.length = (mems.flatMap FileMem.positions).length)
    (hlen32 : bytes.length < 2 ^ 32) :
    ∃ sock', recvMems torrent mems sock disk =
        (sock', scatter torrent.place disk (mems.flatMap FileMem.positions) bytes) ∧
      RecvStep sock sock' bytes ∧ sock'.inp = rest := by
  induction mems generalizing sock disk bytes with
  | nil =>
      have hnil : bytes = [] := List.length_eq_zero_iff.mp hlen
      subst hnil
      exact ⟨sock, rfl, RecvStep.refl sock, hinp⟩
  | cons mem mems ih =>
      obtain ⟨hmem, hmems⟩ := List.forall_mem_cons.mp hmapped
      have hsize : mem.positions.length = mem.size := length_span _ _ _
      rw [List.flatMap_cons, List.length_append, hsize] at hlen
      rw [recvMems, List.flatMap_cons]
      rcases Nat.eq_zero_or_pos mem.size with h0 | hpos
      -- an empty range: nothing is received, mapped or not
      · have hnil : mem.positions = [] := List.length_eq_zero_iff.mp (hsize.trans h0)
        have hbuff : peerRecvBuff sock mem.size = (false, [], sock) := by
          rw [peerRecvBuff, if_pos h0]
        simp only [hbuff, hnil, scatter_nil_right, ite_self, List.nil_append]
        exact ih hmems hrel disk hinp (by omega) hlen32
      · rw [if_pos (hmem hpos)]
        have hstep := (peerRecvBuff_spec sock mem.size).1
        obtain ⟨-, hbytes, hrest⟩ := peerRecvBuff_reliable hrel hpos (by omega)
        have htake : sock.inp.take mem.size = bytes.take mem.size := by
          rw [hinp, List.take_append_of_le_length (by omega)]
        have hdrop : sock.inp.drop mem.size = bytes.drop mem.size ++ rest := by
          rw [hinp, List.drop_append_of_le_length (by omega)]
        rw [htake] at hbytes
        rw [hdrop] at hrest
        rw [hbytes] at hstep
        obtain ⟨sock', heq, hstep', hinp'⟩ := ih hmems (hstep.reliable hrel)
          (scatter torrent.place disk mem.positions (bytes.take mem.size)) hrest
          (by rw [List.length_drop]; omega) (by rw [List.length_drop]; omega)
        have hwritten : scatter torrent.place disk
            (mem.positions ++ mems.flatMap FileMem.positions) bytes =
            scatter torrent.place (scatter torrent.place disk mem.positions (bytes.take mem.size))
              (mems.flatMap FileMem.positions) (bytes.drop mem.size) := by
          conv_lhs => rw [← List.take_append_drop mem.size bytes]
          exact scatter_append _ _ _ _ _ _ (by rw [hsize, List.length_take]; omega)
        rw [hwritten]
        refine ⟨sock', ?_, ?_, hinp'⟩
        · rw [← hbytes] at heq ⊢
          exact heq
        · rw [← List.take_append_drop mem.size bytes]
          exact hstep.trans hstep'

def blockWire (index begin : UInt32) (bytes : Bytes) : Bytes :=
  wordBytes (UInt32.ofNat (9 + bytes.length)) ++
    ([MsgType.msgPiece.toByte] ++ (wordBytes index ++ (wordBytes begin ++ bytes)))

/-- Behind the header of a PIECE message that names block `j`. -/
theorem peerMsgRecvBlock_receives {torrent : TorrentInfo} {index : UInt32} {j : ℕ}
    (hmapped : Readable torrent (blockAddresses torrent.layout index j))
    (hj : peerRequestSize * j < (torrent.layout.pieceAddresses index).length)
    (hj32 : peerRequestSize * j < 2 ^ 32) {bytes : Bytes}
    (hlen : bytes.length = (blockAddresses torrent.layout index j).length)
    (hlen32 : bytes.length < 2 ^ 32) (disk : Disk) :
    Receives (fun sock => peerMsgRecvBlock sock torrent disk index
      (UInt32.ofNat (peerRequestSize * j)) bytes.length) bytes
      (scatter torrent.place disk (blockAddresses torrent.layout index j) bytes)
      (· = .piece ⟨index, UInt32.ofNat (peerRequestSize * j), bytes.length⟩) := by
  intro sock rest hrel hinp
  obtain ⟨block, hmem, hblock, -, -, hpositions⟩ := pieceRequestBlockAt_block hj
  rw [← hpositions] at hmapped
  obtain ⟨sock', heq, hstep, hrest⟩ := recvMems_spec (readable_mems.mp hmapped) hrel disk hinp
    (hlen.trans (congrArg List.length hpositions).symm) hlen32
  rw [← hpositions]
  refine ⟨_, sock', ?_, rfl, hstep, hrest⟩
  simp only [peerMsgRecvBlock, UInt32.toNat_ofNat_of_lt' hj32, hblock, heq]
  rfl

/-- **Receiving a block.** A well formed PIECE message is taken off the stream,
and its bytes are put at the addresses of the block. -/
theorem peerMsgRecv_block {torrent : TorrentInfo} {index : UInt32} {j : ℕ}
    (hmapped : Readable torrent (blockAddresses torrent.layout index j))
    (hj : peerRequestSize * j < (torrent.layout.pieceAddresses index).length)
    (hj32 : peerRequestSize * j < 2 ^ 32) {bytes : Bytes}
    (hlen : bytes.length = (blockAddresses torrent.layout index j).length) (disk : Disk) :
    Receives (fun sock => peerMsgRecv sock torrent disk)
      (blockWire index (UInt32.ofNat (peerRequestSize * j)) bytes)
      (scatter torrent.place disk (blockAddresses torrent.layout index j) bytes)
      (· = .piece ⟨index, UInt32.ofNat (peerRequestSize * j), bytes.length⟩) := by
  have hpos : 0 < bytes.length := (blockAddresses_length hj).1.trans_eq hlen.symm
  have hle : bytes.length ≤ peerRequestSize := hlen.trans_le (blockAddresses_length hj).2
  have hlen32 : 9 + bytes.length < 2 ^ 32 := by
    simp only [peerRequestSize] at hle
    omega
  have hvalid : validLen .msgPiece torrent (9 + bytes.length) = true := by
    simp only [validLen, if_true, decide_eq_true_eq]
    omega
  have hleft : subUnsigned (subUnsigned (9 + bytes.length - 1) 4) 4 = bytes.length := by
    rw [subUnsigned_header (by omega) hlen32, Nat.add_sub_cancel_left]
  refine receives_typed (by simp) (by omega) hlen32 hvalid ?_
  have hpayload0 : 0 < 9 + bytes.length - 1 := by omega
  simp only [peerMsgRecvPayload, assertThen, if_pos hpayload0, peerMsgRecvPiece, hleft]
  refine Receives.recvThen (a := wordBytes index) (fun b₀ sock =>
    recvThen sock disk 4 fun b₁ sock =>
    peerMsgRecvBlock sock torrent disk (wordAt b₀) (wordAt b₁) bytes.length)
    (by simp [wordBytes]) (by simp [wordBytes]) ?_
  rw [wordAt_wordBytes_self]
  refine Receives.recvThen (a := wordBytes (UInt32.ofNat (peerRequestSize * j)))
    (fun b₁ sock => peerMsgRecvBlock sock torrent disk index (wordAt b₁) bytes.length)
    (by simp [wordBytes]) (by simp [wordBytes]) ?_
  rw [wordAt_wordBytes_self]
  exact peerMsgRecvBlock_receives hmapped hj hj32 hlen (by omega) disk

theorem peerMsgRecv_piece {torrent : TorrentInfo}
    (hall : ∀ f ∈ torrent.files, f.mapped = true) {index : UInt32} {contents : Bytes}
    (hlen : contents.length = (torrent.layout.pieceAddresses index).length) {j : ℕ}
    (hj : peerRequestSize * j < (torrent.layout.pieceAddresses index).length)
    (hj32 : peerRequestSize * j < 2 ^ 32) (disk : Disk) :
    Receives (fun sock => peerMsgRecv sock torrent disk) (pieceWire index contents j)
      (scatter torrent.place disk (blockAddresses torrent.layout index j) (blockContents contents j))
      (· = .piece (blockMsg index contents j)) :=
  peerMsgRecv_block (readable_block hall index j) hj hj32 (length_blockContents hlen j) disk

/-! ### Counting the blocks down -/

def PieceRequest.extents (r : PieceRequest) : List (ℕ × ℕ) :=
  r.blockRequests.map fun block => (block.begin, block.len)

theorem markBlock_spec {msg : PieceMsg} {blocks : List BlockRequest}
    (h : (msg.begin.toNat, msg.blockLen) ∈ blocks.map fun block => (block.begin, block.len)) :
    ∃ marked, markBlock msg blocks = some marked ∧
      marked.map (fun block => (block.begin, block.len)) =
        blocks.map fun block => (block.begin, block.len) := by
  rcases markBlock_cases msg blocks with ⟨-, hall⟩ | ⟨before, block, after, rfl, -, -, heq⟩
  · obtain ⟨block, hblock, hextent⟩ := List.mem_map.mp h
    rw [Prod.mk.injEq] at hextent
    exact absurd ⟨hextent.2, hextent.1⟩ (hall block hblock)
  · exact ⟨_, heq, by simp⟩

theorem receive_spec {r : PieceRequest} {msg : PieceMsg} {n : ℕ}
    (h : (msg.begin.toNat, msg.blockLen) ∈ r.extents) (hleft : r.blocksLeft = n + 1)
    (hn : n + 1 < 2 ^ 32) :
    (r.receive msg).blocksLeft = n ∧ (r.receive msg).extents = r.extents := by
  obtain ⟨marked, heq, hmap⟩ := markBlock_spec h
  rw [PieceRequest.receive, heq]
  refine ⟨?_, hmap⟩
  simp only
  rw [hleft, subUnsigned_of_le (by omega) hn, Nat.add_sub_cancel]

/-- A piece has been requested, and the peer is going to send these contents. -/
structure Requested (start : Session) (index : UInt32) (contents : Bytes) : Prop where
  accounted : start.Accounted
  request : start.state.localRequests = [pieceRequestCreate start.torrent.layout index]
  length : contents.length = (start.torrent.layout.pieceAddresses index).length
  small : contents.length < 2 ^ 32

section

variable {start : Session} {index : UInt32} {contents : Bytes}

theorem Requested.state (h : Requested start index contents) :
    start.torrent.sh.piecesState[index.toNat]? = some .stateRequested :=
  h.accounted.requested (pieceRequestCreate start.torrent.layout index) (by simp [h.request])

theorem Requested.mapped (h : Requested start index contents) :
    ∀ f ∈ start.torrent.files, f.mapped = true :=
  h.accounted.torrent.mapped_of_requested h.state

def blockCount (contents : Bytes) : ℕ := chunkCount peerRequestSize contents.length

theorem blockCount_lt (h : Requested start index contents) : blockCount contents < 2 ^ 32 := by
  have hsmall := h.small
  simp only [blockCount, chunkCount, peerRequestSize]
  omega

theorem blocksLeft_eq (h : Requested start index contents) :
    (pieceRequestCreate start.torrent.layout index).blocksLeft = blockCount contents := by
  have hlt := blockCount_lt h
  rw [blockCount, h.length, ← length_blockRequests] at hlt ⊢
  exact Nat.mod_eq_of_lt hlt

theorem start_of_block (h : Requested start index contents) {j : ℕ} (hj : j < blockCount contents) :
    peerRequestSize * j < (start.torrent.layout.pieceAddresses index).length ∧
      peerRequestSize * j < 2 ^ 32 := by
  have hlt : peerRequestSize * j < contents.length := (lt_chunkCount_iff (by decide)).mp hj
  exact ⟨h.length ▸ hlt, hlt.trans h.small⟩

theorem extent_of_block (h : Requested start index contents) {j : ℕ} (hj : j < blockCount contents) :
    ((blockMsg index contents j).begin.toNat, (blockMsg index contents j).blockLen) ∈
      (pieceRequestCreate start.torrent.layout index).extents := by
  obtain ⟨hstart, hstart32⟩ := start_of_block h hj
  obtain ⟨block, hblock, -, hbegin, hlen, -⟩ := pieceRequestBlockAt_block hstart
  refine List.mem_map.mpr ⟨block, hblock, ?_⟩
  rw [blockMsg, hbegin, hlen, UInt32.toNat_ofNat_of_lt' hstart32, length_blockContents h.length j]

/-- Where the session is when the blocks `before` have come and the blocks
`after` have not. -/
structure Partway (start : Session) (index : UInt32) (contents : Bytes)
    (before after : List ℕ) (s : Session) : Prop where
  accounted : s.Accounted
  torrent : s.torrent = start.torrent
  log : s.log = start.log
  out : s.sock.out = start.sock.out
  sends : s.sock.sends = start.sock.sends
  request : ∃ r, s.state.localRequests = [r] ∧ r.pieceIndex = index ∧
    r.blocksLeft = after.length ∧
    r.extents = (pieceRequestCreate start.torrent.layout index).extents
  uniform : ∀ j ∈ before, ∀ p ∈ blockAddresses start.torrent.layout index j, ∀ q,
    start.torrent.place p = start.torrent.place q → s.disk p = s.disk q
  stored : Fits start.torrent.place (start.torrent.layout.pieceAddresses index) contents →
    ∀ j ∈ before, (blockAddresses start.torrent.layout index j).map s.disk =
      blockContents contents j

theorem partway_start (h : Requested start index contents) {order : List ℕ}
    (horder : order.Perm (List.range (blockCount contents))) :
    Partway start index contents [] order start where
  accounted := h.accounted
  torrent := rfl
  log := rfl
  out := rfl
  sends := rfl
  request := ⟨_, h.request, rfl, by rw [blocksLeft_eq h, horder.length_eq, List.length_range], rfl⟩
  uniform := by simp
  stored := by simp

/-- What block `j` leaves in the files: at all addresses of a byte the same, and, if the
contents fit, what they say. -/
theorem scatter_block (hstart : Requested start index contents) {before : List ℕ} {disk : Disk}
    (huniform : ∀ i ∈ before, ∀ p ∈ blockAddresses start.torrent.layout index i, ∀ q,
      start.torrent.place p = start.torrent.place q → disk p = disk q)
    (hstored : Fits start.torrent.place (start.torrent.layout.pieceAddresses index) contents →
      ∀ i ∈ before, (blockAddresses start.torrent.layout index i).map disk =
        blockContents contents i)
    (j : ℕ) :
    let disk' := scatter start.torrent.place disk (blockAddresses start.torrent.layout index j)
      (blockContents contents j)
    (∀ i ∈ before ++ [j], ∀ p ∈ blockAddresses start.torrent.layout index i, ∀ q,
      start.torrent.place p = start.torrent.place q → disk' p = disk' q) ∧
    (Fits start.torrent.place (start.torrent.layout.pieceAddresses index) contents →
      ∀ i ∈ before ++ [j], (blockAddresses start.torrent.layout index i).map disk' =
        blockContents contents i) := by
  intro disk'
  refine ⟨fun i hi p hp q hpq => ?_, fun hfits i hi => ?_⟩
  · refine scatter_congr _ (length_blockContents hstart.length j).ge hpq ?_
    rcases List.mem_append.mp hi with hi | hi
    · exact .inl (huniform i hi p hp q hpq)
    · rw [List.mem_singleton.mp hi] at hp
      exact .inr (List.mem_map_of_mem hp)
  · obtain ⟨c, rfl⟩ := exists_map_eq (nodup_pieceAddresses start.torrent.layout index)
      hstart.length.symm
    rw [blockContents_map]
    refine List.map_congr_left fun p hp => ?_
    have hin := blockAddresses_subset start.torrent.layout index
    simp only [disk', blockContents_map]
    refine scatter_map_eq _ ?_ fun q hq hqp =>
      (fits_map_iff _).mp hfits q (hin j hq) p (hin i hp) hqp
    rcases List.mem_append.mp hi with hi | hi
    · have hold := hstored hfits i hi
      rw [blockContents_map, List.map_inj_left] at hold
      exact .inl (hold p hp)
    · rw [List.mem_singleton.mp hi] at hp
      exact .inr (List.mem_map_of_mem hp)

/-- The session once block `j` has been received, before it is processed. -/
theorem Partway.receive {before after : List ℕ} {s : Session} {j : ℕ} {rest : Bytes}
    (h : Partway start index contents before (j :: after) s)
    (hstart : Requested start index contents) (hj : j < blockCount contents)
    (hrel : s.sock.RecvReliable) (hinp : s.sock.inp = pieceWire index contents j ++ rest) :
    ∃ sock : Socket,
      (recvMsg s = processMsg Session.sha1Verify { s with
        sock := sock
        disk := scatter start.torrent.place s.disk (blockAddresses start.torrent.layout index j)
          (blockContents contents j) } (.piece (blockMsg index contents j)) >>=
        fun s => .ok (true, s)) ∧
      RecvStep s.sock sock (pieceWire index contents j) ∧ sock.inp = rest := by
  obtain ⟨hstart', hstart32⟩ := start_of_block hstart hj
  have hmapped := hstart.mapped
  have hlength := hstart.length
  rw [← h.torrent] at hstart' hmapped hlength
  obtain ⟨msg, sock, heq, rfl, hstep, hrest⟩ :=
    peerMsgRecv_piece hmapped hlength hstart' hstart32 s.disk s.sock rest hrel hinp
  dsimp only at heq
  rw [h.torrent] at heq
  exact ⟨sock, by rw [recvMsg, h.torrent, heq, ok_bind], hstep, hrest⟩

/-- **A block on the way.** It is stored and counted, and nothing else happens. -/
theorem Partway.step {before after : List ℕ} {s : Session} {j : ℕ} {rest : Bytes}
    (h : Partway start index contents before (j :: after) s)
    (hstart : Requested start index contents) (hj : j < blockCount contents)
    (hafter : after ≠ []) (hlen : (j :: after).length < 2 ^ 32)
    (hrel : s.sock.RecvReliable) (hinp : s.sock.inp = pieceWire index contents j ++ rest) :
    ∃ s', recvMsg s = .ok (true, s') ∧ Partway start index contents (before ++ [j]) after s' ∧
      s'.sock.RecvReliable ∧ s'.sock.inp = rest := by
  obtain ⟨sock, heq, hstep, hrest⟩ := h.receive hstart hj hrel hinp
  obtain ⟨huniform, hstored⟩ := scatter_block hstart h.uniform h.stored j
  obtain ⟨r, hr, hindex, hleft, hextents⟩ := h.request
  obtain ⟨hleft', hextents'⟩ := receive_spec (hextents ▸ extent_of_block hstart hj) hleft hlen
  have hne : (r.receive (blockMsg index contents j)).blocksLeft ≠ 0 := by
    rw [hleft']
    exact List.length_eq_zero_iff.not.mpr hafter
  rw [heq, processMsg, processPieceMsg, hr, processPieceLoop_singleton,
    if_neg (by simp [hindex, blockMsg]), if_pos hne, ok_bind, ok_bind]
  refine ⟨_, rfl, ⟨⟨h.accounted.torrent, h.accounted.peerHave, h.accounted.localHave, le_rfl, ?_⟩,
    h.torrent, h.log, hstep.out.trans h.out, hstep.sends.trans h.sends,
    ⟨_, rfl, (pieceIndex_receive _ _).trans hindex, hleft', hextents'.trans hextents⟩, huniform,
    hstored⟩, hstep.reliable hrel, hrest⟩
  intro r' hr'
  rw [List.mem_singleton.mp hr', pieceIndex_receive]
  exact h.accounted.requested r (by simp [hr])

theorem contents_of_stored {torrent : Layout}
    (hlen : contents.length = (torrent.pieceAddresses index).length) {disk : Disk}
    (hstored : ∀ j < blockCount contents, (blockAddresses torrent index j).map disk =
      blockContents contents j) : (torrent.pieceAddresses index).map disk = contents := by
  refine eq_of_chunks (c := peerRequestSize) (by decide) (by rw [List.length_map, hlen]) ?_
  intro j hj
  rw [List.length_map, ← hlen] at hj
  rw [← List.map_drop, ← List.map_take]
  exact hstored j hj

/-- The check of the piece says whether what is stored has the hash that the metainfo
asks for. -/
theorem Requested.verify (h : Requested start index contents) (disk : Disk) :
    ∃ valid, torrentSha1Verify start.torrent disk index = .ok valid ∧
      (valid = true ↔ start.torrent.pieces[index.toNat]? =
        some (sha1 ((start.torrent.layout.pieceAddresses index).map disk))) := by
  have hlt : index.toNat < start.torrent.pieces.length := by
    rw [← h.accounted.torrent.length]
    exact (List.getElem?_eq_some_iff.mp h.state).1
  obtain ⟨valid, hverify⟩ := torrentSha1Verify_ok h.mapped disk hlt
  obtain ⟨piece, hpiece, hvalid⟩ := torrentSha1Verify_eq_ok hverify
  exact ⟨valid, hverify, by rw [hpiece, Option.some.injEq, hvalid]⟩

/-- What the check of the piece comes to: it is hashed once, and when the hash is
the one in the metainfo, the piece is there and a HAVE message goes out. -/
structure Completed (start : Session) (index : UInt32) (as : List Address) (contents : Bytes)
    (s : Session) : Prop where
  request : s.state.localRequests = []
  stored : as.map s.disk = contents
  valid : start.torrent.pieces[index.toNat]? = some (sha1 contents) →
    s.torrent.sh.piecesState[index.toNat]? = some .stateHave ∧
    s.torrent.sh.piecesLeft + 1 = start.torrent.sh.piecesLeft ∧
    ∃ ok bytes, s.log = start.log ++ [.sha1Verify index true, .msgSend (.haveMsg index) ok] ∧
      s.sock.out = start.sock.out ++ bytes ∧
      (ok = true → bytes = (PeerMsg.haveMsg index).wire start.torrent) ∧
      (start.sock.SendReliable → ok = true)
  invalid : start.torrent.pieces[index.toNat]? ≠ some (sha1 contents) →
    s.torrent.sh.piecesState[index.toNat]? = some .stateNotRequested ∧
    s.torrent.sh.piecesLeft = start.torrent.sh.piecesLeft ∧
    s.log = start.log ++ [.sha1Verify index false] ∧ s.sock.out = start.sock.out

/-- **The last block.** It sets off the check of what is now in the files. -/
theorem Partway.finish {before : List ℕ} {s : Session} {j : ℕ} {rest : Bytes}
    (h : Partway start index contents before [j] s) (hstart : Requested start index contents)
    (horder : (before ++ [j]).Perm (List.range (blockCount contents)))
    (hrel : s.sock.RecvReliable) (hinp : s.sock.inp = pieceWire index contents j ++ rest) :
    ∃ s', recvMsg s = .ok (true, s') ∧
      Completed start index (start.torrent.layout.pieceAddresses index)
        ((start.torrent.layout.pieceAddresses index).map s'.disk) s' ∧
      (∀ p ∈ start.torrent.layout.pieceAddresses index, ∀ q,
        start.torrent.place p = start.torrent.place q → s'.disk p = s'.disk q) ∧
      (Fits start.torrent.place (start.torrent.layout.pieceAddresses index) contents →
        (start.torrent.layout.pieceAddresses index).map s'.disk = contents) := by
  have hmem : ∀ i, i ∈ before ++ [j] ↔ i < blockCount contents := by
    intro i
    rw [horder.mem_iff, List.mem_range]
  obtain ⟨sock, heq, hstep, hrest⟩ := h.receive hstart ((hmem j).mp (by simp)) hrel hinp
  obtain ⟨huniform, hstored⟩ := scatter_block hstart h.uniform h.stored j
  obtain ⟨r, hr, hindex, hleft, hextents⟩ := h.request
  obtain ⟨hleft', -⟩ := receive_spec
    (hextents ▸ extent_of_block hstart ((hmem j).mp (by simp))) hleft (by decide)
  generalize scatter start.torrent.place s.disk (blockAddresses start.torrent.layout index j)
    (blockContents contents j) = disk at heq huniform hstored
  obtain ⟨valid, hverify, hiff⟩ := hstart.verify disk
  let t : Session := { s with sock := sock, disk := disk }
  have htorrent : t.torrent = start.torrent := h.torrent
  have hrequested := hstart.state
  have haccounted := hstart.accounted.torrent
  rw [← htorrent] at hrequested haccounted hverify
  obtain ⟨s', hreceived, hchecked⟩ := pieceReceived_spec Session.sha1Verify haccounted
    hrequested hverify
  have hdisk : s'.disk = disk := hchecked.disk
  rw [heq, processMsg, processPieceMsg, hr, processPieceLoop_singleton,
    if_neg (by simp [hindex, blockMsg]), if_neg (by simp [hleft']), pieceIndex_receive, hindex,
    hreceived, ok_bind, ok_bind, ok_bind]
  have hlog : t.log = start.log := h.log
  have hout : t.sock.out = start.sock.out := hstep.out.trans h.out
  have hsends : t.sock.sends = start.sock.sends := hstep.sends.trans h.sends
  refine ⟨_, rfl, ⟨rfl, rfl, fun hv => ?_, fun hv => ?_⟩, fun p hp => ?_, fun hfits => ?_⟩
  · obtain ⟨hhas, hcount, ok, bytes, hlog', hsent, hok, hsure⟩ :=
      hchecked.verified (hiff.mpr (hdisk ▸ hv))
    rw [hlog] at hlog'
    refine ⟨hhas, htorrent ▸ hcount, ok, bytes, hlog', ?_, hok, fun hreliable => hsure ?_⟩
    · rw [← hout]
      exact hsent.out
    · rw [Socket.SendReliable, hsends]
      exact hreliable
  · obtain ⟨hsock, hstate, hcount, hlog'⟩ := hchecked.failed
      (Bool.eq_false_iff.mpr fun hcontra => hv (hdisk ▸ hiff.mp hcontra))
    rw [hlog] at hlog'
    refine ⟨hstate, htorrent ▸ hcount, hlog', ?_⟩
    rw [← hout, ← hsock]
  · obtain ⟨i, hi, hblock⟩ := exists_blockAddresses hstart.length hp
    rw [hdisk]
    exact huniform i ((hmem i).mpr hi) p hblock
  · rw [hdisk]
    exact contents_of_stored hstart.length fun i hi => hstored hfits i ((hmem i).mpr hi)

/-! ### All the blocks -/

/-- The loop of `process_queued_msgs`, for `k` messages. -/
def recvMsgs : ℕ → Session → Except Crash (Bool × Session)
  | 0, s => .ok (true, s)
  | k + 1, s => recvMsg s >>= fun r => if r.1 then recvMsgs k r.2 else .ok (false, r.2)

theorem recvMsgs_succ {s s' : Session} (h : recvMsg s = .ok (true, s')) (k : ℕ) :
    recvMsgs (k + 1) s = recvMsgs k s' := by
  rw [recvMsgs, h, ok_bind, if_pos rfl]

theorem recvMsgs_add {s t : Session} {k : ℕ} (h : recvMsgs k s = .ok (true, t)) (l : ℕ) :
    recvMsgs (k + l) s = recvMsgs l t := by
  induction k generalizing s with
  | zero =>
      cases h
      rw [Nat.zero_add]
  | succ k ih =>
      obtain ⟨⟨ok, s'⟩, hrecv, hrest⟩ := bind_eq_ok.mp h
      rw [Nat.succ_add, recvMsgs, hrecv, ok_bind]
      cases ok with
      | false => cases hrest
      | true => exact ih hrest

/-- **Blocks on the way**, any number of them. -/
theorem Partway.steps {before mid after : List ℕ} {s : Session} {rest : Bytes}
    (h : Partway start index contents before (mid ++ after) s)
    (hstart : Requested start index contents)
    (horder : (before ++ (mid ++ after)).Perm (List.range (blockCount contents)))
    (hafter : after ≠ []) (hrel : s.sock.RecvReliable)
    (hinp : s.sock.inp = (mid ++ after).flatMap (pieceWire index contents) ++ rest) :
    ∃ s', recvMsgs mid.length s = .ok (true, s') ∧
      Partway start index contents (before ++ mid) after s' ∧ s'.sock.RecvReliable ∧
      s'.sock.inp = after.flatMap (pieceWire index contents) ++ rest := by
  induction mid generalizing before s with
  | nil => exact ⟨s, rfl, by simpa using h, hrel, hinp⟩
  | cons j mid ih =>
      have hj : j < blockCount contents :=
        List.mem_range.mp (horder.mem_iff.mp (by simp))
      have hlen : (j :: (mid ++ after)).length < 2 ^ 32 := by
        have hcount := horder.length_eq
        have hlt := blockCount_lt hstart
        rw [List.length_append, List.length_range] at hcount
        exact lt_of_le_of_lt (hcount ▸ Nat.le_add_left _ _) hlt
      rw [List.cons_append, List.flatMap_cons, List.append_assoc] at hinp
      obtain ⟨t, heq, hpartway, hrel', hrest⟩ :=
        Partway.step h hstart hj (by simp [hafter]) hlen hrel hinp
      rw [List.cons_append, List.append_cons] at horder
      obtain ⟨s', heq', hpartway', hdone⟩ := ih hpartway horder hrel' hrest
      rw [List.append_cons]
      exact ⟨s', (recvMsgs_succ heq _).trans heq', hpartway', hdone⟩

end

/-- The peer sends the blocks of a piece that has been requested, in this order. Nothing
but the countdown happens before the last one; with the last one the piece is stored,
hashed once, and taken or given up by its hash. -/
def Completes (start : Session) (index : UInt32) (as : List Address) (contents : Bytes)
    (order : List ℕ) : Prop :=
  (∀ before after, order = before ++ after → after ≠ [] →
    ∃ s', recvMsgs before.length start = .ok (true, s') ∧
      s'.log = start.log ∧ s'.sock.out = start.sock.out ∧ s'.torrent = start.torrent ∧
      s'.torrent.sh.piecesState[index.toNat]? = some .stateRequested ∧
      ∃ r, s'.state.localRequests = [r] ∧ r.pieceIndex = index ∧ r.blocksLeft = after.length) ∧
    ∀ before last, order = before ++ [last] →
      ∃ s', recvMsgs order.length start = .ok (true, s') ∧ Completed start index as contents s'

theorem completes_iff {start : Session} {index : UInt32} {contents : Bytes}
    (hstart : Requested start index contents) {order : List ℕ}
    (horder : order.Perm (List.range (blockCount contents))) (hrel : start.sock.RecvReliable)
    {rest : Bytes} (hinp : start.sock.inp = order.flatMap (pieceWire index contents) ++ rest) :
    Completes start index (start.torrent.layout.pieceAddresses index) contents order ↔
      Fits start.torrent.place (start.torrent.layout.pieceAddresses index) contents := by
  have hsteps : ∀ before after, order = before ++ after → after ≠ [] →
      ∃ s', recvMsgs before.length start = .ok (true, s') ∧
        Partway start index contents before after s' ∧ s'.sock.RecvReliable ∧
        s'.sock.inp = after.flatMap (pieceWire index contents) ++ rest := by
    rintro before after rfl hafter
    exact (partway_start hstart horder).steps hstart horder hafter hrel hinp
  have hlast : ∀ before last, order = before ++ [last] →
      ∃ s', recvMsgs order.length start = .ok (true, s') ∧
        Completed start index (start.torrent.layout.pieceAddresses index)
          ((start.torrent.layout.pieceAddresses index).map s'.disk) s' ∧
        (∀ p ∈ start.torrent.layout.pieceAddresses index, ∀ q,
          start.torrent.place p = start.torrent.place q → s'.disk p = s'.disk q) ∧
        (Fits start.torrent.place (start.torrent.layout.pieceAddresses index) contents →
          (start.torrent.layout.pieceAddresses index).map s'.disk = contents) := by
    rintro before last rfl
    obtain ⟨t, hrecv, hpartway, hrel', hinp'⟩ := hsteps before [last] rfl (by simp)
    rw [List.flatMap_singleton] at hinp'
    obtain ⟨s', heq, hfinish⟩ := hpartway.finish hstart horder hrel' hinp'
    refine ⟨s', ?_, hfinish⟩
    rw [List.length_append, recvMsgs_add hrecv, List.length_singleton, recvMsgs_succ heq, recvMsgs]
  constructor
  · rintro ⟨-, hcompletes⟩
    rcases List.eq_nil_or_concat order with rfl | ⟨before, last, hsplit⟩
    · -- there are no blocks, and so there is nothing to store
      have hcount : blockCount contents = 0 := by simpa using horder.length_eq.symm
      have hnil : contents = [] := by
        by_contra hne
        have hpos : peerRequestSize * 0 < contents.length := List.length_pos_iff.mpr hne
        rw [← lt_chunkCount_iff (by decide), ← blockCount, hcount] at hpos
        exact absurd hpos (lt_irrefl 0)
      simp [Fits, hnil]
    · rw [List.concat_eq_append] at hsplit
      obtain ⟨s', heq, hcompleted⟩ := hcompletes before last hsplit
      obtain ⟨s'', heq', -, huniform, -⟩ := hlast before last hsplit
      cases heq.symm.trans heq'
      rw [← hcompleted.stored, fits_map_iff]
      exact fun p hp q _ hpq => huniform p hp q hpq
  · intro hfits
    refine ⟨fun before after hsplit hafter => ?_, fun before last hsplit => ?_⟩
    · obtain ⟨s', hrecv, hpartway, -⟩ := hsteps before after hsplit hafter
      obtain ⟨r, hr, hindex, hleft, -⟩ := hpartway.request
      exact ⟨s', hrecv, hpartway.log, hpartway.out, hpartway.torrent,
        by rw [hpartway.torrent]; exact hstart.state, r, hr, hindex, hleft⟩
    · obtain ⟨s', heq, hcompleted, -, hcontents⟩ := hlast before last hsplit
      rw [hcontents hfits] at hcompleted
      exact ⟨s', heq, hcompleted⟩

/-- The session is one on which nothing is requested, and `send_requests` asks for this
piece of one block; its contents are what comes next. -/
def AsksPiece (index : UInt32) (contents : Bytes) (s : Session) : Prop :=
  s.state.localRequests = [] ∧ ∃ r, sendRequests s = .ok r ∧ r.1 = true ∧
    r.2.state.localRequests.map PieceRequest.pieceIndex = [index] ∧ r.2.sock.recvs = [] ∧
    r.2.sock.inp = [0].flatMap (pieceWire index contents) ++ []

instance (index : UInt32) (contents : Bytes) : DecidablePred (AsksPiece index contents) :=
  fun _ => inferInstanceAs (Decidable (_ ∧ _))

def secondPieceActs : List (Act ℕ) :=
  [.connect ⟨[0, 0, 0, 2, 5, 64] ++ [0, 0, 0, 1, 1] ++ ([0].flatMap (pieceWire 1 [42]) ++ []),
    [.transfers 2], [], []⟩, .receive 100, .receive 100]

/-- Two files of a byte each: `a`, which becomes `a.incomplete` once it is open, and
`a.incomplete`, which is there by then. -/
def meetingInfo : BencodeValue :=
  .bencodeDict [
    (filesKey, .bencodeList [fileDict (letter 'a'.toUInt8) 1,
      fileDict ⟨bytesOf "a.incomplete", by decide⟩ 1]),
    (nameKey, .bencodeString (letter 'd'.toUInt8)),
    (pieceLengthKey, .bencodeInt 16384),
    (piecesKey, .bencodeString ⟨sha1 [1, 2], by simp [length_sha1]⟩)]

def meeting : TorrentInfo where
  announce := []
  creationDate := 0
  pieceLength := 16384
  files := [⟨bytesOf "/d/a.incomplete", .new 0, 1, true, one_toNat_pos⟩,
    ⟨bytesOf "/d/a.incomplete.incomplete", .new 0, 1, true, one_toNat_pos⟩]
  infoHash := sha1Compute meetingInfo.crawl
  maxPeers := defaultMaxPeers
  pieces := [sha1 [1, 2]]
  sh := ⟨[.stateNotRequested], 1, 0, 0, false⟩
  files_lt := by decide
  pieces_le := by decide
  pieces_length := by simp [length_sha1]

/-- A peer that has the piece of both files, and then sends it. -/
def meetingActs : List (Act ℕ) :=
  [.connect ⟨[0, 0, 0, 2, 5, 128] ++ [0, 0, 0, 1, 1] ++ ([0].flatMap (pieceWire 0 [1, 2]) ++ []),
    [], [], []⟩, .receive 100, .receive 100]

end Daobell
