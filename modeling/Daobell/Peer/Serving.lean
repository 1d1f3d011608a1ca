import Daobell.Peer.Framing
import Daobell.Torrent.Aliasing
import Daobell.Torrent.Bounds

/-!
A block that a peer asks for. The sender goes over the ranges of the piece, and
where the block begins inside one of them, it takes the distance from the start
of the range the wrong way round. So a block is served from its place only when
it begins where a range does: at a multiple of the block size, or with a file.
-/

namespace Daobell

open Lib

/-! ### What is read -/

/-- The ranges that the two nested loops of `peer_msg_send_piece` hand to `send`. -/
def sendPieceReads (msg : PieceMsg) : List FileMem → ℕ → ℕ → List FileMem
  | [], _, _ => []
  | mem :: mems, offset, written =>
      if msg.begin.toNat < offset + mem.size then
        let memBeg := if msg.begin.toNat < offset then 0 else subSize offset msg.begin.toNat
        let memLen := min (subSize mem.size memBeg) (subSize msg.blockLen written)
        ⟨mem.file, (mem.offset + memBeg) % 2 ^ 64, memLen⟩ ::
          if written + memLen = msg.blockLen then []
          else sendPieceReads msg mems (offset + mem.size) (written + memLen)
      else if written = msg.blockLen then []
      else sendPieceReads msg mems (offset + mem.size) written

def PieceMsg.reads (msg : PieceMsg) (torrent : TorrentInfo) : List FileMem :=
  sendPieceReads msg (pieceMems torrent.layout msg.index) 0 0

def sendRanges (torrent : TorrentInfo) (disk : Disk) :
    List FileMem → Socket → Except Crash (Bool × Socket)
  | [], sock => .ok (true, sock)
  | range :: ranges, sock =>
      sendThen (sendMem sock torrent disk range 0 range.size) (sendRanges torrent disk ranges)

theorem sendPieceLoop_eq_sendRanges (torrent : TorrentInfo) (disk : Disk) (msg : PieceMsg)
    (mems : List FileMem) (offset written : ℕ) (sock : Socket) :
    sendPieceLoop torrent disk msg mems offset written sock =
      sendRanges torrent disk (sendPieceReads msg mems offset written) sock := by
  have hmem : ∀ (mem : FileMem) (begin len : ℕ) (s : Socket),
      sendMem s torrent disk mem begin len =
        sendMem s torrent disk ⟨mem.file, (mem.offset + begin) % 2 ^ 64, len⟩ 0 len := by
    intro mem begin len s
    simp only [sendMem, Nat.add_zero, Nat.mod_mod]
    rfl
  induction mems generalizing offset written sock with
  | nil => rfl
  | cons mem mems ih =>
      rw [sendPieceLoop, sendPieceReads]
      split
      · dsimp only
        generalize (if msg.begin.toNat < offset then 0 else subSize offset msg.begin.toNat) = memBeg
        generalize min (subSize mem.size memBeg) (subSize msg.blockLen written) = memLen
        rw [sendRanges, hmem]
        refine congrArg (sendThen _) (funext fun s => ?_)
        split
        · rfl
        · exact ih _ _ s
      · split
        · rfl
        · exact ih _ _ sock

theorem sendThen_eq_ok {r : Except Crash (Bool × Socket)} {sock' : Socket}
    {next : Socket → Except Crash (Bool × Socket)} :
    sendThen r next = .ok (true, sock') ↔
      ∃ sock, r = .ok (true, sock) ∧ next sock = .ok (true, sock') := by
  rw [sendThen, bind_eq_ok]
  constructor
  · rintro ⟨⟨ok, sock⟩, hr, hnext⟩
    cases ok with
    | false => cases hnext
    | true => exact ⟨sock, hr, hnext⟩
  · rintro ⟨sock, hr, hnext⟩
    exact ⟨(true, sock), hr, hnext⟩

theorem sendMem_ok {torrent : TorrentInfo} {disk : Disk} {range : FileMem} {sock sock' : Socket}
    (hoffset : range.offset < 2 ^ 64)
    (h : sendMem sock torrent disk range 0 range.size = .ok (true, sock')) :
    Readable torrent range.positions ∧ sock'.out = sock.out ++ range.positions.map disk := by
  rw [sendMem, Nat.add_zero, Nat.mod_eq_of_lt hoffset] at h
  split at h
  · rename_i h0
    cases h
    simp [FileMem.positions, h0, Readable]
  rename_i hsize
  split at h
  · cases h
  rename_i hmapped
  split at h
  · cases h
  rename_i hle
  have hfile := getD_sizes_lt torrent.layout range.file
  have hlen : ((span range.file range.offset range.size).map disk).length < 2 ^ 32 := by
    rw [List.length_map, length_span]
    omega
  obtain ⟨ok, s, sent, heq, hstep, hsent, -⟩ := peerSendBuff_spec sock hlen
  rw [heq] at h
  cases h
  refine ⟨(readable_span (Nat.pos_of_ne_zero hsize)).mpr (not_not.mp hmapped), ?_⟩
  rw [hstep.out, hsent rfl]
  rfl

theorem sendRanges_ok {torrent : TorrentInfo} {disk : Disk} {ranges : List FileMem}
    (hoffset : ∀ range ∈ ranges, range.offset < 2 ^ 64) {sock sock' : Socket}
    (h : sendRanges torrent disk ranges sock = .ok (true, sock')) :
    Readable torrent (ranges.flatMap FileMem.positions) ∧
      sock'.out = sock.out ++ (ranges.flatMap FileMem.positions).map disk := by
  induction ranges generalizing sock with
  | nil =>
      cases h
      simp [Readable]
  | cons range ranges ih =>
      obtain ⟨hrange, hranges⟩ := List.forall_mem_cons.mp hoffset
      obtain ⟨s, hsend, hrest⟩ := sendThen_eq_ok.mp h
      obtain ⟨hmapped, hout⟩ := sendMem_ok hrange hsend
      obtain ⟨hmapped', hout'⟩ := ih hranges hrest
      rw [List.flatMap_cons, readable_append, List.map_append, hout', hout, List.append_assoc]
      exact ⟨⟨hmapped, hmapped'⟩, rfl⟩

theorem sendPieceReads_offset_lt (msg : PieceMsg) (mems : List FileMem) (offset written : ℕ) :
    ∀ range ∈ sendPieceReads msg mems offset written, range.offset < 2 ^ 64 := by
  induction mems generalizing offset written with
  | nil => simp [sendPieceReads]
  | cons mem mems ih =>
      rw [sendPieceReads]
      split
      · dsimp only
        generalize (if msg.begin.toNat < offset then 0 else subSize offset msg.begin.toNat) = memBeg
        generalize min (subSize mem.size memBeg) (subSize msg.blockLen written) = memLen
        refine List.forall_mem_cons.mpr ⟨Nat.mod_lt _ (by decide), ?_⟩
        split
        · simp
        · exact ih _ _
      · split
        · simp
        · exact ih _ _

/-- **What `peer_msg_send_piece` sends** when it returns 0: the index, the begin,
and what it has read. -/
theorem peerMsgSendPiece_ok {torrent : TorrentInfo} {disk : Disk} {msg : PieceMsg}
    {sock sock' : Socket} (h : peerMsgSendPiece sock torrent disk msg = .ok (true, sock')) :
    Readable torrent ((msg.reads torrent).flatMap FileMem.positions) ∧
      sock'.out = sock.out ++ (wordBytes msg.index ++ (wordBytes msg.begin ++
        ((msg.reads torrent).flatMap FileMem.positions).map disk)) := by
  have hword : ∀ {word : UInt32} {s s' : Socket}, peerSendBuff s (wordBytes word) = .ok (true, s') →
      s'.out = s.out ++ wordBytes word := by
    intro word s s' hsend
    obtain ⟨ok, mid, sent, heq, hstep, hsent, -⟩ := sends_word s word
    rw [heq] at hsend
    cases hsend
    rw [hstep.out, (hsent rfl).2]
  rw [peerMsgSendPiece] at h
  obtain ⟨s, hindex, h⟩ := sendThen_eq_ok.mp h
  obtain ⟨s', hbegin, h⟩ := sendThen_eq_ok.mp h
  rw [sendPieceLoop_eq_sendRanges] at h
  obtain ⟨hmapped, hout⟩ := sendRanges_ok (sendPieceReads_offset_lt msg _ 0 0) h
  refine ⟨hmapped, ?_⟩
  rw [hout, hword hbegin, hword hindex, List.append_assoc, List.append_assoc]
  rfl

/-! ### The place of a block -/

section

variable (torrent : TorrentInfo)

def Layout.exactPiece (torrent : Layout) (index : UInt32) : List Address :=
  ((addresses torrent.sizes).drop (torrent.exactStart index)).take torrent.pieceLength.toNat

theorem length_exactPiece (torrent : Layout) (index : UInt32) :
    (torrent.exactPiece index).length =
      min torrent.pieceLength.toNat (torrent.sizes.sum - torrent.exactStart index) := by
  rw [Layout.exactPiece, List.length_take, List.length_drop, length_addresses]

def PieceMsg.exactBlock (msg : PieceMsg) : List Address :=
  ((torrent.layout.exactPiece msg.index).drop msg.begin.toNat).take msg.blockLen

def FileMem.Within (range mem : FileMem) : Prop :=
  range.file = mem.file ∧ mem.offset ≤ range.offset ∧
    range.offset + range.size ≤ mem.offset + mem.size

/-- A block is served: whatever the files hold, the index, the begin and just its
bytes are sent, and only ranges of the piece are read. -/
structure Serves (msg : PieceMsg) : Prop where
  sends : ∀ (disk : Disk) (sock : Socket), sock.SendReliable →
    ∃ sock', peerMsgSendPiece sock torrent disk msg = .ok (true, sock') ∧
      sock'.out = sock.out ++ (wordBytes msg.index ++ (wordBytes msg.begin ++
        (msg.exactBlock torrent).map disk))
  inside : ∀ range ∈ msg.reads torrent, 0 < range.size →
    ∃ mem ∈ pieceMems torrent.layout msg.index, range.Within mem

/-- The block begins at a multiple of the block size, or with a file. -/
def PieceMsg.AtRange (msg : PieceMsg) : Prop :=
  peerRequestSize ∣ msg.begin.toNat ∨
    ∃ file, (torrent.layout.exactPiece msg.index)[msg.begin.toNat]? = some (file, 0)

end

section

variable {torrent : TorrentInfo} {msg : PieceMsg}

theorem pieceAddresses_eq_window (msg : PieceMsg)
    (hlength : peerRequestSize ∣ torrent.pieceLength.toNat) :
    torrent.layout.pieceAddresses msg.index = ((addresses torrent.layout.sizes).drop
      (torrent.layout.wrappedStart msg.index)).take torrent.layout.pieceLength.toNat :=
  (flatMap_positions torrent.layout msg.index).symm.trans (covered_eq_window torrent.layout hlength)

theorem pieceAddresses_eq_exactPiece (hlength : peerRequestSize ∣ torrent.pieceLength.toNat)
    (hstart : torrent.layout.exactStart msg.index < 2 ^ 32) :
    torrent.layout.pieceAddresses msg.index = torrent.layout.exactPiece msg.index := by
  rw [pieceAddresses_eq_window msg hlength, wrappedStart_of_lt torrent.layout hstart]
  rfl

/-- The address at some distance from the start of a range. -/
theorem getElem?_flatMap_positions {before after : List FileMem} {mem : FileMem} {d : ℕ}
    (hd : d < mem.size) :
    ((before ++ mem :: after).flatMap FileMem.positions)[(before.map FileMem.size).sum + d]? =
      some (mem.file, mem.offset + d) := by
  have hlen : d < mem.positions.length := by simpa [FileMem.positions] using hd
  rw [List.flatMap_append, ← length_flatMap_mems, List.getElem?_append_right (Nat.le_add_right _ _),
    Nat.add_sub_cancel_left, List.flatMap_cons, List.getElem?_append_left hlen]
  simp [FileMem.positions, span, hd]

/-- The ranges of a piece begin at a multiple of the block size, or with a file. -/
theorem dvd_or_offset_eq_zero {before after : List FileMem} {mem : FileMem} (hpos : 0 < mem.size)
    (hsplit : pieceMems torrent.layout msg.index = before ++ mem :: after) :
    peerRequestSize ∣ (before.map FileMem.size).sum ∨ mem.offset = 0 := by
  obtain ⟨bs₁, block, bs₂, pre, post, hblocks, hmems, rfl⟩ := exists_flatMap_eq hsplit
  cases pre with
  | nil =>
      left
      have hsum := length_flatMap_mems (bs₁.flatMap (·.fileMems))
      have htake : (pieceRequestCreate torrent.layout msg.index).blockRequests.take bs₁.length =
          bs₁ := by
        rw [hblocks, List.take_left]
      rw [flatMap_positions_mems, ← htake, flatMap_positions_take, List.length_take, htake] at hsum
      have hlength := congrArg (fun mems => (mems.map FileMem.size).sum) hsplit
      rw [← length_flatMap_mems, positions_pieceMems, List.map_append, List.sum_append,
        List.map_cons, List.sum_cons] at hlength
      rw [List.append_nil] at hlength ⊢
      exact ⟨bs₁.length, by omega⟩
  | cons first pre =>
      right
      have hblock : block ∈ (pieceRequestCreate torrent.layout msg.index).blockRequests := by
        simp [hblocks]
      exact pieceRequestCreate_tail _ hblock mem (by simp [hmems])

theorem sendPieceReads_before (hlen : 0 < msg.blockLen) {before : List FileMem}
    (after : List FileMem) {offset : ℕ}
    (hbegin : offset + (before.map FileMem.size).sum ≤ msg.begin.toNat) :
    sendPieceReads msg (before ++ after) offset 0 =
      sendPieceReads msg after (offset + (before.map FileMem.size).sum) 0 := by
  induction before generalizing offset with
  | nil => rfl
  | cons mem before ih =>
      rw [List.map_cons, List.sum_cons] at hbegin
      rw [List.cons_append, sendPieceReads, if_neg (by omega), if_neg hlen.ne, ih (by omega),
        List.map_cons, List.sum_cons, Nat.add_assoc]

/-- The first byte that is read, when the block begins `d` bytes inside a range:
the one `d` bytes before the range. -/
theorem head?_reads {before after : List FileMem} {mem : FileMem} {d : ℕ}
    (hsplit : pieceMems torrent.layout msg.index = before ++ mem :: after)
    (hbegin : msg.begin.toNat = (before.map FileMem.size).sum + d) (hd : d < mem.size)
    (hsize : mem.size < 2 ^ 32) (hpos : 0 < msg.blockLen) (hlen32 : msg.blockLen < 2 ^ 32) :
    ((msg.reads torrent).flatMap FileMem.positions).head? =
      some (mem.file, (mem.offset + 2 ^ 64 - d) % 2 ^ 64) := by
  have hbeg : (if msg.begin.toNat < (before.map FileMem.size).sum then 0
      else subSize (before.map FileMem.size).sum msg.begin.toNat) = (2 ^ 64 - d) % 2 ^ 64 := by
    rw [if_neg (by omega), hbegin, subSize, Nat.sub_add_eq, Nat.add_sub_cancel_left]
  have hmemLen : 0 < min (subSize mem.size ((2 ^ 64 - d) % 2 ^ 64)) (subSize msg.blockLen 0) := by
    simp only [subSize]
    omega
  rw [PieceMsg.reads, hsplit, sendPieceReads_before hpos _ (by omega), Nat.zero_add, sendPieceReads,
    if_pos (by omega)]
  simp only [hbeg, List.flatMap_cons]
  have hoffset : (mem.offset + (2 ^ 64 - d) % 2 ^ 64) % 2 ^ 64 =
      (mem.offset + 2 ^ 64 - d) % 2 ^ 64 := by omega
  obtain ⟨n, hn⟩ := Nat.exists_eq_succ_of_ne_zero hmemLen.ne'
  rw [hoffset, hn]
  rfl

/-- From the start of the block on, only parts of ranges are read. -/
theorem sendPieceReads_within {mems : List FileMem} (hin : ∀ mem ∈ mems, InFile torrent mem)
    {offset : ℕ} (written : ℕ) (hbegin : msg.begin.toNat ≤ offset) :
    ∀ range ∈ sendPieceReads msg mems offset written, 0 < range.size →
      ∃ mem ∈ mems, range.Within mem := by
  induction mems generalizing offset written with
  | nil => simp [sendPieceReads]
  | cons mem mems ih =>
      obtain ⟨hmem, hmems⟩ := List.forall_mem_cons.mp hin
      have hrest : ∀ written', ∀ range ∈ sendPieceReads msg mems (offset + mem.size) written',
          0 < range.size → ∃ mem' ∈ mem :: mems, range.Within mem' := by
        intro written' range hrange hpos
        obtain ⟨mem', hmem', hwithin⟩ := ih hmems written' (by omega) range hrange hpos
        exact ⟨mem', List.mem_cons_of_mem _ hmem', hwithin⟩
      have hbeg : (if msg.begin.toNat < offset then 0 else subSize offset msg.begin.toNat) = 0 := by
        split
        · rfl
        · rw [subSize]
          omega
      rw [sendPieceReads]
      split
      · simp only [hbeg]
        refine List.forall_mem_cons.mpr ⟨fun hpos => ⟨mem, List.mem_cons_self, rfl, ?_⟩, ?_⟩
        · simp only [subSize] at hpos ⊢
          have hsize := hmem (by omega)
          have hfile := getD_sizes_lt torrent.layout mem.file
          rw [Nat.add_zero, Nat.mod_eq_of_lt (by omega)]
          omega
        · split
          · simp
          · exact hrest _
      · split
        · simp
        · exact hrest _

theorem size_lt_of_split {before after : List FileMem} {mem : FileMem}
    (hsplit : pieceMems torrent.layout msg.index = before ++ mem :: after) :
    mem.size < 2 ^ 32 := by
  have hmem : mem ∈ pieceMems torrent.layout msg.index := by simp [hsplit]
  obtain ⟨block, hblock, hmem⟩ := List.mem_flatMap.mp hmem
  exact mem_size_lt torrent.layout hblock hmem

/-- Some range of the piece has the first byte of the block. -/
theorem exists_range_at (hinside : msg.begin.toNat <
      (torrent.layout.pieceAddresses msg.index).length) :
    ∃ before mem after d, pieceMems torrent.layout msg.index = before ++ mem :: after ∧
      msg.begin.toNat = (before.map FileMem.size).sum + d ∧ d < mem.size ∧
      (torrent.layout.pieceAddresses msg.index)[msg.begin.toNat]? =
        some (mem.file, mem.offset + d) := by
  rw [← positions_pieceMems, length_flatMap_mems] at hinside
  obtain ⟨before, mem, after, hsplit, hle, hlt⟩ := exists_split_of_lt_sum hinside
  refine ⟨before, mem, after, msg.begin.toNat - (before.map FileMem.size).sum, hsplit,
    (Nat.add_sub_of_le hle).symm, by omega, ?_⟩
  rw [← positions_pieceMems, hsplit, ← getElem?_flatMap_positions (by omega),
    Nat.add_sub_of_le hle]

/-- A block that begins where a range does, which is none inside a range. -/
theorem exists_split_of_atRange (hlength : peerRequestSize ∣ torrent.pieceLength.toNat)
    (hstart : torrent.layout.exactStart msg.index < 2 ^ 32)
    (hinside : msg.begin.toNat < (torrent.layout.pieceAddresses msg.index).length)
    (hrange : msg.AtRange torrent) :
    ∃ before after, pieceMems torrent.layout msg.index = before ++ after ∧
      (before.map FileMem.size).sum = msg.begin.toNat := by
  rcases hrange with hdvd | ⟨file, hfile⟩
  · exact exists_split_of_dvd hdvd hinside.le
  · obtain ⟨before, mem, after, d, hsplit, hbegin, hd, hat⟩ := exists_range_at hinside
    rw [pieceAddresses_eq_exactPiece hlength hstart, hfile, Option.some.injEq, Prod.mk.injEq] at hat
    exact ⟨before, mem :: after, hsplit, by omega⟩

theorem Serves.reads (h : Serves torrent msg) :
    (msg.reads torrent).flatMap FileMem.positions = msg.exactBlock torrent ∧
      Readable torrent (msg.exactBlock torrent) := by
  have hsame : ∀ disk : Disk, ((msg.reads torrent).flatMap FileMem.positions).map disk =
        (msg.exactBlock torrent).map disk ∧
      Readable torrent ((msg.reads torrent).flatMap FileMem.positions) := by
    intro disk
    obtain ⟨sock', hsend, hout⟩ := h.sends disk ⟨[], [], [], []⟩ (by simp [Socket.SendReliable])
    obtain ⟨hmapped, hout'⟩ := peerMsgSendPiece_ok hsend
    rw [hout', List.append_cancel_left_eq, List.append_cancel_left_eq,
      List.append_cancel_left_eq] at hout
    exact ⟨hout, hmapped⟩
  have heq := eq_of_forall_map (show (0 : UInt8) ≠ 1 by decide) fun disk => (hsame disk).1
  exact ⟨heq, heq ▸ (hsame fun _ => 0).2⟩

theorem getElem?_window {as : List Address} {start len i : ℕ} (hi : i < len) :
    ((as.drop start).take len)[i]? = as[start + i]? := by
  rw [List.getElem?_take_of_lt hi, List.getElem?_drop]

theorem offset_lt_of_mem {p : Address} (hp : p ∈ addresses torrent.layout.sizes) :
    p.2 < 2 ^ 32 := by
  obtain ⟨-, size, hsize, hlt⟩ := mem_addressesFrom.mp hp
  exact hlt.trans (torrent.layout.size_lt size (List.mem_of_getElem? hsize))

/-- A block that is served does not lie behind `2 ^ 32`, and begins with a range. -/
theorem Serves.atRange (h : Serves torrent msg)
    (hlength : peerRequestSize ∣ torrent.pieceLength.toNat) (hpos : 1 ≤ msg.blockLen)
    (hinside : msg.begin.toNat + msg.blockLen ≤ (torrent.layout.exactPiece msg.index).length) :
    torrent.layout.exactStart msg.index < 2 ^ 32 ∧ msg.AtRange torrent := by
  have hpl : torrent.layout.pieceLength.toNat < 2 ^ 32 := torrent.layout.pieceLength.toNat_lt
  have hwrap : torrent.layout.wrappedStart msg.index ≤ torrent.layout.exactStart msg.index :=
    Nat.mod_le _ _
  have hwindow := pieceAddresses_eq_window msg hlength
  have hlen := length_exactPiece torrent.layout msg.index
  have hbeginpl : msg.begin.toNat < torrent.layout.pieceLength.toNat := by omega
  have hin : msg.begin.toNat < (torrent.layout.pieceAddresses msg.index).length := by
    rw [hwindow, List.length_take, List.length_drop, length_addresses]
    omega
  obtain ⟨before, mem, after, d, hsplit, hbegin, hd, hat⟩ := exists_range_at hin
  have hhead := head?_reads hsplit hbegin hd (size_lt_of_split hsplit) hpos (by omega)
  rw [h.reads.1, PieceMsg.exactBlock, List.head?_take, if_neg (by omega), List.head?_drop] at hhead
  -- the first byte of the block, and the byte at its place in the wrapped piece
  have hexact := hhead
  rw [Layout.exactPiece, getElem?_window hbeginpl] at hexact
  rw [hwindow, getElem?_window hbeginpl] at hat
  have hx := offset_lt_of_mem (List.mem_of_getElem? hexact)
  have ho := offset_lt_of_mem (List.mem_of_getElem? hat)
  dsimp only at hx ho
  rcases Nat.lt_or_eq_of_le hwrap with hlt | heq
  · obtain ⟨hi, hat⟩ := List.getElem?_eq_some_iff.mp hat
    obtain ⟨hj, hexact⟩ := List.getElem?_eq_some_iff.mp hexact
    have hlex := List.pairwise_iff_getElem.mp (pairwise_addresses torrent.layout.sizes) _ _ hi hj
      (Nat.add_lt_add_right hlt _)
    rw [hat, hexact, Prod.lex_def] at hlex
    dsimp only at hlex
    omega
  · rw [heq, hexact, Option.some.injEq, Prod.mk.injEq] at hat
    have hd0 : d = 0 := by omega
    refine ⟨heq ▸ Nat.mod_lt _ (by decide), ?_⟩
    rcases dvd_or_offset_eq_zero (by omega) hsplit with hdvd | h0
    · left
      rwa [hbegin, hd0]
    · right
      exact ⟨mem.file, by rw [hhead, hat.2, h0, hd0]⟩

theorem serves_of_atRange (hlength : peerRequestSize ∣ torrent.pieceLength.toNat)
    (hpos : 1 ≤ msg.blockLen)
    (hinside : msg.begin.toNat + msg.blockLen ≤ (torrent.layout.exactPiece msg.index).length)
    (hstart : torrent.layout.exactStart msg.index < 2 ^ 32) (hrange : msg.AtRange torrent)
    (hmapped : Readable torrent (msg.exactBlock torrent)) : Serves torrent msg := by
  have hpiece := pieceAddresses_eq_exactPiece hlength hstart
  have hpl : torrent.layout.pieceLength.toNat < 2 ^ 32 := torrent.layout.pieceLength.toNat_lt
  have hle := length_pieceAddresses_le torrent.layout hlength msg.index
  rw [← hpiece] at hinside
  have hblock : msg.addresses torrent = msg.exactBlock torrent := by
    rw [PieceMsg.addresses, hpiece, PieceMsg.exactBlock]
  obtain ⟨before, after, hsplit, hbegin⟩ :=
    exists_split_of_atRange hlength hstart (by omega) hrange
  constructor
  · intro disk sock hrel
    obtain ⟨ok, sock', sent, heq, hstep, hok, hsure⟩ := peerMsgSendPiece_sends_of_split disk hsplit
      hbegin hpos (by omega) hinside sock
    rw [hblock] at hok hsure
    have htrue := hsure hrel hmapped
    subst htrue
    exact ⟨sock', heq, by rw [hstep.out, (hok rfl).2]⟩
  · rw [PieceMsg.reads, hsplit, sendPieceReads_before hpos _ (by omega)]
    intro range hmem hsize
    have hin : ∀ mem ∈ after, InFile torrent mem := fun mem hmem =>
      inFile_pieceMems torrent msg.index mem (hsplit ▸ List.mem_append_right _ hmem)
    obtain ⟨mem, hafter, hwithin⟩ := sendPieceReads_within hin 0 (by omega) range hmem hsize
    exact ⟨mem, List.mem_append_right _ hafter, hwithin⟩

end

/-- **Serving a block.** A block inside its piece is served if and only if the start
of the piece does not wrap, the block begins at a multiple of the block size or
with a file, and the files it lies in are mapped. -/
theorem peerMsgSendPiece_serves_iff (torrent : TorrentInfo)
    (hlength : peerRequestSize ∣ torrent.pieceLength.toNat) (msg : PieceMsg)
    (hpos : 1 ≤ msg.blockLen)
    (hinside : msg.begin.toNat + msg.blockLen ≤ (torrent.layout.exactPiece msg.index).length) :
    Serves torrent msg ↔ torrent.layout.exactStart msg.index < 2 ^ 32 ∧ msg.AtRange torrent ∧
      Readable torrent (msg.exactBlock torrent) := by
  constructor
  · intro h
    obtain ⟨hstart, hrange⟩ := h.atRange hlength hpos hinside
    exact ⟨hstart, hrange, h.reads.2⟩
  · rintro ⟨hstart, hrange, hmapped⟩
    exact serves_of_atRange hlength hpos hinside hstart hrange hmapped

theorem peerMsgSendPiece_serves_firstByte :
    Serves twoPieces ⟨0, 0, 1⟩ ↔ twoPieces.layout.exactStart 0 < 2 ^ 32 ∧
      PieceMsg.AtRange twoPieces ⟨0, 0, 1⟩ ∧
      Readable twoPieces (PieceMsg.exactBlock twoPieces ⟨0, 0, 1⟩) :=
  peerMsgSendPiece_serves_iff twoPieces (by decide) ⟨0, 0, 1⟩ (by decide)
    (by rw [length_exactPiece]; decide)

/-- The second byte: what is sent lies in front of the mapping. -/
theorem not_serves_secondByte :
    peerRequestSize ∣ twoPieces.pieceLength.toNat ∧
      twoPieces.layout.exactStart 0 < 2 ^ 32 ∧
      1 + 1 ≤ (twoPieces.layout.exactPiece 0).length ∧ ¬ Serves twoPieces ⟨0, 1, 1⟩ := by
  have hcrash : peerMsgSendPiece ⟨[], [], [], []⟩ twoPieces blankDisk ⟨0, 1, 1⟩ =
      .error .outOfRange := by
    decide +kernel
  refine ⟨by decide, by decide, by rw [length_exactPiece]; decide, fun h => ?_⟩
  obtain ⟨sock', hsend, -⟩ := h.sends blankDisk ⟨[], [], [], []⟩ (by simp [Socket.SendReliable])
  rw [hcrash] at hsend
  cases hsend

end Daobell
