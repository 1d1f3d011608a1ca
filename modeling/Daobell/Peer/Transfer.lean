import Daobell.Peer.Completion
import Daobell.Peer.Unmapped

/-!
Blocks from the stream to the files. A block that comes goes to its own addresses
and shows at no other ones, as long as the files it lies in are mapped, and no byte
of them is one of another file too. Where they are not mapped, `recv` fails, the
message is taken for received, and the bytes of the block stay on the stream.
-/

namespace Daobell

open Lib

/-! ### The message of a block -/

theorem blockAddresses_of_dvd (torrent : Layout) {index : UInt32}
    (hlength : peerRequestSize ∣ torrent.pieceLength.toNat)
    (hstart : index.toNat * torrent.pieceLength.toNat < 2 ^ 32) (j : ℕ) :
    blockAddresses torrent index j =
      ((addresses torrent.sizes).drop
        (index.toNat * torrent.pieceLength.toNat + peerRequestSize * j)).take
          (blockAddresses torrent index j).length := by
  rw [blockAddresses, pieceAddresses_of_dvd torrent hlength hstart, List.drop_take,
    List.take_take, List.drop_drop]
  conv_lhs => rw [List.take_eq_take_min]
  rw [List.length_take]

/-- What a well formed PIECE message looks like to the receiver. -/
theorem blockWire_header (index begin : UInt32) {data : Bytes} (hpos : 0 < data.length)
    (hle : data.length ≤ peerRequestSize) (rest : Bytes) :
    let inp := blockWire index begin data ++ rest
    PieceHeader inp ∧ (wordAt inp).toNat = 9 + data.length ∧ wordAt (inp.drop 5) = index ∧
      wordAt (inp.drop 9) = begin ∧ inp.drop 13 = data ++ rest := by
  intro inp
  have hinp : inp = wordBytes (UInt32.ofNat (9 + data.length)) ++ ([MsgType.msgPiece.toByte] ++
      (wordBytes index ++ (wordBytes begin ++ (data ++ rest)))) := by
    simp [inp, blockWire]
  have hword : (wordAt inp).toNat = 9 + data.length := by
    have h32 : 9 + data.length < 2 ^ 32 := by
      simp only [peerRequestSize] at hle
      omega
    rw [hinp, wordAt_wordBytes, UInt32.toNat_ofNat_of_lt' h32]
  refine ⟨⟨?_, ?_, by omega, by omega⟩, hword, ?_, ?_, ?_⟩
  · simp [hinp]
    omega
  · rw [hinp]
    rfl
  · rw [hinp]
    exact wordAt_wordBytes index _
  · rw [hinp]
    exact wordAt_wordBytes begin _
  · rw [hinp]
    rfl

/-- A block lands where it belongs: `peer_msg_recv` returns 0 with the message and
takes it off the stream, which goes on with `rest`, and what the files hold one
after the other is changed just at the bytes of the block. -/
def Lands (torrent : TorrentInfo) (index : UInt32) (block : BlockRequest) (data : Bytes)
    (sock : Socket) (disk : Disk) (rest : Bytes) : Prop :=
  let P := addresses torrent.layout.sizes
  let start := index.toNat * torrent.pieceLength.toNat + block.begin
  ∃ sock' disk', peerMsgRecv sock torrent disk =
      .ok (some (.piece ⟨index, UInt32.ofNat block.begin, block.len⟩), sock', disk') ∧
    sock'.inp = rest ∧
    P.map disk' = (P.map disk).take start ++ data ++ (P.map disk).drop (start + block.len) ∧
    ∀ p ∉ (P.drop start).take block.len, disk' p = disk p

section

variable {torrent : TorrentInfo} {index : UInt32} {block : BlockRequest} {data : Bytes}
  {sock : Socket}

/-- The place of a block in its piece is an `unsigned`. -/
theorem blockStart_lt (hlength : peerRequestSize ∣ torrent.pieceLength.toNat) {j : ℕ}
    (hj : peerRequestSize * j < (torrent.layout.pieceAddresses index).length) :
    peerRequestSize * j < 2 ^ 32 :=
  hj.trans_le ((length_pieceAddresses_le torrent.layout hlength index).trans
    torrent.pieceLength.toNat_lt.le)

theorem block_window (hlength : peerRequestSize ∣ torrent.pieceLength.toNat)
    (hstart : index.toNat * torrent.pieceLength.toNat < 2 ^ 32)
    (hblock : block ∈ (pieceRequestCreate torrent.layout index).blockRequests) :
    let P := addresses torrent.layout.sizes
    let start := index.toNat * torrent.pieceLength.toNat + block.begin
    block.positions = (P.drop start).take block.len ∧ start + block.len ≤ P.length := by
  intro P start
  obtain ⟨j, hj, hbegin, hlen, hpos⟩ := exists_of_mem_blockRequests torrent.layout hblock
  change block.positions = blockAddresses torrent.layout index j at hpos
  rw [hpos] at hlen
  have hrun := blockAddresses_of_dvd torrent.layout hlength hstart j
  rw [← hlen, ← hbegin] at hrun
  have hpos0 : 0 < block.len := (blockAddresses_length hj).1.trans_eq hlen.symm
  have hle : block.len ≤ P.length - start := by
    rw [← List.length_drop, hlen, hrun]
    exact List.length_take_le' _ _
  exact ⟨hpos.trans hrun, by omega⟩

/-- A block whose files are mapped is received, and written to where its addresses
are. -/
theorem peerMsgRecv_readable (hlength : peerRequestSize ∣ torrent.pieceLength.toNat)
    (hblock : block ∈ (pieceRequestCreate torrent.layout index).blockRequests)
    (hdata : data.length = block.len) (disk : Disk) (hsock : sock.RecvReliable) {rest : Bytes}
    (hinp : sock.inp = blockWire index (UInt32.ofNat block.begin) data ++ rest)
    (hmapped : Readable torrent block.positions) :
    ∃ sock', peerMsgRecv sock torrent disk =
        .ok (some (.piece ⟨index, UInt32.ofNat block.begin, block.len⟩), sock',
          scatter torrent.place disk block.positions data) ∧ sock'.inp = rest := by
  obtain ⟨j, hj, hbegin, hlen, hpos⟩ := exists_of_mem_blockRequests torrent.layout hblock
  change block.positions = blockAddresses torrent.layout index j at hpos
  rw [hpos] at hlen hmapped ⊢
  rw [hbegin] at hinp
  obtain ⟨msg, sock', heq, rfl, -, hrest⟩ :=
    peerMsgRecv_block hmapped hj (blockStart_lt hlength hj) (hdata.trans hlen) disk sock rest hsock
      hinp
  refine ⟨sock', heq.trans ?_, hrest⟩
  rw [hbegin, hdata]

/-- What the files are to hold, when only the addresses of the block change, is what a
store has in which no two addresses meet. -/
theorem eq_scatter_id_iff (hlength : peerRequestSize ∣ torrent.pieceLength.toNat)
    (hstart : index.toNat * torrent.pieceLength.toNat < 2 ^ 32)
    (hblock : block ∈ (pieceRequestCreate torrent.layout index).blockRequests)
    (hdata : data.length = block.len) {disk disk' : Disk} :
    let P := addresses torrent.layout.sizes
    let start := index.toNat * torrent.pieceLength.toNat + block.begin
    (P.map disk' = (P.map disk).take start ++ data ++ (P.map disk).drop (start + block.len) ∧
        ∀ p ∉ (P.drop start).take block.len, disk' p = disk p) ↔
      disk' = scatter id disk block.positions data := by
  intro P start
  obtain ⟨hwindow, hP⟩ := block_window hlength hstart hblock
  have hid : (P.map id).Nodup := by
    rw [List.map_id]
    exact nodup_addresses _
  have hrun : P.map (scatter id disk ((P.drop start).take block.len) data) =
      (P.map disk).take start ++ data ++ (P.map disk).drop (start + block.len) := by
    rw [← hdata] at hP ⊢
    exact map_scatter_run id disk hid hP
  rw [hwindow]
  have hout : ∀ p ∉ (P.drop start).take block.len,
      scatter id disk ((P.drop start).take block.len) data p = disk p := by
    intro p hp
    refine scatter_of_notMem id disk _ data p ?_
    rwa [List.map_id]
  constructor
  · rintro ⟨hmap, hothers⟩
    rw [← hrun, List.map_inj_left] at hmap
    funext p
    by_cases hp : p ∈ (P.drop start).take block.len
    · exact hmap p (List.drop_subset _ _ (List.take_subset _ _ hp))
    · rw [hothers p hp, hout p hp]
  · rintro rfl
    exact ⟨hrun, hout⟩

/-- When all of a block can be received, its ranges are mapped. -/
theorem readable_of_mappedSize {mems : List FileMem}
    (h : (mems.flatMap FileMem.positions).length ≤ mappedSize torrent mems) :
    Readable torrent (mems.flatMap FileMem.positions) := by
  rw [readable_mems]
  rw [length_flatMap_mems] at h
  induction mems with
  | nil => simp
  | cons mem mems ih =>
      have hle : mappedSize torrent mems ≤ (mems.map FileMem.size).sum :=
        (List.filter_sublist.map FileMem.size).sum_le_sum fun _ _ => Nat.zero_le _
      rw [List.map_cons, List.sum_cons] at h
      by_cases hmapped : torrent.isMapped mem = true
      · rw [mappedSize, List.filter_cons_of_pos hmapped, List.map_cons, List.sum_cons] at h
        exact List.forall_mem_cons.mpr ⟨fun _ => hmapped, ih (Nat.le_of_add_le_add_left h)⟩
      · rw [mappedSize, List.filter_cons_of_neg hmapped] at h
        change _ ≤ mappedSize torrent mems at h
        exact List.forall_mem_cons.mpr ⟨fun hpos => absurd hpos (by omega), ih (by omega)⟩

theorem readable_of_lands (hlength : peerRequestSize ∣ torrent.pieceLength.toNat)
    (hblock : block ∈ (pieceRequestCreate torrent.layout index).blockRequests)
    (hdata : data.length = block.len) {disk : Disk} (hsock : sock.RecvReliable) {rest : Bytes}
    (hinp : sock.inp = blockWire index (UInt32.ofNat block.begin) data ++ rest)
    (h : Lands torrent index block data sock disk rest) : Readable torrent block.positions := by
  obtain ⟨sock', disk', heq, hrest, -⟩ := h
  obtain ⟨j, hj, hbegin, hlen, hpos⟩ := exists_of_mem_blockRequests torrent.layout hblock
  change block.positions = blockAddresses torrent.layout index j at hpos
  rw [hpos] at hlen
  obtain ⟨hpos0, hle⟩ := blockAddresses_length hj
  obtain ⟨hheader, hword, hindex, hbegin', hdrop⟩ := blockWire_header index
    (UInt32.ofNat block.begin) (hpos0.trans_eq (hlen.symm.trans hdata.symm))
    ((hdata.trans hlen).trans_le hle) rest
  rw [← hinp] at hheader hword hindex hbegin' hdrop
  obtain ⟨s, hrel, hs, hrecv⟩ := peerMsgRecv_of_pieceHeader torrent disk hsock hheader
  obtain ⟨block', hblock', hat, -, -, hpos'⟩ := pieceRequestBlockAt_block hj
  have hsame : pieceRequestBlockAt (pieceRequestCreate torrent.layout index)
      (UInt32.ofNat block.begin).toNat = some block' := by
    rw [hbegin, UInt32.toNat_ofNat_of_lt' (blockStart_lt hlength hj), hat]
  rw [hrecv, hindex, hbegin', peerMsgRecvBlock, hsame] at heq
  obtain ⟨-, hleft⟩ := recvMems_reliable torrent
    (fun mem hmem => mem_size_lt torrent.layout hblock' hmem) hrel disk
  simp only [Except.ok.injEq, Prod.mk.injEq] at heq
  rw [heq.2.1, hrest, hs, hdrop] at hleft
  have hlength := congrArg List.length hleft
  rw [List.length_drop, List.length_append] at hlength
  have hall : block'.positions.length ≤ mappedSize torrent block'.fileMems := by
    rw [hpos', ← hlen, ← hdata]
    omega
  rw [hpos, ← hpos']
  exact readable_of_mappedSize hall

/-- The bytes of a block agree with what else is at their places in the file system:
with one another, and with what is seen there at the addresses outside the block. -/
def Agrees (torrent : TorrentInfo) (disk : Disk) (block : BlockRequest) (data : Bytes) : Prop :=
  Fits torrent.place block.positions data ∧ ∀ q ∈ block.positions.zip data,
    ∀ p ∉ block.positions, torrent.place p = torrent.place q.1 → disk p = q.2

theorem block_positions (hlength : peerRequestSize ∣ torrent.pieceLength.toNat)
    (hstart : index.toNat * torrent.pieceLength.toNat < 2 ^ 32)
    (hblock : block ∈ (pieceRequestCreate torrent.layout index).blockRequests) :
    block.positions ⊆ addresses torrent.layout.sizes ∧ block.positions.Nodup ∧
      block.positions.length = block.len := by
  obtain ⟨hwindow, hP⟩ := block_window hlength hstart hblock
  rw [hwindow]
  refine ⟨fun p hp => List.drop_subset _ _ (List.take_subset _ _ hp), ?_, ?_⟩
  · exact (nodup_addresses _).sublist ((List.take_sublist _ _).trans (List.drop_sublist _ _))
  · rw [List.length_take, List.length_drop]
    omega

theorem TorrentInfo.FilesApart.agrees (hapart : torrent.FilesApart)
    (hlength : peerRequestSize ∣ torrent.pieceLength.toNat)
    (hstart : index.toNat * torrent.pieceLength.toNat < 2 ^ 32)
    (hblock : block ∈ (pieceRequestCreate torrent.layout index).blockRequests)
    (hdata : data.length = block.len) (disk : Disk) : Agrees torrent disk block data := by
  obtain ⟨hsubset, hnd, hlen⟩ := block_positions hlength hstart hblock
  refine ⟨hapart.fits hsubset hnd (hlen.trans hdata.symm), fun q hq p hp hpq => absurd ?_ hp⟩
  have hmem : q.1 ∈ block.positions := (List.of_mem_zip (a := q.1) (b := q.2) hq).1
  rwa [← hapart.eq_of_place (hsubset hmem) hpq.symm]

/-- A block whose files are mapped lands just when its bytes agree. -/
theorem lands_iff_of_readable (hlength : peerRequestSize ∣ torrent.pieceLength.toNat)
    (hstart : index.toNat * torrent.pieceLength.toNat < 2 ^ 32)
    (hblock : block ∈ (pieceRequestCreate torrent.layout index).blockRequests)
    (hdata : data.length = block.len) (disk : Disk) (hsock : sock.RecvReliable) {rest : Bytes}
    (hinp : sock.inp = blockWire index (UInt32.ofNat block.begin) data ++ rest)
    (hmapped : Readable torrent block.positions) :
    Lands torrent index block data sock disk rest ↔ Agrees torrent disk block data := by
  obtain ⟨sock', heq, hrest⟩ :=
    peerMsgRecv_readable hlength hblock hdata disk hsock hinp hmapped
  obtain ⟨-, hnd, hlen⟩ := block_positions hlength hstart hblock
  rw [Agrees, ← scatter_eq_iff torrent.place hnd (hlen.trans hdata.symm)]
  refine Iff.trans ⟨?_, ?_⟩ (eq_scatter_id_iff hlength hstart hblock hdata)
  · rintro ⟨sock'', disk', heq', -, hlands⟩
    cases heq.symm.trans heq'
    exact hlands
  · exact fun hlands => ⟨sock', _, heq, hrest, hlands⟩

end

/-- **A block lands where it belongs**, in every torrent, if and only if the files
that it lies in are still mapped, for a call of `recv` that fails is not looked at, and
it agrees with what else is at its places, for two files of a torrent can be one. -/
theorem peerMsgRecv_lands_iff (torrent : TorrentInfo)
    (hlength : peerRequestSize ∣ torrent.pieceLength.toNat) (index : UInt32)
    (hstart : index.toNat * torrent.pieceLength.toNat < 2 ^ 32) (block : BlockRequest)
    (hblock : block ∈ (pieceRequestCreate torrent.layout index).blockRequests) (data : Bytes)
    (hdata : data.length = block.len) (disk : Disk) (sock : Socket) (hsock : sock.RecvReliable)
    (rest : Bytes) (hinp : sock.inp = blockWire index (UInt32.ofNat block.begin) data ++ rest) :
    Lands torrent index block data sock disk rest ↔
      Readable torrent block.positions ∧ Agrees torrent disk block data := by
  constructor
  · intro hlands
    have hmapped := readable_of_lands hlength hblock hdata hsock hinp hlands
    exact ⟨hmapped, (lands_iff_of_readable hlength hstart hblock hdata disk hsock hinp
      hmapped).mp hlands⟩
  · rintro ⟨hmapped, hagrees⟩
    exact (lands_iff_of_readable hlength hstart hblock hdata disk hsock hinp hmapped).mpr hagrees

def oneByteBlock : BlockRequest := ⟨[⟨0, 0, 1⟩], 0, 1, false⟩

theorem peerMsgRecv_lands_oneByte :
    Lands oneByte 0 oneByteBlock [42] ⟨blockWire 0 0 [42] ++ [7], [.transfers 0], [], []⟩ blankDisk
      [7] := by
  have hapart : oneByte.FilesApart := by decide
  have hblock : oneByteBlock ∈ (pieceRequestCreate oneByte.layout 0).blockRequests := by decide
  exact (peerMsgRecv_lands_iff oneByte (by decide) 0 (by decide) oneByteBlock hblock [42] rfl
    blankDisk ⟨blockWire 0 0 [42] ++ [7], [.transfers 0], [], []⟩ (by simp [Socket.RecvReliable])
    [7] rfl).mpr ⟨readable_mems.mpr (by decide), hapart.agrees (by decide) (by decide) hblock rfl
      blankDisk⟩

/-- The byte comes once more when the download is complete. The message is
received, and the byte of it stays on the stream. -/
theorem block_dropped :
    ∃ s, run (clientStep processQueued) (.idle oneByte blankDisk []) oneByteActs =
        .ok (.connected s) ∧
      s.sock.inp = blockWire 0 (UInt32.ofNat oneByteBlock.begin) [42] ++ [] ∧
      s.sock.RecvReliable ∧ s.torrent.pieceLength = 16384 ∧
      oneByteBlock ∈ (pieceRequestCreate s.torrent.layout 0).blockRequests ∧
      ¬ Lands s.torrent 0 oneByteBlock [42] s.sock s.disk [] := by
  have hdropped : ∃ c, run (clientStep processQueued) (.idle oneByte blankDisk []) oneByteActs =
      .ok c ∧ ∃ s ∈ c.session?,
        s.sock.inp = blockWire 0 (UInt32.ofNat oneByteBlock.begin) [42] ++ [] ∧ s.sock.recvs = [] ∧
        s.torrent.pieceLength = 16384 ∧
        oneByteBlock ∈ (pieceRequestCreate s.torrent.layout 0).blockRequests ∧
        s.torrent.isMapped ⟨0, 0, 1⟩ = false := by
    decide +kernel
  obtain ⟨c, hrun, s, hs, hinp, hrecvs, hlength, hblock, hunmapped⟩ := hdropped
  have hrel : s.sock.RecvReliable := by simp [Socket.RecvReliable, hrecvs]
  refine ⟨s, hrun.trans (congrArg _ (Client.mem_session?.mp hs)), hinp, hrel, hlength, hblock,
    fun hlands => ?_⟩
  have hreadable := readable_of_lands (by rw [hlength]; decide) hblock rfl hrel hinp hlands
  have hmapped := readable_mems.mp hreadable ⟨0, 0, 1⟩ (by decide) (by decide)
  rw [hunmapped] at hmapped
  cases hmapped

end Daobell
