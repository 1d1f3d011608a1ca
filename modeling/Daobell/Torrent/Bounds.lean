import Daobell.Torrent.PieceRequest
import Mathlib.Data.List.Chain

/-!
How far the blocks of a piece reach. The loop of `piece_request_create` counts
down `left`, which may wrap; what it really consumes are the bytes that are
ahead in the files. So it stops for every row of files, and its ranges stay
inside the mappings, but its blocks stay inside the piece only where `left`
comes to zero or the files end.
-/

namespace Daobell

open Lib

/-- The place behind a range: in the same file, or at the start of the next
one. -/
def FileMem.next (sizes : List ℕ) (mem : FileMem) : Address :=
  if mem.offset + mem.size < sizes.getD mem.file 0 then (mem.file, mem.offset + mem.size)
  else (mem.file + 1, 0)

theorem FileMem.next_of_lt {sizes : List ℕ} {file offset size s : ℕ}
    (hs : sizes[file]? = some s) (h : offset + size < s) :
    FileMem.next sizes ⟨file, offset, size⟩ = (file, offset + size) := by
  rw [FileMem.next, List.getD_eq_getElem?_getD, hs, Option.getD_some, if_pos h]

theorem FileMem.next_of_le {sizes : List ℕ} {file offset size s : ℕ}
    (hs : sizes[file]? = some s) (h : s ≤ offset + size) :
    FileMem.next sizes ⟨file, offset, size⟩ = (file + 1, 0) := by
  rw [FileMem.next, List.getD_eq_getElem?_getD, hs, Option.getD_some, if_neg (Nat.not_lt.mpr h)]

def FileMem.Inside (sizes : List ℕ) (mem : FileMem) : Prop :=
  ∃ size, sizes[mem.file]? = some size ∧ mem.offset + mem.size ≤ size

/-- The ranges follow one another from the place `p` to the place `q`, without a
gap and inside the files. -/
def Path (sizes : List ℕ) : Address → List FileMem → Address → Prop
  | p, [], q => p = q
  | p, mem :: mems, q =>
      p = (mem.file, mem.offset) ∧ mem.Inside sizes ∧ Path sizes (mem.next sizes) mems q

theorem Path.append {sizes : List ℕ} {p q r : Address} {mems mems' : List FileMem}
    (h : Path sizes p mems q) (h' : Path sizes q mems' r) : Path sizes p (mems ++ mems') r := by
  induction mems generalizing p with
  | nil =>
      cases h
      exact h'
  | cons mem mems ih =>
      obtain ⟨hp, hmem, hmems⟩ := h
      exact ⟨hp, hmem, ih hmems⟩

theorem Path.inside {sizes : List ℕ} {p q : Address} {mems : List FileMem}
    (h : Path sizes p mems q) : ∀ mem ∈ mems, mem.Inside sizes := by
  induction mems generalizing p with
  | nil => simp
  | cons mem mems ih =>
      obtain ⟨-, hmem, hmems⟩ := h
      exact List.forall_mem_cons.mpr ⟨hmem, ih hmems⟩

section

variable (torrent : FileRow)

def Cursor.place (c : Cursor) : Address := (c.filesVecIndex, c.offset)

theorem length_ahead {c : Cursor} :
    (c.ahead torrent).length = (torrent.sizes.drop c.filesVecIndex).sum - c.offset := by
  simp [Cursor.ahead]

theorem fillBlock_path {ss : List ℕ} (currSize : ℕ) {c : Cursor} (mems : List FileMem)
    (hss : torrent.sizes.drop c.filesVecIndex = ss) (hvalid : c.Valid torrent)
    (hcurr : currSize ≤ peerRequestSize) :
    ∃ new currSize' c',
      fillBlock c.filesVecIndex ss c currSize mems = (mems ++ new, currSize', c') ∧
      Path torrent.sizes c.place new c'.place ∧
      (currSize' < peerRequestSize → torrent.sizes.length ≤ c'.filesVecIndex) := by
  induction ss generalizing c currSize mems with
  | nil =>
      have hle : torrent.sizes.length ≤ c.filesVecIndex := List.drop_eq_nil_iff.mp hss
      exact ⟨[], currSize, c, by simp [fillBlock], rfl, fun _ => hle⟩
  | cons s ss ih =>
      obtain ⟨hlt, hs, hss'⟩ := drop_eq_cons torrent hss
      have hs32 := torrent.size_lt s hs
      have hle := hvalid.offset_le torrent hss
      have hsize : torrent.sizes[c.filesVecIndex]? = some s := by
        rw [← List.head?_drop, hss, List.head?_cons]
      rcases Nat.lt_or_eq_of_le hcurr with hcurr' | rfl
      swap
      · rw [fillBlock_full]
        exact ⟨[], peerRequestSize, c, by simp, rfl, fun h => absurd h (lt_irrefl _)⟩
      rw [fillBlock, if_pos hcurr', subUnsigned_of_le hcurr (by decide),
        subSize_of_le hle (by omega)]
      by_cases hcut : peerRequestSize - currSize < s - c.offset
      · rw [if_pos hcut, Nat.add_sub_cancel' hcurr, fillBlock_full]
        refine ⟨[⟨c.filesVecIndex, c.offset, peerRequestSize - currSize⟩], _, _, rfl,
          ⟨rfl, ⟨s, hsize, ?_⟩, ?_⟩, fun h => absurd h (lt_irrefl _)⟩
        · show c.offset + (peerRequestSize - currSize) ≤ s
          omega
        rw [FileMem.next_of_lt hsize (by omega)]
        rfl
      · rw [if_neg hcut]
        obtain ⟨new, currSize', c', heq, hpath, hend⟩ := ih (currSize + (s - c.offset))
          (mems ++ [⟨c.filesVecIndex, c.offset, s - c.offset⟩])
          (c := ⟨0, subSize c.left (s - c.offset), c.filesVecIndex + 1⟩)
          hss' ⟨hlt, .inl rfl⟩ (by omega)
        refine ⟨⟨c.filesVecIndex, c.offset, s - c.offset⟩ :: new, currSize', c', ?_,
          ⟨rfl, ⟨s, hsize, (Nat.add_sub_of_le hle).le⟩, ?_⟩, hend⟩
        · rw [List.append_assoc, List.singleton_append] at heq
          exact heq
        · rw [FileMem.next_of_le hsize (by omega)]
          exact hpath

/-- Of the ranges of a block only the first may begin inside a file. -/
theorem fillBlock_tail (ss : List ℕ) (i : ℕ) (c : Cursor) (currSize : ℕ) (mems : List FileMem)
    (hcurr : currSize ≤ peerRequestSize) :
    ∃ new currSize' c', fillBlock i ss c currSize mems = (mems ++ new, currSize', c') ∧
      (∀ mem ∈ new.tail, mem.offset = 0) ∧ (c.offset = 0 → ∀ mem ∈ new, mem.offset = 0) := by
  induction ss generalizing i c currSize mems with
  | nil => exact ⟨[], currSize, c, by simp [fillBlock], by simp, by simp⟩
  | cons s ss ih =>
      rcases Nat.lt_or_eq_of_le hcurr with hcurr' | rfl
      swap
      · rw [fillBlock_full]
        exact ⟨[], peerRequestSize, c, by simp, by simp, by simp⟩
      rw [fillBlock, if_pos hcurr', subUnsigned_of_le hcurr (by decide)]
      by_cases hcut : peerRequestSize - currSize < subSize s c.offset
      · rw [if_pos hcut, Nat.add_sub_cancel' hcurr, fillBlock_full]
        exact ⟨[⟨i, c.offset, peerRequestSize - currSize⟩], _, _, rfl, by simp, by simp⟩
      · rw [if_neg hcut]
        obtain ⟨new, currSize', c', heq, -, hall⟩ := ih (i + 1)
          ⟨0, subSize c.left (subSize s c.offset), c.filesVecIndex + 1⟩
          (currSize + subSize s c.offset) (mems ++ [⟨i, c.offset, subSize s c.offset⟩]) (by omega)
        refine ⟨⟨i, c.offset, subSize s c.offset⟩ :: new, currSize', c', ?_, hall rfl, fun h0 => ?_⟩
        · rw [heq, List.append_assoc, List.singleton_append]
        · exact List.forall_mem_cons.mpr ⟨h0, hall rfl⟩

theorem nextBlockRequest_tail {pieceLen : ℕ} {c c' : Cursor} {block : BlockRequest}
    (h : nextBlockRequest torrent pieceLen c = some (block, c')) :
    ∀ mem ∈ block.fileMems.tail, mem.offset = 0 := by
  obtain ⟨new, currSize', c'', heq, htail, -⟩ := fillBlock_tail
    (torrent.sizes.drop c.filesVecIndex) c.filesVecIndex c 0 [] (Nat.zero_le _)
  rw [nextBlockRequest] at h
  split at h
  · cases h
  · rw [heq] at h
    cases h
    exact htail

theorem createLoop_tail (fuel : ℕ) (c : Cursor) {block : BlockRequest}
    (hblock : block ∈ createLoop torrent fuel c) : ∀ mem ∈ block.fileMems.tail, mem.offset = 0 := by
  induction fuel generalizing c with
  | zero => cases hblock
  | succ fuel ih =>
      rw [createLoop] at hblock
      split at hblock
      · cases hblock
      · rename_i hnext
        rcases List.mem_cons.mp hblock with rfl | hblock
        · exact nextBlockRequest_tail torrent hnext
        · exact ih _ hblock

theorem pieceRequestCreate_tail {index : UInt32} {block : BlockRequest}
    (hblock : block ∈ (pieceRequestCreate torrent index).blockRequests) :
    ∀ mem ∈ block.fileMems.tail, mem.offset = 0 := createLoop_tail torrent _ _ hblock

/-- A block that is made begins where the cursor was and ends where it is then;
it is short only if the files end with it. -/
theorem nextBlockRequest_path {pieceLen : ℕ} {c c' : Cursor} {block : BlockRequest}
    (hvalid : c.Valid torrent) (h : nextBlockRequest torrent pieceLen c = some (block, c')) :
    Path torrent.sizes c.place block.fileMems c'.place ∧
      (block.len < peerRequestSize → torrent.sizes.length ≤ c'.filesVecIndex) := by
  obtain ⟨new, currSize', c'', heq, hpath, hend⟩ :=
    fillBlock_path torrent 0 [] rfl hvalid (Nat.zero_le _)
  rw [nextBlockRequest] at h
  split at h
  · cases h
  · rw [heq] at h
    cases h
    exact ⟨hpath, hend⟩

theorem createLoop_of_some {fuel : ℕ} {c c' : Cursor} {block : BlockRequest}
    (h : nextBlockRequest torrent torrent.pieceLength.toNat c = some (block, c')) :
    createLoop torrent (fuel + 1) c = block :: createLoop torrent fuel c' := by
  rw [createLoop, h]

/-- **The loop ends.** From any cursor there is a list of blocks that the loop
makes however long it is let run, and it makes one for every
`PEER_REQUEST_SIZE` bytes ahead and one more at most. -/
theorem createLoop_stops (n : ℕ) {c : Cursor} (hn : (c.ahead torrent).length = n)
    (hvalid : c.Valid torrent) (hleft : c.left < 2 ^ 64) :
    ∃ blocks, blocks.length ≤ n / peerRequestSize + 1 ∧
      (∀ fuel, blocks.length ≤ fuel → createLoop torrent fuel c = blocks) ∧
      ∃ stop, Path torrent.sizes c.place (blocks.flatMap BlockRequest.fileMems) stop := by
  induction n using Nat.strong_induction_on generalizing c with
  | _ n ih =>
      by_cases hend : c.left = 0 ∨ torrent.sizes.length ≤ c.filesVecIndex
      · exact ⟨[], by simp, fun fuel _ => createLoop_of_none torrent hend, c.place, rfl⟩
      obtain ⟨hleft0, hlt⟩ := not_or.mp hend
      obtain ⟨block, c', hnext, -, hlen, -, hfills⟩ := nextBlockRequest_fills torrent hvalid hleft
        hleft0 (Nat.lt_of_not_le hlt) torrent.pieceLength.toNat
      obtain ⟨hpath, hshort⟩ := nextBlockRequest_path torrent hvalid hnext
      have hahead' : (c'.ahead torrent).length = n - peerRequestSize := by
        rw [hfills.ahead, List.length_drop, hn]
      by_cases hfull : peerRequestSize ≤ n
      -- the bytes ahead are the measure, as `left` may have wrapped
      · obtain ⟨blocks, hcount, hrun, stop, hpaths⟩ := ih (n - peerRequestSize)
          (Nat.sub_lt_self (by decide) hfull) hahead' hfills.valid
          (hfills.left ▸ subSize_lt _ _)
        refine ⟨block :: blocks, ?_, ?_, stop, hpath.append hpaths⟩
        · rw [List.length_cons]
          simp only [peerRequestSize] at hcount hfull ⊢
          omega
        · intro fuel hfuel
          cases fuel with
          | zero => simp at hfuel
          | succ fuel =>
              rw [createLoop_of_some torrent hnext, hrun fuel (Nat.le_of_succ_le_succ hfuel)]
      · have hend' : torrent.sizes.length ≤ c'.filesVecIndex := by
          apply hshort
          rw [hlen]
          omega
        refine ⟨[block], by simp, ?_, c'.place, by simpa using hpath⟩
        intro fuel hfuel
        cases fuel with
        | zero => simp at hfuel
        | succ fuel =>
            rw [createLoop_of_some torrent hnext, createLoop_of_none torrent (.inr hend')]

def startCursor (index : UInt32) : Cursor :=
  ⟨(skipUntilIndex torrent index).1, torrent.pieceLength.toNat, (skipUntilIndex torrent index).2⟩

theorem pieceRequestCreate_eq (index : UInt32) :
    (pieceRequestCreate torrent index).blockRequests =
      createLoop torrent (chunkCount peerRequestSize torrent.sizes.sum + 1)
        (startCursor torrent index) := rfl

theorem startCursor_valid (index : UInt32) : (startCursor torrent index).Valid torrent :=
  (skipLoop_ahead torrent List.drop_zero (torrent.pieceLength * index).toNat (Nat.zero_le _)
    torrent.pieceLength.toNat).1

theorem length_ahead_startCursor (index : UInt32) :
    ((startCursor torrent index).ahead torrent).length =
      torrent.sizes.sum - (torrent.pieceLength * index).toNat := by
  have h := (skipLoop_ahead torrent List.drop_zero (torrent.pieceLength * index).toNat
    (Nat.zero_le _) torrent.pieceLength.toNat).2
  rw [startCursor, skipUntilIndex, h, List.length_drop, length_addressesFrom]

theorem startCursor_left_lt (index : UInt32) : (startCursor torrent index).left < 2 ^ 64 := by
  have hpl : torrent.pieceLength.toNat < 2 ^ 32 := torrent.pieceLength.toNat_lt
  exact hpl.trans (by decide)

end

/-- **`piece_request_create` stops and stays inside the mappings.** For every
row of files, every piece length and every index the loop makes at most one
block for every `PEER_REQUEST_SIZE` bytes from its start to the end of the last
file, and one more; every range is inside its file, and each begins where the
one before ends. -/
theorem pieceRequestCreate_stops (torrent : FileRow) (index : UInt32) :
    let offset := (skipUntilIndex torrent index).1
    let filesVecIndex := (skipUntilIndex torrent index).2
    let R := (torrent.sizes.drop filesVecIndex).sum - offset
    let blocks := (pieceRequestCreate torrent index).blockRequests
    blocks.length ≤ R / peerRequestSize + 1 ∧
      (∀ fuel, blocks.length ≤ fuel → createLoop torrent fuel
        ⟨offset, torrent.pieceLength.toNat, filesVecIndex⟩ = blocks) ∧
      (∀ block ∈ blocks, ∀ mem ∈ block.fileMems, ∃ size,
        torrent.sizes[mem.file]? = some size ∧ mem.offset + mem.size ≤ size) ∧
      ∃ stop, Path torrent.sizes (filesVecIndex, offset) (blocks.flatMap BlockRequest.fileMems)
        stop := by
  intro offset filesVecIndex R blocks
  have hR : ((startCursor torrent index).ahead torrent).length = R := length_ahead torrent
  obtain ⟨blocks', hcount, hrun, stop, hpath⟩ := createLoop_stops torrent R hR
    (startCursor_valid torrent index) (startCursor_left_lt torrent index)
  have hfuel : blocks'.length ≤ chunkCount peerRequestSize torrent.sizes.sum + 1 := by
    have hle : R / peerRequestSize ≤ chunkCount peerRequestSize torrent.sizes.sum := by
      rw [← hR, length_ahead_startCursor]
      exact Nat.div_le_div_right ((Nat.sub_le _ _).trans (Nat.le_add_right _ _))
    omega
  have hblocks : blocks = blocks' :=
    (pieceRequestCreate_eq torrent index).trans (hrun _ hfuel)
  rw [hblocks]
  refine ⟨hcount, hrun, ?_, stop, hpath⟩
  intro block hblock mem hmem
  exact hpath.inside mem (List.mem_flatMap.mpr ⟨block, hblock, hmem⟩)

/-! ### The end of the piece -/

section

variable (torrent : FileRow)

/-- No subtraction of the run `*left -= mem->size` goes below zero. -/
def NoUnderflow : ℕ → List ℕ → Prop
  | _, [] => True
  | left, size :: sizes => size ≤ left ∧ NoUnderflow (subSize left size) sizes

theorem noUnderflow_iff {left : ℕ} (hleft : left < 2 ^ 64) (sizes : List ℕ) :
    NoUnderflow left sizes ↔ sizes.sum ≤ left := by
  induction sizes generalizing left with
  | nil => simp [NoUnderflow]
  | cons size sizes ih =>
      rw [NoUnderflow, ih (subSize_lt _ _), List.sum_cons]
      constructor
      · rintro ⟨hle, hrest⟩
        rw [subSize_of_le hle hleft] at hrest
        omega
      · intro hsum
        have hle : size ≤ left := by omega
        rw [subSize_of_le hle hleft]
        exact ⟨hle, by omega⟩

/-- What the blocks of a list take from `left`, range by range. -/
def takenSizes (blocks : List BlockRequest) : List ℕ :=
  (blocks.flatMap BlockRequest.fileMems).map FileMem.size

theorem sum_takenSizes_cons (block : BlockRequest) (blocks : List BlockRequest) :
    (takenSizes (block :: blocks)).sum =
      (block.fileMems.map FileMem.size).sum + (takenSizes blocks).sum := by
  simp [takenSizes]

theorem sum_sizes (mems : List FileMem) :
    (mems.map FileMem.size).sum = (mems.flatMap FileMem.positions).length := by
  rw [List.length_flatMap]
  congr 1
  exact List.map_congr_left fun mem _ => (length_span _ _ _).symm

theorem Fills.sum_sizes {c c' : Cursor} {room : ℕ} {new : List FileMem}
    (h : Fills torrent c room new c') :
    (new.map FileMem.size).sum = min room (c.ahead torrent).length := by
  rw [Daobell.sum_sizes, h.positions, List.length_take]

/-- While `left` is a multiple of the block size, or all that is ahead belongs
to the piece, a block never takes more than `left`. -/
theorem createLoop_within (fuel : ℕ) {c : Cursor} (hvalid : c.Valid torrent)
    (hle : c.left ≤ torrent.pieceLength.toNat)
    (h : peerRequestSize ∣ c.left ∨ (c.ahead torrent).length ≤ c.left) :
    (takenSizes (createLoop torrent fuel c)).sum ≤ c.left ∧
      ∀ block ∈ createLoop torrent fuel c, block.begin + block.len ≤ torrent.pieceLength.toNat := by
  have hpl : torrent.pieceLength.toNat < 2 ^ 32 := torrent.pieceLength.toNat_lt
  induction fuel generalizing c with
  | zero => simp [createLoop, takenSizes]
  | succ fuel ih =>
      by_cases hend : c.left = 0 ∨ torrent.sizes.length ≤ c.filesVecIndex
      · simp [createLoop_of_none torrent hend, takenSizes]
      obtain ⟨hleft0, hlt⟩ := not_or.mp hend
      obtain ⟨block, c', hnext, hbegin, hlen, -, hfills⟩ := nextBlockRequest_fills torrent hvalid
        (by omega) hleft0 (Nat.lt_of_not_le hlt) torrent.pieceLength.toNat
      have htake : min peerRequestSize (c.ahead torrent).length ≤ c.left := by
        rcases h with hdvd | hrest
        · exact (Nat.min_le_left _ _).trans (Nat.le_of_dvd (Nat.pos_of_ne_zero hleft0) hdvd)
        · exact (Nat.min_le_right _ _).trans hrest
      have hleft' : c'.left = c.left - min peerRequestSize (c.ahead torrent).length :=
        hfills.left.trans (subSize_of_le htake (by omega))
      have hahead' : (c'.ahead torrent).length = (c.ahead torrent).length - peerRequestSize := by
        rw [hfills.ahead, List.length_drop]
      have h' : peerRequestSize ∣ c'.left ∨ (c'.ahead torrent).length ≤ c'.left := by
        rw [hleft', hahead']
        simp only [peerRequestSize] at h ⊢
        omega
      obtain ⟨hsum, hblocks⟩ := ih hfills.valid (by omega) h'
      rw [createLoop_of_some torrent hnext]
      constructor
      · rw [sum_takenSizes_cons, hfills.sum_sizes]
        omega
      · refine List.forall_mem_cons.mpr ⟨?_, hblocks⟩
        rw [hbegin, hlen, subSize_of_le hle (by omega)]
        omega

/-- A piece length that is no multiple of the block size is stepped over, if the
files go on. -/
theorem lt_sum_takenSizes (fuel : ℕ) {c : Cursor} (hvalid : c.Valid torrent)
    (hleft : c.left < 2 ^ 64) (hdvd : ¬peerRequestSize ∣ c.left)
    (hlt : c.left < (c.ahead torrent).length) (hfuel : c.left / peerRequestSize < fuel) :
    c.left < (takenSizes (createLoop torrent fuel c)).sum := by
  induction fuel generalizing c with
  | zero => exact absurd hfuel (Nat.not_lt_zero _)
  | succ fuel ih =>
      have hleft0 : c.left ≠ 0 := fun h0 => hdvd (h0 ▸ Nat.dvd_zero _)
      have hfile : c.filesVecIndex < torrent.sizes.length := by
        by_contra hge
        rw [length_ahead, List.drop_eq_nil_of_le (Nat.le_of_not_lt hge)] at hlt
        simp at hlt
      obtain ⟨block, c', hnext, -, -, -, hfills⟩ := nextBlockRequest_fills torrent hvalid hleft
        hleft0 hfile torrent.pieceLength.toNat
      rw [createLoop_of_some torrent hnext, sum_takenSizes_cons, hfills.sum_sizes]
      by_cases hover : c.left < min peerRequestSize (c.ahead torrent).length
      · omega
      have htake : min peerRequestSize (c.ahead torrent).length = peerRequestSize := by omega
      have hleft' : c'.left = c.left - peerRequestSize := by
        rw [hfills.left, htake, subSize_of_le (by omega) hleft]
      have hahead' : (c'.ahead torrent).length = (c.ahead torrent).length - peerRequestSize := by
        rw [hfills.ahead, List.length_drop]
      have hrest := ih hfills.valid (by omega)
        (by
          rw [hleft']
          simp only [peerRequestSize] at *
          omega)
        (by omega)
        (by
          rw [hleft']
          simp only [peerRequestSize] at *
          omega)
      omega

end

/-- **Blocks stay in their piece just when** the piece length is a multiple of
`PEER_REQUEST_SIZE`, or the files end with the piece or before it. -/
theorem pieceRequestCreate_within_iff (torrent : FileRow) (index : UInt32) :
    let blocks := (pieceRequestCreate torrent index).blockRequests
    (NoUnderflow torrent.pieceLength.toNat
        ((blocks.flatMap BlockRequest.fileMems).map FileMem.size) ∧
      ∀ block ∈ blocks, block.begin + block.len ≤ torrent.pieceLength.toNat) ↔
      peerRequestSize ∣ torrent.pieceLength.toNat ∨
        torrent.sizes.sum - (torrent.pieceLength * index).toNat ≤ torrent.pieceLength.toNat := by
  intro blocks
  have hvalid := startCursor_valid torrent index
  have hleft := startCursor_left_lt torrent index
  rw [noUnderflow_iff (show torrent.pieceLength.toNat < 2 ^ 64 from hleft),
    ← length_ahead_startCursor]
  constructor
  · rintro ⟨hsum, -⟩
    by_contra hnot
    obtain ⟨hdvd, hlt⟩ := not_or.mp hnot
    have hfuel : torrent.pieceLength.toNat / peerRequestSize <
        chunkCount peerRequestSize torrent.sizes.sum + 1 := by
      rw [length_ahead_startCursor] at hlt
      have hle : torrent.pieceLength.toNat ≤ torrent.sizes.sum := by omega
      exact Nat.lt_succ_of_le (Nat.div_le_div_right (hle.trans (Nat.le_add_right _ _)))
    exact absurd hsum (Nat.not_le.mpr
      (lt_sum_takenSizes torrent _ hvalid hleft hdvd (Nat.lt_of_not_le hlt) hfuel))
  · intro h
    exact createLoop_within torrent _ hvalid le_rfl h

def oddPieces : FileRow := ⟨20000, [40000], by decide, by decide⟩

/-- The second block of the first of two pieces ends in the second one. -/
theorem not_pieceRequestCreate_within_oddPieces :
    let blocks := (pieceRequestCreate oddPieces 0).blockRequests
    0 < oddPieces.pieceLength ∧
      0 * oddPieces.pieceLength.toNat < oddPieces.sizes.sum ∧
      ¬NoUnderflow oddPieces.pieceLength.toNat
        ((blocks.flatMap BlockRequest.fileMems).map FileMem.size) ∧
      ¬∀ block ∈ blocks, block.begin + block.len ≤ oddPieces.pieceLength.toNat := by
  refine ⟨by decide, by decide, ?_, by decide⟩
  rw [noUnderflow_iff (by decide)]
  decide

end Daobell
