import Daobell.Cxx
import Daobell.Lib.Chunks
import Daobell.Lib.Segments
import Mathlib.Algebra.Order.BigOperators.Group.List

/-!
The layout of pieces and blocks over the files of a torrent, as
`piece_request.cpp` computes it. The files are a row of segments; an address is
the number of a file and an offset into it. A piece is cut into blocks of
`PEER_REQUEST_SIZE` bytes, and a block is a list of ranges of files.
-/

namespace Daobell

open Lib

abbrev Address := ℕ × ℕ

abbrev peerRequestSize : ℕ := 16384

/-- What `piece_request.cpp` reads of a `torrent_info`. The size of a file and the
number of a file are `unsigned`. -/
structure FileRow where
  pieceLength : UInt32
  sizes : List ℕ
  size_lt : ∀ s ∈ sizes, s < 2 ^ 32
  count_lt : sizes.length < 2 ^ 32

/-- As `torrent_init` leaves it. No file is empty, as `mmap` refuses the length
zero, and there are fewer than `2^31` of them, which is more mappings than a
process can have. -/
structure Layout extends FileRow where
  size_pos : ∀ s ∈ sizes, 0 < s
  length_lt : sizes.length < 2 ^ 31

instance : Coe Layout FileRow := ⟨Layout.toFileRow⟩

/-- A `file_mem`: `size` bytes of the mapping of a file, from `offset` on. -/
structure FileMem where
  file : ℕ
  offset : ℕ
  size : ℕ
  deriving DecidableEq

def FileMem.positions (mem : FileMem) : List Address := span mem.file mem.offset mem.size

structure BlockRequest where
  fileMems : List FileMem
  begin : ℕ
  len : ℕ
  completed : Bool
  deriving DecidableEq

structure PieceRequest where
  pieceIndex : UInt32
  blockRequests : List BlockRequest
  blocksLeft : ℕ
  deriving DecidableEq

/-- The loop of `skip_until_index`, at file `i`: the offset and the
`files_vec_index` it comes to. -/
def skipLoop : ℕ → List ℕ → ℕ → ℕ × ℕ
  | i, [], _ => (0, i)
  | i, size :: sizes, skip =>
      if 0 < skip then
        if skip < size then (skip, i) else skipLoop (i + 1) sizes (skip - size)
      else (0, i)

/-- `skip_until_index`. The product is one of `unsigned` values. -/
def skipUntilIndex (torrent : FileRow) (index : UInt32) : ℕ × ℕ :=
  skipLoop 0 torrent.sizes (torrent.pieceLength * index).toNat

/-- What the calls of `next_block_request` share through their out-parameters. -/
structure Cursor where
  offset : ℕ
  left : ℕ
  filesVecIndex : ℕ

/-- The loop of `next_block_request`, at file `i`, with `curr_size` and the
ranges pushed so far. -/
def fillBlock : ℕ → List ℕ → Cursor → ℕ → List FileMem → List FileMem × ℕ × Cursor
  | _, [], c, currSize, mems => (mems, currSize, c)
  | i, fileSize :: sizes, c, currSize, mems =>
      if currSize < peerRequestSize then
        let size := subSize fileSize c.offset
        let room := subUnsigned peerRequestSize currSize
        -- only a file that is read to its end is left behind
        if room < size then
          fillBlock (i + 1) sizes ⟨c.offset + room, subSize c.left room, c.filesVecIndex⟩
            (currSize + room) (mems ++ [⟨i, c.offset, room⟩])
        else
          fillBlock (i + 1) sizes ⟨0, subSize c.left size, c.filesVecIndex + 1⟩
            (currSize + size) (mems ++ [⟨i, c.offset, size⟩])
      else (mems, currSize, c)

/-- `next_block_request`; `none` for `NULL`. -/
def nextBlockRequest (torrent : FileRow) (pieceLen : ℕ) (c : Cursor) :
    Option (BlockRequest × Cursor) :=
  if c.left = 0 ∨ torrent.sizes.length ≤ c.filesVecIndex then none
  else
    let (mems, currSize, c') :=
      fillBlock c.filesVecIndex (torrent.sizes.drop c.filesVecIndex) c 0 []
    some (⟨mems, subSize pieceLen c.left, currSize, false⟩, c')

def createLoop (torrent : FileRow) : ℕ → Cursor → List BlockRequest
  | 0, _ => []
  | fuel + 1, c =>
      match nextBlockRequest torrent torrent.pieceLength.toNat c with
      | none => []
      | some (block, c') => block :: createLoop torrent fuel c'

/-- `piece_request_create`. The loop goes round at most once for every block of
all the files together; `createLoop_view` shows that the bound is never met. -/
def pieceRequestCreate (torrent : FileRow) (index : UInt32) : PieceRequest :=
  let (offset, filesVecIndex) := skipUntilIndex torrent index
  let blocks := createLoop torrent (chunkCount peerRequestSize torrent.sizes.sum + 1)
    ⟨offset, torrent.pieceLength.toNat, filesVecIndex⟩
  ⟨index, blocks, blocks.length % 2 ^ 32⟩

def pieceRequestBlockAt (request : PieceRequest) (offset : ℕ) : Option BlockRequest :=
  request.blockRequests.find? fun block => block.begin = offset

/-! ### What the cursor stands for -/

section

variable (torrent : FileRow)

def BlockRequest.positions (block : BlockRequest) : List Address :=
  block.fileMems.flatMap FileMem.positions

/-- The cursor is at the start of a file, behind the last file, or inside a
file. -/
def Cursor.Valid (c : Cursor) : Prop :=
  c.filesVecIndex ≤ torrent.sizes.length ∧
    (c.offset = 0 ∨ ∃ s ∈ (torrent.sizes.drop c.filesVecIndex).head?, c.offset < s)

/-- The addresses from the cursor to the end of the last file. -/
def Cursor.ahead (c : Cursor) : List Address :=
  (addressesFrom c.filesVecIndex (torrent.sizes.drop c.filesVecIndex)).drop c.offset

theorem drop_eq_cons {i s : ℕ} {ss : List ℕ} (h : torrent.sizes.drop i = s :: ss) :
    i < torrent.sizes.length ∧ s ∈ torrent.sizes ∧ torrent.sizes.drop (i + 1) = ss := by
  have hlt : i < torrent.sizes.length := by
    by_contra hge
    rw [List.drop_eq_nil_of_le (by omega)] at h
    cases h
  refine ⟨hlt, List.mem_of_mem_drop (h ▸ List.mem_cons_self), ?_⟩
  rw [← List.tail_drop, h]
  rfl

theorem skipLoop_ahead {ss : List ℕ} {i : ℕ} (hss : torrent.sizes.drop i = ss) (skip : ℕ)
    (hi : i ≤ torrent.sizes.length) (left : ℕ) :
    Cursor.Valid torrent ⟨(skipLoop i ss skip).1, left, (skipLoop i ss skip).2⟩ ∧
      Cursor.ahead torrent ⟨(skipLoop i ss skip).1, left, (skipLoop i ss skip).2⟩ =
        (addressesFrom i ss).drop skip := by
  induction ss generalizing i skip with
  | nil => simp [skipLoop, Cursor.Valid, Cursor.ahead, hi, hss, addressesFrom]
  | cons s ss ih =>
      obtain ⟨hlt, hs, hss'⟩ := drop_eq_cons torrent hss
      rw [skipLoop]
      by_cases hpos : 0 < skip
      · rw [if_pos hpos]
        by_cases hin : skip < s
        · rw [if_pos hin]
          exact ⟨⟨hi, .inr ⟨s, by simp [hss], hin⟩⟩, by simp [Cursor.ahead, hss]⟩
        · rw [if_neg hin]
          obtain ⟨hvalid, hahead⟩ := ih hss' (skip - s) hlt
          refine ⟨hvalid, hahead.trans ?_⟩
          have hskipped : (span i 0 s).drop skip = [] :=
            List.drop_eq_nil_of_le (by rw [length_span]; omega)
          rw [addressesFrom, List.drop_append, length_span, hskipped, List.nil_append]
      · rw [if_neg hpos, Nat.eq_zero_of_not_pos hpos]
        exact ⟨⟨hi, .inl rfl⟩, by simp [Cursor.ahead, hss]⟩

theorem subSize_subSize {left a b : ℕ} (hab : a + b < 2 ^ 64) :
    subSize (subSize left a) b = subSize left (a + b) := by
  simp only [subSize]
  omega

theorem Cursor.Valid.offset_le {c : Cursor} (h : c.Valid torrent) {s : ℕ} {ss : List ℕ}
    (hss : torrent.sizes.drop c.filesVecIndex = s :: ss) : c.offset ≤ s := by
  rcases h.2 with h0 | ⟨t, ht, hlt⟩
  · omega
  · rw [hss, List.head?_cons, Option.mem_some_iff] at ht
    omega

/-- What is ahead inside a file: the rest of it, and the files behind it. -/
theorem Cursor.ahead_cons {c : Cursor} {s : ℕ} {ss : List ℕ}
    (hss : torrent.sizes.drop c.filesVecIndex = s :: ss) (hle : c.offset ≤ s) :
    c.ahead torrent = span c.filesVecIndex c.offset (s - c.offset) ++
      addressesFrom (c.filesVecIndex + 1) ss := by
  rw [Cursor.ahead, hss, addressesFrom, List.drop_append_of_le_length (by simpa using hle),
    span_drop _ _ _ _ hle, Nat.zero_add]

theorem fillBlock_full (i : ℕ) (ss : List ℕ) (c : Cursor) (mems : List FileMem) :
    fillBlock i ss c peerRequestSize mems = (mems, peerRequestSize, c) := by
  cases ss <;> simp [fillBlock]

/-- The ranges `new` are the first `room` addresses ahead of the cursor, or all
of them, and `c'` is the cursor behind them. -/
structure Fills (c : Cursor) (room : ℕ) (new : List FileMem) (c' : Cursor) : Prop where
  positions : new.flatMap FileMem.positions = (c.ahead torrent).take room
  valid : c'.Valid torrent
  ahead : c'.ahead torrent = (c.ahead torrent).drop room
  left : c'.left = subSize c.left (min room (c.ahead torrent).length)

theorem fills_nothing {c : Cursor} (hvalid : c.Valid torrent) (hleft : c.left < 2 ^ 64) {room : ℕ}
    (h : room = 0 ∨ c.ahead torrent = []) : Fills torrent c room [] c := by
  have hleft0 : c.left = subSize c.left 0 := by
    rw [subSize]
    omega
  rcases h with rfl | hnil
  · exact ⟨by simp, hvalid, by simp, by simpa using hleft0⟩
  · exact ⟨by simp [hnil], hvalid, by simp [hnil], by simpa [hnil] using hleft0⟩

theorem fills_cut {c : Cursor} {s : ℕ} {ss : List ℕ}
    (hss : torrent.sizes.drop c.filesVecIndex = s :: ss) (hvalid : c.Valid torrent) {room : ℕ}
    (hcut : room < s - c.offset) :
    Fills torrent c room [⟨c.filesVecIndex, c.offset, room⟩]
      ⟨c.offset + room, subSize c.left room, c.filesVecIndex⟩ := by
  have hle := hvalid.offset_le torrent hss
  have hin : c.offset + room < s := by omega
  have hahead := Cursor.ahead_cons torrent hss hle
  have hahead' := Cursor.ahead_cons torrent
    (c := ⟨c.offset + room, subSize c.left room, c.filesVecIndex⟩) hss hin.le
  have hlen : room ≤ (span c.filesVecIndex c.offset (s - c.offset)).length := by
    rw [length_span]
    exact hcut.le
  constructor
  · rw [hahead, List.take_append_of_le_length hlen, span_take _ _ _ _ hcut.le]
    simp [FileMem.positions]
  · exact ⟨(drop_eq_cons torrent hss).1.le, .inr ⟨s, by simp [hss], hin⟩⟩
  · rw [hahead', hahead, List.drop_append_of_le_length hlen, span_drop _ _ _ _ hcut.le,
      Nat.sub_sub]
  · have hmin : min room (c.ahead torrent).length = room := by
      rw [hahead, List.length_append]
      omega
    rw [hmin]

theorem Cursor.ahead_next {i s : ℕ} {ss : List ℕ} (hss : torrent.sizes.drop i = s :: ss)
    (left : ℕ) : Cursor.ahead torrent ⟨0, left, i + 1⟩ = addressesFrom (i + 1) ss := by
  simp [Cursor.ahead, (drop_eq_cons torrent hss).2.2]

/-- The length of a block that takes the rest of the file and goes on in the
next one. -/
theorem min_ahead_cons {c : Cursor} {s : ℕ} {ss : List ℕ}
    (hss : torrent.sizes.drop c.filesVecIndex = s :: ss) (hvalid : c.Valid torrent) {room : ℕ}
    (hcut : s - c.offset ≤ room) (left : ℕ) :
    min room (c.ahead torrent).length = (s - c.offset) + min (room - (s - c.offset))
      (Cursor.ahead torrent ⟨0, left, c.filesVecIndex + 1⟩).length := by
  rw [Cursor.ahead_cons torrent hss (hvalid.offset_le torrent hss), List.length_append,
    length_span, Cursor.ahead_next torrent hss]
  omega

theorem Fills.cons {c c' : Cursor} {s : ℕ} {ss : List ℕ} {new : List FileMem}
    (hss : torrent.sizes.drop c.filesVecIndex = s :: ss) (hvalid : c.Valid torrent) {room : ℕ}
    (hroom : room < 2 ^ 64) (hcut : s - c.offset ≤ room)
    (h : Fills torrent ⟨0, subSize c.left (s - c.offset), c.filesVecIndex + 1⟩
      (room - (s - c.offset)) new c') :
    Fills torrent c room (⟨c.filesVecIndex, c.offset, s - c.offset⟩ :: new) c' := by
  have hahead := Cursor.ahead_cons torrent hss (hvalid.offset_le torrent hss)
  obtain ⟨hpos, hvalid', hahead', hleft'⟩ := h
  rw [Cursor.ahead_next torrent hss] at hpos hahead'
  have hlen : (span c.filesVecIndex c.offset (s - c.offset)).length ≤ room := by
    rw [length_span]
    exact hcut
  constructor
  · rw [List.flatMap_cons, hpos, hahead, List.take_append, List.take_of_length_le hlen, length_span]
    rfl
  · exact hvalid'
  · rw [hahead', hahead, List.drop_append, List.drop_eq_nil_of_le hlen, length_span,
      List.nil_append]
  · rw [hleft', subSize_subSize (by omega), ← min_ahead_cons torrent hss hvalid hcut]

/-- **One block.** The loop takes addresses from the cursor until it has
`PEER_REQUEST_SIZE` of them or the files end, and moves the cursor behind
them. -/
theorem fillBlock_spec {ss : List ℕ} (currSize : ℕ) {c : Cursor} (mems : List FileMem)
    (hss : torrent.sizes.drop c.filesVecIndex = ss) (hvalid : c.Valid torrent)
    (hleft : c.left < 2 ^ 64) (hcurr : currSize ≤ peerRequestSize) :
    ∃ new c', fillBlock c.filesVecIndex ss c currSize mems =
        (mems ++ new, currSize + min (peerRequestSize - currSize) (c.ahead torrent).length, c') ∧
      Fills torrent c (peerRequestSize - currSize) new c' := by
  induction ss generalizing c currSize mems with
  | nil =>
      have hahead : c.ahead torrent = [] := by simp [Cursor.ahead, hss, addressesFrom]
      exact ⟨[], c, by simp [fillBlock, hahead],
        fills_nothing torrent hvalid hleft (.inr hahead)⟩
  | cons s ss ih =>
      obtain ⟨hlt, hs, hss'⟩ := drop_eq_cons torrent hss
      have hs32 := torrent.size_lt s hs
      have hle := hvalid.offset_le torrent hss
      have hroom : subUnsigned peerRequestSize currSize = peerRequestSize - currSize :=
        subUnsigned_of_le hcurr (by decide)
      rcases Nat.lt_or_eq_of_le hcurr with hcurr' | rfl
      swap
      · rw [fillBlock_full, Nat.sub_self]
        exact ⟨[], c, by simp, fills_nothing torrent hvalid hleft (.inl rfl)⟩
      rw [fillBlock, if_pos hcurr', hroom, subSize_of_le hle (by omega)]
      by_cases hcut : peerRequestSize - currSize < s - c.offset
      -- the loop goes round once more, and finds the block full
      · have hmin : min (peerRequestSize - currSize) (c.ahead torrent).length =
            peerRequestSize - currSize := by
          rw [Cursor.ahead_cons torrent hss hle, List.length_append, length_span]
          omega
        rw [if_pos hcut, hmin, Nat.add_sub_cancel' hcurr, fillBlock_full]
        exact ⟨_, _, rfl, fills_cut torrent hss hvalid hcut⟩
      · rw [if_neg hcut]
        obtain ⟨new, c', heq, hfills⟩ := ih (currSize + (s - c.offset))
          (mems ++ [⟨c.filesVecIndex, c.offset, s - c.offset⟩])
          (c := ⟨0, subSize c.left (s - c.offset), c.filesVecIndex + 1⟩)
          hss' ⟨hlt, .inl rfl⟩ (subSize_lt _ _) (by omega)
        rw [← Nat.sub_sub] at heq hfills
        refine ⟨⟨c.filesVecIndex, c.offset, s - c.offset⟩ :: new, c', ?_,
          hfills.cons torrent hss hvalid (by simp only [peerRequestSize]; omega) (by omega)⟩
        rw [List.append_assoc, List.singleton_append] at heq
        rw [min_ahead_cons torrent hss hvalid (by omega) (subSize c.left (s - c.offset)),
          ← Nat.add_assoc]
        exact heq

theorem nextBlockRequest_fills {c : Cursor} (hvalid : c.Valid torrent) (hleft : c.left < 2 ^ 64)
    (hleft0 : c.left ≠ 0) (hlt : c.filesVecIndex < torrent.sizes.length) (pieceLen : ℕ) :
    ∃ block c', nextBlockRequest torrent pieceLen c = some (block, c') ∧
      block.begin = subSize pieceLen c.left ∧
      block.len = min peerRequestSize (c.ahead torrent).length ∧ block.completed = false ∧
      Fills torrent c peerRequestSize block.fileMems c' := by
  obtain ⟨new, c', heq, hfills⟩ := fillBlock_spec torrent 0 [] rfl hvalid hleft (Nat.zero_le _)
  refine ⟨⟨new, subSize pieceLen c.left, min peerRequestSize (c.ahead torrent).length, false⟩, c',
    ?_, rfl, rfl, rfl, hfills⟩
  rw [nextBlockRequest, if_neg (by omega), heq]
  simp

theorem createLoop_of_none {fuel : ℕ} {c : Cursor}
    (h : c.left = 0 ∨ torrent.sizes.length ≤ c.filesVecIndex) :
    createLoop torrent fuel c = [] := by
  cases fuel with
  | zero => rfl
  | succ fuel => rw [createLoop, nextBlockRequest, if_pos h]

end

/-! ### The blocks of a piece -/

variable (torrent : Layout)

theorem sum_lt : torrent.sizes.sum < 2 ^ 63 := by
  have h : torrent.sizes.sum ≤ torrent.sizes.length * 2 ^ 32 :=
    List.sum_le_card_nsmul _ _ fun s hs => (torrent.size_lt s hs).le
  have hlen := torrent.length_lt
  omega

/-- The addresses a piece is made of: those from its start on, cut to the
piece length. A piece length that is no multiple of `PEER_REQUEST_SIZE` is
stepped over, and then nothing is cut. -/
def Layout.pieceAddresses (index : UInt32) : List Address :=
  let rest := (addresses torrent.sizes).drop (torrent.pieceLength * index).toNat
  if peerRequestSize ∣ torrent.pieceLength.toNat then rest.take torrent.pieceLength.toNat
  else rest

/-- What a block says of itself, and the addresses it covers. -/
def BlockRequest.view (block : BlockRequest) : ℕ × ℕ × Bool × List Address :=
  (block.begin, block.len, block.completed, block.positions)

/-- The blocks that a run of addresses should be cut into, the first of them
being number `j`. -/
def blockViews (j : ℕ) (as : List Address) : List (ℕ × ℕ × Bool × List Address) :=
  (chunks peerRequestSize as).mapIdx fun k c => (peerRequestSize * (j + k), c.length, false, c)

theorem blockViews_cons (j : ℕ) {as : List Address} (has : as ≠ []) :
    blockViews j as = (peerRequestSize * j, (as.take peerRequestSize).length, false,
      as.take peerRequestSize) :: blockViews (j + 1) (as.drop peerRequestSize) := by
  rw [blockViews, chunks_eq_cons (by decide) has, List.mapIdx_cons, blockViews]
  simp only [Nat.add_zero, Nat.add_assoc, Nat.add_comm 1]

/-- `next_block_request` with addresses ahead and room left. -/
theorem nextBlockRequest_spec {c : Cursor} (hvalid : c.Valid torrent) (hleft : c.left < 2 ^ 64)
    (hleft0 : c.left ≠ 0) (hahead : c.ahead torrent ≠ []) (pieceLen : ℕ) :
    ∃ block c', nextBlockRequest torrent pieceLen c = some (block, c') ∧
      block.view = (subSize pieceLen c.left, ((c.ahead torrent).take peerRequestSize).length,
        false, (c.ahead torrent).take peerRequestSize) ∧
      c'.Valid torrent ∧ c'.ahead torrent = (c.ahead torrent).drop peerRequestSize ∧
      c'.left = subSize c.left (min peerRequestSize (c.ahead torrent).length) := by
  have hlt : c.filesVecIndex < torrent.sizes.length := by
    by_contra hge
    have hnil := List.drop_eq_nil_of_le (Nat.le_of_not_lt hge)
    exact hahead (by simp [Cursor.ahead, hnil, addressesFrom])
  obtain ⟨block, c', heq, hbegin, hlen, hcompleted, hpos, hvalid', hahead', hleft'⟩ :=
    nextBlockRequest_fills torrent hvalid hleft hleft0 hlt pieceLen
  refine ⟨block, c', heq, ?_, hvalid', hahead', hleft'⟩
  rw [BlockRequest.view, BlockRequest.positions, hpos, hbegin, hlen, hcompleted, List.length_take]

theorem ahead_eq_nil {c : Cursor} (hvalid : c.Valid torrent) (hahead : c.ahead torrent = []) :
    torrent.sizes.length ≤ c.filesVecIndex := by
  by_contra hlt
  obtain ⟨s, ss, hss⟩ := List.exists_cons_of_ne_nil
    (List.ne_nil_of_length_pos (l := torrent.sizes.drop c.filesVecIndex) (by simp; omega))
  have hle := hvalid.offset_le torrent hss
  have hs := torrent.size_pos s (drop_eq_cons torrent hss).2.1
  rw [Cursor.ahead_cons torrent hss hle, List.append_eq_nil_iff] at hahead
  have hlen : s - c.offset = 0 := by
    have h := congrArg List.length hahead.1
    simpa using h
  rcases hvalid.2 with h0 | ⟨t, ht, hlt'⟩
  · omega
  · rw [hss, List.head?_cons, Option.mem_some_iff] at ht
    omega

@[simp] theorem blockViews_nil (j : ℕ) : blockViews j [] = [] := by
  rw [blockViews, chunks_nil (by decide), List.mapIdx_nil]

/-- **The blocks of a piece.** After `j` blocks the loop goes on to cut what is
ahead, up to the end of the piece, into blocks. -/
theorem createLoop_view (fuel j : ℕ) {c : Cursor} (hvalid : c.Valid torrent)
    (hleft : c.ahead torrent ≠ [] →
      c.left = subSize torrent.pieceLength.toNat (peerRequestSize * j) ∧
        peerRequestSize * j + (c.ahead torrent).length < 2 ^ 63)
    (hj : peerRequestSize ∣ torrent.pieceLength.toNat →
      peerRequestSize * j ≤ torrent.pieceLength.toNat)
    (hfuel : chunkCount peerRequestSize (c.ahead torrent).length < fuel) :
    (createLoop torrent fuel c).map BlockRequest.view =
      blockViews j (if peerRequestSize ∣ torrent.pieceLength.toNat then
        (c.ahead torrent).take (torrent.pieceLength.toNat - peerRequestSize * j)
      else c.ahead torrent) := by
  have hpl : torrent.pieceLength.toNat < 2 ^ 32 := torrent.pieceLength.toNat_lt
  simp only [peerRequestSize] at *
  induction fuel generalizing j c with
  | zero => omega
  | succ fuel ih =>
      by_cases hnil : c.ahead torrent = []
      · rw [createLoop_of_none torrent (.inr (ahead_eq_nil torrent hvalid hnil)), hnil]
        simp
      obtain ⟨hleft, hlen⟩ := hleft hnil
      have hpos : 0 < (c.ahead torrent).length := List.length_pos_iff.mpr hnil
      by_cases hleft0 : c.left = 0
      -- the piece is complete: its length is a multiple of the block size
      · have heq : torrent.pieceLength.toNat = 16384 * j := by
          rw [hleft, subSize] at hleft0
          omega
        rw [createLoop_of_none torrent (.inl hleft0), if_pos ⟨j, heq⟩, heq]
        simp
      · obtain ⟨block, c', hnext, hview, hvalid', hahead', hleft'⟩ :=
          nextBlockRequest_spec torrent hvalid (hleft ▸ subSize_lt _ _) hleft0 hnil
            torrent.pieceLength.toNat
        simp only [peerRequestSize] at hview hahead' hleft'
        have hbegin : subSize torrent.pieceLength.toNat c.left = 16384 * j := by
          rw [hleft]
          simp only [subSize]
          omega
        have hj' : 16384 ∣ torrent.pieceLength.toNat →
            16384 * (j + 1) ≤ torrent.pieceLength.toNat := by
          intro hdvd
          have hle := hj hdvd
          have hne : torrent.pieceLength.toNat ≠ 16384 * j := by
            intro heq
            apply hleft0
            rw [hleft, heq, subSize_of_le le_rfl (by omega), Nat.sub_self]
          omega
        have hrest := ih (j + 1) hvalid'
          (by
            intro hne
            rw [hahead', List.ne_nil_iff_length_pos, List.length_drop] at hne
            rw [hleft', hleft, Nat.min_eq_left (by omega), subSize_subSize (by omega), hahead',
              List.length_drop]
            exact ⟨by rw [Nat.mul_succ], by omega⟩)
          hj'
          (by
            rw [chunkCount_pos (by decide) hpos] at hfuel
            rw [hahead', List.length_drop]
            omega)
        rw [createLoop, hnext]
        simp only [List.map_cons]
        rw [hrest, hview, hbegin, hahead']
        by_cases hdvd : 16384 ∣ torrent.pieceLength.toNat
        · have hle := hj' hdvd
          have htake : ((c.ahead torrent).take
              (torrent.pieceLength.toNat - 16384 * j)) ≠ [] := by
            rw [List.ne_nil_iff_length_pos, List.length_take]
            omega
          rw [if_pos hdvd, if_pos hdvd, blockViews_cons j htake]
          simp only [peerRequestSize]
          rw [List.take_take, List.drop_take, Nat.min_eq_left (by omega), Nat.sub_sub,
            Nat.mul_succ]
        · rw [if_neg hdvd, if_neg hdvd, blockViews_cons j hnil]

theorem pieceRequestCreate_view (index : UInt32) :
    (pieceRequestCreate torrent index).blockRequests.map BlockRequest.view =
      blockViews 0 (torrent.pieceAddresses index) := by
  obtain ⟨hvalid, hahead⟩ := skipLoop_ahead torrent List.drop_zero
    (torrent.pieceLength * index).toNat (Nat.zero_le _) torrent.pieceLength.toNat
  have hle : (((addressesFrom 0 torrent.sizes).drop
      (torrent.pieceLength * index).toNat)).length ≤ torrent.sizes.sum := by simp
  have hsum := sum_lt torrent
  have hpl : torrent.pieceLength.toNat < 2 ^ 32 := torrent.pieceLength.toNat_lt
  have hfuel : chunkCount peerRequestSize (((addressesFrom 0 torrent.sizes).drop
      (torrent.pieceLength * index).toNat)).length <
        chunkCount peerRequestSize torrent.sizes.sum + 1 :=
    Nat.lt_succ_of_le (Nat.div_le_div_right (by omega))
  rw [← hahead] at hfuel hle
  have hleft : torrent.pieceLength.toNat =
      subSize torrent.pieceLength.toNat (peerRequestSize * 0) := by
    rw [Nat.mul_zero, subSize_of_le (Nat.zero_le _) (by omega), Nat.sub_zero]
  have h := createLoop_view torrent _ 0 hvalid (fun _ => ⟨hleft, by omega⟩) (by simp) hfuel
  rw [hahead] at h
  exact h

theorem getElem?_blockViews (as : List Address) (j : ℕ) (hj : peerRequestSize * j < as.length) :
    (blockViews 0 as)[j]? = some (peerRequestSize * j,
      min peerRequestSize (as.length - peerRequestSize * j), false,
      (as.drop (peerRequestSize * j)).take peerRequestSize) := by
  have hlt : j < chunkCount peerRequestSize as.length := (lt_chunkCount_iff (by decide)).mpr hj
  simp [blockViews, chunks, hlt]

@[simp] theorem length_blockViews (j : ℕ) (as : List Address) :
    (blockViews j as).length = chunkCount peerRequestSize as.length := by
  simp [blockViews]

theorem map_positions_blockViews (j : ℕ) (as : List Address) :
    (blockViews j as).map (fun v => v.2.2.2) = chunks peerRequestSize as := by
  apply List.ext_getElem
  · simp
  · intro i h₁ h₂
    simp [blockViews]

@[simp] theorem length_blockRequests (index : UInt32) :
    (pieceRequestCreate torrent index).blockRequests.length =
      chunkCount peerRequestSize (torrent.pieceAddresses index).length := by
  rw [← List.length_map (f := BlockRequest.view), pieceRequestCreate_view, length_blockViews]

theorem exists_blockRequest (index : UInt32) (j : ℕ)
    (hj : peerRequestSize * j < (torrent.pieceAddresses index).length) :
    ∃ block, (pieceRequestCreate torrent index).blockRequests[j]? = some block ∧
      block.begin = peerRequestSize * j ∧
      block.len = min peerRequestSize
        ((torrent.pieceAddresses index).length - peerRequestSize * j) ∧
      block.completed = false ∧
      block.positions =
        ((torrent.pieceAddresses index).drop (peerRequestSize * j)).take peerRequestSize := by
  have h := getElem?_blockViews _ j hj
  rw [← pieceRequestCreate_view, List.getElem?_map, Option.map_eq_some_iff] at h
  obtain ⟨block, hblock, hview⟩ := h
  simp only [BlockRequest.view, Prod.mk.injEq] at hview
  exact ⟨block, hblock, hview⟩

/-- Each block of a piece is one of those that are counted from its start. -/
theorem exists_of_mem_blockRequests {index : UInt32} {block : BlockRequest}
    (hblock : block ∈ (pieceRequestCreate torrent index).blockRequests) :
    ∃ j, peerRequestSize * j < (torrent.pieceAddresses index).length ∧
      block.begin = peerRequestSize * j ∧ block.len = block.positions.length ∧
      block.positions =
        ((torrent.pieceAddresses index).drop (peerRequestSize * j)).take peerRequestSize := by
  obtain ⟨j, hj⟩ := List.getElem?_of_mem hblock
  have hlt := (List.getElem?_eq_some_iff.mp hj).1
  rw [length_blockRequests, lt_chunkCount_iff (by decide)] at hlt
  obtain ⟨block', hblock', hbegin, hlen, -, hpos⟩ := exists_blockRequest torrent index j hlt
  cases hj.symm.trans hblock'
  exact ⟨j, hlt, hbegin, by rw [hlen, hpos, List.length_take, List.length_drop], hpos⟩

theorem map_positions (index : UInt32) :
    (pieceRequestCreate torrent index).blockRequests.map BlockRequest.positions =
      chunks peerRequestSize (torrent.pieceAddresses index) := by
  have h := congrArg (List.map fun v => v.2.2.2) (pieceRequestCreate_view torrent index)
  rw [List.map_map, map_positions_blockViews] at h
  exact h

theorem flatMap_positions (index : UInt32) :
    (pieceRequestCreate torrent index).blockRequests.flatMap BlockRequest.positions =
      torrent.pieceAddresses index := by
  rw [List.flatMap_def, map_positions, flatten_chunks (by decide)]

theorem flatMap_positions_take (index : UInt32) (j : ℕ) :
    ((pieceRequestCreate torrent index).blockRequests.take j).flatMap BlockRequest.positions =
      (torrent.pieceAddresses index).take (peerRequestSize * j) := by
  rw [List.flatMap_def, List.map_take, map_positions, flatten_take_chunks (by decide)]

/-- The blocks that can be named are those that begin inside the piece, at a
multiple of the block size. -/
theorem isSome_blockAt_iff (index : UInt32) (offset : ℕ) :
    (pieceRequestBlockAt (pieceRequestCreate torrent index) offset).isSome = true ↔
      peerRequestSize ∣ offset ∧ offset < (torrent.pieceAddresses index).length := by
  rw [pieceRequestBlockAt, List.find?_isSome]
  constructor
  · rintro ⟨block, hblock, hbegin⟩
    obtain ⟨j, hlt, hbegin', -⟩ := exists_of_mem_blockRequests torrent hblock
    rw [decide_eq_true_eq, hbegin'] at hbegin
    exact ⟨⟨j, hbegin.symm⟩, hbegin ▸ hlt⟩
  · rintro ⟨⟨j, rfl⟩, hlt⟩
    obtain ⟨block, hblock, hbegin, -⟩ := exists_blockRequest torrent index j hlt
    exact ⟨block, List.mem_of_getElem? hblock, by simp [hbegin]⟩

theorem pieceAddresses_subset (index : UInt32) :
    torrent.pieceAddresses index ⊆ addresses torrent.sizes := by
  have hdrop := List.drop_subset (torrent.pieceLength * index).toNat (addresses torrent.sizes)
  rw [Layout.pieceAddresses]
  split
  · exact List.Subset.trans (List.take_subset _ _) hdrop
  · exact hdrop

/-- A range of a file that is not empty lies inside the file. -/
theorem mem_le_size {index : UInt32} {block : BlockRequest} {mem : FileMem}
    (hblock : block ∈ (pieceRequestCreate torrent index).blockRequests)
    (hmem : mem ∈ block.fileMems) (hpos : 0 < mem.size) :
    mem.offset + mem.size ≤ torrent.sizes.getD mem.file 0 := by
  have hlast : (mem.file, mem.offset + mem.size - 1) ∈ mem.positions :=
    mem_span.mpr ⟨rfl, by simp only; omega, by simp only; omega⟩
  have hin : (mem.file, mem.offset + mem.size - 1) ∈ torrent.pieceAddresses index := by
    rw [← flatMap_positions]
    exact List.mem_flatMap.mpr ⟨block, hblock, List.mem_flatMap.mpr ⟨mem, hmem, hlast⟩⟩
  obtain ⟨-, s, hs, hlt⟩ := mem_addressesFrom.mp (pieceAddresses_subset torrent index hin)
  simp only [Nat.sub_zero] at hs hlt
  rw [List.getD_eq_getElem?_getD, hs, Option.getD_some]
  omega

theorem getD_sizes_lt (i : ℕ) : torrent.sizes.getD i 0 < 2 ^ 32 := by
  rw [List.getD_eq_getElem?_getD]
  cases h : torrent.sizes[i]? with
  | none => decide
  | some s => exact torrent.size_lt s (List.mem_of_getElem? h)

/-- The size of a range is an `unsigned`. -/
theorem mem_size_lt {index : UInt32} {block : BlockRequest} {mem : FileMem}
    (hblock : block ∈ (pieceRequestCreate torrent index).blockRequests)
    (hmem : mem ∈ block.fileMems) : mem.size < 2 ^ 32 := by
  have hlt := getD_sizes_lt torrent mem.file
  rcases Nat.eq_zero_or_pos mem.size with h0 | hpos
  · omega
  · have hle := mem_le_size torrent hblock hmem hpos
    omega

theorem nodup_pieceAddresses (index : UInt32) : (torrent.pieceAddresses index).Nodup := by
  have hrest := (nodup_addresses torrent.sizes).sublist
    (List.drop_sublist (torrent.pieceLength * index).toNat _)
  rw [Layout.pieceAddresses]
  split
  · exact hrest.sublist (List.take_sublist _ _)
  · exact hrest

theorem length_pieceAddresses_le (hdvd : peerRequestSize ∣ torrent.pieceLength.toNat)
    (index : UInt32) : (torrent.pieceAddresses index).length ≤ torrent.pieceLength.toNat := by
  rw [Layout.pieceAddresses, if_pos hdvd]
  exact List.length_take_le _ _

/-- Piece `index` of a torrent whose piece length is a multiple of the block
size, when its start does not wrap. -/
theorem pieceAddresses_of_dvd {index : UInt32}
    (hdvd : peerRequestSize ∣ torrent.pieceLength.toNat)
    (hstart : index.toNat * torrent.pieceLength.toNat < 2 ^ 32) :
    torrent.pieceAddresses index =
      ((addresses torrent.sizes).drop (index.toNat * torrent.pieceLength.toNat)).take
        torrent.pieceLength.toNat := by
  have hmul : (torrent.pieceLength * index).toNat = index.toNat * torrent.pieceLength.toNat := by
    rw [UInt32.toNat_mul, Nat.mul_comm]
    exact Nat.mod_eq_of_lt hstart
  rw [Layout.pieceAddresses, if_pos hdvd, hmul]

/-- **The blocks tile the piece.** When the piece length is a multiple of the
block size, a piece is cut into blocks of `PEER_REQUEST_SIZE` bytes, the last
one shorter where the files end, and the ranges of each block address its bytes
in the concatenation of the files. -/
theorem pieceRequestCreate_tiles (index : UInt32)
    (hlength : peerRequestSize ∣ torrent.pieceLength.toNat)
    (hstart : index.toNat * torrent.pieceLength.toNat < 2 ^ 32) :
    let P := addresses torrent.sizes
    let start := index.toNat * torrent.pieceLength.toNat
    let L := min torrent.pieceLength.toNat (P.length - start)
    let m := (L + (peerRequestSize - 1)) / peerRequestSize
    let request := pieceRequestCreate torrent index
    request.pieceIndex = index ∧ request.blockRequests.length = m ∧ request.blocksLeft = m ∧
      (∀ j < m, ∃ block, request.blockRequests[j]? = some block ∧
        block.begin = peerRequestSize * j ∧
        block.len = min peerRequestSize (L - peerRequestSize * j) ∧
        block.completed = false ∧
        block.fileMems.flatMap FileMem.positions =
          (P.drop (start + peerRequestSize * j)).take block.len) ∧
      request.blockRequests.flatMap BlockRequest.positions = (P.drop start).take L ∧
      (request.blockRequests.flatMap BlockRequest.positions).Nodup := by
  intro P start L m request
  have hL : torrent.pieceAddresses index = (P.drop start).take L := by
    rw [pieceAddresses_of_dvd torrent hlength hstart]
    conv_lhs => rw [List.take_eq_take_min, List.length_drop]
  have hlen : (torrent.pieceAddresses index).length = L := by
    rw [hL, List.length_take, List.length_drop, Nat.min_eq_left (Nat.min_le_right _ _)]
  have hcount : request.blockRequests.length = m := by
    rw [length_blockRequests, hlen]
    rfl
  have hpl : torrent.pieceLength.toNat < 2 ^ 32 := torrent.pieceLength.toNat_lt
  have hm : m < 2 ^ 32 := by
    have hLle : L ≤ torrent.pieceLength.toNat := Nat.min_le_left _ _
    have hmle : m ≤ (L + 16383) / 16384 := le_rfl
    omega
  have hall := flatMap_positions torrent index
  refine ⟨rfl, hcount, ?_, ?_, hall.trans hL, ?_⟩
  · rw [← hcount]
    exact Nat.mod_eq_of_lt (hcount ▸ hm)
  · intro j hj
    have hjL : peerRequestSize * j < (torrent.pieceAddresses index).length := by
      rw [hlen]
      exact (lt_chunkCount_iff (by decide)).mp hj
    obtain ⟨block, hblock, hbegin, hblen, hcompleted, hpos⟩ := exists_blockRequest torrent index j hjL
    rw [hlen] at hblen
    refine ⟨block, hblock, hbegin, hblen, hcompleted, hpos.trans ?_⟩
    rw [hL, hblen, List.drop_take, List.take_take, List.drop_drop]
  · rw [hall]
    exact nodup_pieceAddresses torrent index

def threeFiles : Layout :=
  ⟨⟨32768, [20000, 20000, 5], by decide, by decide⟩, by decide, by decide⟩

/-- The second piece begins inside the second file and ends with the third. -/
theorem pieceRequestCreate_tiles_threeFiles :
    (pieceRequestCreate threeFiles 1).blockRequests.length = 1 ∧
      (pieceRequestCreate threeFiles 1).blockRequests.flatMap BlockRequest.positions =
        ((addresses threeFiles.sizes).drop 32768).take 7237 := by
  have h := pieceRequestCreate_tiles threeFiles 1 (by decide) (by decide)
  simp only [length_addresses] at h
  exact ⟨h.2.1, h.2.2.2.2.1⟩

end Daobell
