import Daobell.Torrent.PieceRequest

/-!
Which pieces of a torrent share bytes. A piece is a window of `piece_length`
addresses on the row of files, and `skip_until_index` finds its start as a
product of two `unsigned` values: the windows are those of the exact starts
only as long as no product reaches `2^32`.
-/

namespace Daobell

open Lib

variable (torrent : Layout)

def Layout.covered (index : UInt32) : List Address :=
  (pieceRequestCreate torrent index).blockRequests.flatMap BlockRequest.positions

def Layout.exactStart (index : UInt32) : ℕ := index.toNat * torrent.pieceLength.toNat

def Layout.Reaches (index : UInt32) : Prop := torrent.exactStart index < torrent.sizes.sum

instance (index : UInt32) : Decidable (torrent.Reaches index) :=
  inferInstanceAs (Decidable (_ < _))

/-- Where `skip_until_index` lets the piece begin. -/
def Layout.wrappedStart (index : UInt32) : ℕ := torrent.exactStart index % 2 ^ 32

def Layout.Apart (i j : UInt32) : Prop :=
  torrent.wrappedStart i + torrent.pieceLength.toNat ≤ torrent.wrappedStart j ∨
    torrent.wrappedStart j + torrent.pieceLength.toNat ≤ torrent.wrappedStart i

instance (i j : UInt32) : Decidable (torrent.Apart i j) := inferInstanceAs (Decidable (_ ∨ _))

theorem covered_eq_window {index : UInt32} (hdvd : peerRequestSize ∣ torrent.pieceLength.toNat) :
    torrent.covered index = ((addresses torrent.sizes).drop (torrent.wrappedStart index)).take
      torrent.pieceLength.toNat := by
  have hmul : (torrent.pieceLength * index).toNat = torrent.wrappedStart index := by
    rw [UInt32.toNat_mul, Nat.mul_comm]
    rfl
  rw [Layout.covered, flatMap_positions, Layout.pieceAddresses, if_pos hdvd, hmul]

theorem wrappedStart_lt {index : UInt32} (h : torrent.Reaches index) :
    torrent.wrappedStart index < torrent.sizes.sum :=
  Nat.lt_of_le_of_lt (Nat.mod_le _ _) h

/-- Two pieces share no byte when their starts, taken modulo `2^32`, are apart. -/
theorem disjoint_covered_iff {i j : UInt32} (hpos : 0 < torrent.pieceLength.toNat)
    (hdvd : peerRequestSize ∣ torrent.pieceLength.toNat) (hi : torrent.Reaches i)
    (hj : torrent.Reaches j) :
    List.Disjoint (torrent.covered i) (torrent.covered j) ↔ torrent.Apart i j := by
  have hlen : (addresses torrent.sizes).length = torrent.sizes.sum := length_addresses _
  rw [covered_eq_window torrent hdvd, covered_eq_window torrent hdvd]
  exact disjoint_windows_iff (nodup_addresses _) (hlen ▸ wrappedStart_lt torrent hi)
    (hlen ▸ wrappedStart_lt torrent hj) hpos hpos

theorem wrappedStart_of_lt {index : UInt32} (h : torrent.exactStart index < 2 ^ 32) :
    torrent.wrappedStart index = torrent.exactStart index := Nat.mod_eq_of_lt h

/-- Pieces whose starts do not wrap are apart. -/
theorem apart_of_lt {i j : UInt32} (hij : i ≠ j) (hi : torrent.exactStart i < 2 ^ 32)
    (hj : torrent.exactStart j < 2 ^ 32) : torrent.Apart i j := by
  rw [Layout.Apart, wrappedStart_of_lt torrent hi, wrappedStart_of_lt torrent hj,
    Layout.exactStart, Layout.exactStart, ← Nat.succ_mul, ← Nat.succ_mul]
  have hne : i.toNat ≠ j.toNat := fun h => hij (UInt32.toNat_inj.mp h)
  rcases Nat.lt_or_gt_of_ne hne with h | h
  · exact .inl (Nat.mul_le_mul_right _ h)
  · exact .inr (Nat.mul_le_mul_right _ h)

/-- The first start that wraps falls inside piece 0. -/
theorem exists_wrapped {index : UInt32} (hwrap : 2 ^ 32 ≤ torrent.exactStart index) :
    ∃ first : UInt32, first ≠ 0 ∧ torrent.exactStart first ≤ torrent.exactStart index ∧
      torrent.wrappedStart first < torrent.pieceLength.toNat := by
  have hpl : torrent.pieceLength.toNat < 2 ^ 32 := torrent.pieceLength.toNat_lt
  have hex : ∃ n, 2 ^ 32 ≤ n * torrent.pieceLength.toNat := ⟨index.toNat, hwrap⟩
  obtain ⟨n, hn, hleast⟩ : ∃ n, 2 ^ 32 ≤ n * torrent.pieceLength.toNat ∧
      ∀ m < n, m * torrent.pieceLength.toNat < 2 ^ 32 :=
    ⟨Nat.find hex, Nat.find_spec hex, fun m hm => Nat.lt_of_not_le (Nat.find_min hex hm)⟩
  have hle : n ≤ index.toNat := by
    by_contra hlt
    exact absurd hwrap (Nat.not_le_of_lt (hleast index.toNat (Nat.lt_of_not_le hlt)))
  have hn32 : n < 2 ^ 32 := Nat.lt_of_le_of_lt hle index.toNat_lt
  have hn0 : n ≠ 0 := by
    rintro rfl
    omega
  have hfirst : (UInt32.ofNat n).toNat = n := UInt32.toNat_ofNat_of_lt' hn32
  have hprev : (n - 1) * torrent.pieceLength.toNat < 2 ^ 32 := hleast (n - 1) (by omega)
  have hstep : (n - 1) * torrent.pieceLength.toNat + torrent.pieceLength.toNat =
      n * torrent.pieceLength.toNat := by
    rw [← Nat.succ_mul, Nat.succ_eq_add_one, Nat.sub_add_cancel (by omega)]
  refine ⟨UInt32.ofNat n, ?_, ?_, ?_⟩
  · intro h0
    apply hn0
    rw [← hfirst, h0]
    rfl
  · rw [Layout.exactStart, hfirst]
    exact Nat.mul_le_mul_right _ hle
  · rw [Layout.wrappedStart, Layout.exactStart, hfirst]
    omega

/-- **Which pieces alias.** Two pieces of a torrent share no byte if and only if
their starts modulo `2^32` are a piece length apart, and no two pieces of it
share one if and only if no piece starts at `2^32` or behind. -/
theorem pieces_disjoint_iff (hpos : 0 < torrent.pieceLength.toNat)
    (hdvd : peerRequestSize ∣ torrent.pieceLength.toNat) :
    (∀ i j, i ≠ j → torrent.Reaches i → torrent.Reaches j →
      (List.Disjoint (torrent.covered i) (torrent.covered j) ↔ torrent.Apart i j)) ∧
    ((∀ i j, i ≠ j → torrent.Reaches i → torrent.Reaches j →
        List.Disjoint (torrent.covered i) (torrent.covered j)) ↔
      ∀ i, torrent.Reaches i → torrent.exactStart i < 2 ^ 32) := by
  have hpair : ∀ i j, i ≠ j → torrent.Reaches i → torrent.Reaches j →
      (List.Disjoint (torrent.covered i) (torrent.covered j) ↔ torrent.Apart i j) :=
    fun i j _ hi hj => disjoint_covered_iff torrent hpos hdvd hi hj
  refine ⟨hpair, fun hall i hi => ?_, fun hno i j hij hi hj => ?_⟩
  · by_contra hwrap
    obtain ⟨first, hne, hle, hin⟩ := exists_wrapped torrent (Nat.le_of_not_lt hwrap)
    have hreach : torrent.Reaches first := Nat.lt_of_le_of_lt hle hi
    have hzero : torrent.exactStart 0 = 0 := Nat.zero_mul _
    have hreach0 : torrent.Reaches 0 := by
      rw [Layout.Reaches, hzero]
      exact Nat.lt_of_le_of_lt (Nat.zero_le _) hi
    have hapart := (hpair first 0 hne hreach hreach0).mp (hall first 0 hne hreach hreach0)
    have hw0 : torrent.wrappedStart 0 = 0 := by
      rw [Layout.wrappedStart, hzero, Nat.zero_mod]
    rw [Layout.Apart, hw0] at hapart
    omega
  · exact (hpair i j hij hi hj).mpr (apart_of_lt torrent hij (hno i hi) (hno j hj))

/-- The pieces of `threeFiles`, none of which wraps. -/
theorem pieces_disjoint_iff_threeFiles :
    List.Disjoint (threeFiles.covered 0) (threeFiles.covered 1) :=
  ((pieces_disjoint_iff threeFiles (by decide) (by decide)).1 0 1 (by decide) (by decide)
    (by decide)).mpr (.inl (by decide))

/-- Two files of together `2^32 + 1` bytes, in pieces of one block. -/
def overFourGiB : Layout := ⟨⟨16384, [4294967295, 2], by decide, by decide⟩, by decide, by decide⟩

/-- Piece 262144 of `overFourGiB` has the only byte behind the first `2^32`, and
is given the bytes of piece 0. -/
theorem pieces_alias_overFourGiB :
    overFourGiB.Reaches 0 ∧ overFourGiB.Reaches 262144 ∧
      ¬ List.Disjoint (overFourGiB.covered 0) (overFourGiB.covered 262144) := by
  have h0 : overFourGiB.Reaches 0 := by decide
  have h : overFourGiB.Reaches 262144 := by decide
  refine ⟨h0, h, fun hdisj => ?_⟩
  rw [disjoint_covered_iff overFourGiB (by decide) (by decide) h0 h] at hdisj
  exact absurd hdisj (by decide)

end Daobell
