import Daobell.Peer.Header

/-!
Which messages of a peer fail an assert of the receiver. `valid_len` keeps most
of them from failing; what it lets through is a CANCEL message, which the
receiver does not support, and a PIECE message that names no block.
-/

namespace Daobell

open Lib

/-- The header of a PIECE message names a block that the piece has. -/
def NamesBlock (torrent : TorrentInfo) (inp : Bytes) : Prop :=
  peerRequestSize ∣ (wordAt (inp.drop 9)).toNat ∧
    (wordAt (inp.drop 9)).toNat < (torrent.layout.pieceAddresses (wordAt (inp.drop 5))).length

/-- No assert stands in the way of the message. -/
structure Admissible (torrent : TorrentInfo) (inp : Bytes) : Prop where
  cancel : ¬ CancelHeader inp
  piece : PieceHeader inp → NamesBlock torrent inp

theorem peerMsgRecvBlock_returns_iff (torrent : TorrentInfo) (disk : Disk) (sock : Socket)
    (index begin : UInt32) (left : ℕ) :
    (∃ r, peerMsgRecvBlock sock torrent disk index begin left = .ok r) ↔
      peerRequestSize ∣ begin.toNat ∧
        begin.toNat < (torrent.layout.pieceAddresses index).length := by
  rw [← isSome_blockAt_iff, peerMsgRecvBlock]
  cases pieceRequestBlockAt (pieceRequestCreate torrent.layout index) begin.toNat <;> simp

theorem not_returns_of_unaligned (torrent : TorrentInfo) (disk : Disk) (sock : Socket)
    (index : UInt32) {begin : UInt32} (h : ¬ peerRequestSize ∣ begin.toNat) (left : ℕ) :
    peerMsgRecvBlock sock torrent disk index begin left = .error .assertFailed := by
  have hnone : pieceRequestBlockAt (pieceRequestCreate torrent.layout index) begin.toNat = none := by
    rw [← Option.not_isSome_iff_eq_none, isSome_blockAt_iff]
    exact fun hblock => h hblock.1
  rw [peerMsgRecvBlock, hnone]

theorem not_returns_of_cancel (torrent : TorrentInfo) (disk : Disk) {sock : Socket}
    (hrel : sock.RecvReliable) (h : CancelHeader sock.inp) :
    peerMsgRecv sock torrent disk = .error .assertFailed := by
  obtain ⟨h5, h8, hlen⟩ := h
  obtain ⟨s, -, -, heq⟩ := peerMsgRecv_of_header torrent disk hrel h5 h8 (by omega)
  rw [heq, hlen]
  rfl

/-- **Asserts.** The receiver comes back from every way in which the calls of
`recv` can turn out on a byte stream exactly when the message at its head is
admissible. -/
theorem peerMsgRecv_returns_iff (torrent : TorrentInfo) (disk : Disk) (inp : Bytes) :
    (∀ sock : Socket, sock.inp = inp → ∃ r, peerMsgRecv sock torrent disk = .ok r) ↔
      Admissible torrent inp := by
  constructor
  · intro h
    have hrel : (⟨inp, [], [], []⟩ : Socket).RecvReliable := by simp [Socket.RecvReliable]
    obtain ⟨r, hr⟩ := h ⟨inp, [], [], []⟩ rfl
    constructor
    · intro hcancel
      rw [not_returns_of_cancel torrent disk hrel hcancel] at hr
      cases hr
    · intro hheader
      obtain ⟨s, -, -, heq⟩ := peerMsgRecv_of_pieceHeader torrent disk hrel hheader
      exact (peerMsgRecvBlock_returns_iff torrent disk s _ _ _).mp ⟨r, heq.symm.trans hr⟩
  · rintro h sock rfl
    rcases peerMsgRecv_cases torrent sock disk with ⟨_, _, heq, -⟩ | ⟨hcancel, -⟩ |
      ⟨hheader, s, -, heq⟩
    · exact ⟨_, heq⟩
    · exact absurd hcancel h.cancel
    · rw [heq]
      exact (peerMsgRecvBlock_returns_iff torrent disk s _ _ _).mpr (h.piece hheader)

/-- A CANCEL message, and a PIECE message for the byte behind the first of the
second piece of `twoPieces`, stop the program. -/
theorem peerMsgRecv_fails :
    peerMsgRecv ⟨[0, 0, 0, 1, 8], [], [], []⟩ twoPieces blankDisk = .error .assertFailed ∧
      peerMsgRecv ⟨[0, 0, 0, 10, 7, 0, 0, 0, 1, 0, 0, 0, 1, 42], [], [], []⟩ twoPieces blankDisk =
        .error .assertFailed := by
  have hrel : ∀ inp, (⟨inp, [], [], []⟩ : Socket).RecvReliable := fun _ => by
    simp [Socket.RecvReliable]
  constructor
  · exact not_returns_of_cancel _ _ (hrel _) (by decide)
  · obtain ⟨s, -, -, heq⟩ := peerMsgRecv_of_pieceHeader twoPieces blankDisk (hrel _)
      (show PieceHeader [0, 0, 0, 10, 7, 0, 0, 0, 1, 0, 0, 0, 1, 42] by decide)
    rw [heq]
    -- 1 is no multiple of the block size
    exact not_returns_of_unaligned twoPieces blankDisk s 1
      (show ¬ peerRequestSize ∣ (1 : UInt32).toNat by decide) _

end Daobell
