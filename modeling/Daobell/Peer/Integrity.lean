import Daobell.Peer.Accounting
import Daobell.Peer.Framing

/-!
The contents of the pieces that are there. They match their hashes when they are
checked, and nothing but `peer_msg_recv` writes to the files; but it writes
wherever a PIECE message tells it to, before anybody asks whether that piece has
been requested. So the contents stay right on the runs whose PIECE messages spare
the pieces that are there, and only there.
-/

namespace Daobell

open Lib

/-! ### What receiving a message writes -/

/-- Where the PIECE message at the head of the stream is written to: the mapped
ranges of the block that its header names. -/
def pieceTarget (torrent : TorrentInfo) (inp : Bytes) : List Address :=
  if PieceHeader inp then
    match pieceRequestBlockAt (pieceRequestCreate torrent.layout (wordAt (inp.drop 5)))
        (wordAt (inp.drop 9)).toNat with
    | none => []
    | some block => (block.fileMems.filter torrent.isMapped).flatMap FileMem.positions
  else []

theorem recvMems_writes (torrent : TorrentInfo) {mems : List FileMem} (sock : Socket) (disk : Disk)
    {p : Address} (hp : torrent.place p ∉
      ((mems.filter torrent.isMapped).flatMap FileMem.positions).map torrent.place) :
    (recvMems torrent mems sock disk).2 p = disk p := by
  induction mems generalizing sock disk with
  | nil => rfl
  | cons mem mems ih =>
      rw [recvMems]
      by_cases hmapped : torrent.isMapped mem = true
      · rw [List.filter_cons_of_pos hmapped, List.flatMap_cons, List.map_append, List.mem_append,
          not_or] at hp
        rw [if_pos hmapped]
        exact (ih _ _ hp.2).trans (scatter_of_notMem _ _ _ _ _ hp.1)
      · rw [List.filter_cons_of_neg hmapped] at hp
        rw [if_neg hmapped]
        exact ih _ _ hp

/-- What a call that receives leaves of the files, whatever it returns: it writes to
these addresses, and so to all that are at the same places. -/
def Writes (r : Except Crash Received) (torrent : TorrentInfo) (disk : Disk) (as : List Address) :
    Prop :=
  ∀ msg sock' disk', r = .ok (msg, sock', disk') →
    ∀ p, torrent.place p ∉ as.map torrent.place → disk' p = disk p

/-- **Where a message is written to.** Nothing is written outside the block that
the message names. -/
theorem peerMsgRecv_writes (torrent : TorrentInfo) (sock : Socket) (disk : Disk) :
    Writes (peerMsgRecv sock torrent disk) torrent disk (pieceTarget torrent sock.inp) := by
  intro msg sock' disk' heq p hp
  rcases peerMsgRecv_cases torrent sock disk with ⟨_, _, hok, -⟩ | ⟨-, herror⟩ |
    ⟨hheader, s, -, hblock⟩
  · cases hok.symm.trans heq
    rfl
  · cases herror.symm.trans heq
  · rw [hblock, peerMsgRecvBlock] at heq
    rw [pieceTarget, if_pos hheader] at hp
    cases hat : pieceRequestBlockAt (pieceRequestCreate torrent.layout (wordAt (sock.inp.drop 5)))
        (wordAt (sock.inp.drop 9)).toNat with
    | none =>
        simp only [hat] at heq
        cases heq
    | some block =>
        simp only [hat] at heq hp
        cases heq
        exact recvMems_writes torrent s disk hp

/-! ### The contents of the pieces -/

def storedPiece (torrent : TorrentInfo) (disk : Disk) (i : ℕ) : Bytes :=
  ((pieceRequestCreate torrent.layout (UInt32.ofNat i)).blockRequests.flatMap
    BlockRequest.positions).map disk

/-- The pieces that are there have the contents that the metainfo asks for. -/
def Client.Intact (c : Client) : Prop :=
  ∀ i, c.torrent.Has i → c.torrent.pieces[i]? = some (sha1 (storedPiece c.torrent c.disk i))

/-- A PIECE message that is received is not written to a piece that is there. -/
def Spares : Client → Act ℕ → Prop
  | .connected s, .receive avail => peerMsgBuffNonempty s.sock avail = true →
      ∀ i, s.torrent.Has i → List.Disjoint ((pieceTarget s.torrent s.sock.inp).map s.torrent.place)
        ((s.torrent.layout.pieceAddresses (UInt32.ofNat i)).map s.torrent.place)
  | _, _ => True

/-- A step that writes nothing keeps the pieces intact, when those that it brings
have been found valid. -/
theorem Client.Intact.goes {c c' : Client} {P : ℕ → Prop} (h : c.Intact) (hgoes : c.Goes P c')
    (hP : ∀ i, P i → c.torrent.pieces[i]? = some (sha1 (storedPiece c.torrent c.disk i))) :
    c'.Intact := by
  obtain ⟨-, ⟨hpieces, hlayout, -, -, hgained⟩, hdisk⟩ := hgoes
  intro i hi
  rw [storedPiece, hpieces, hlayout, hdisk]
  exact (hgained i hi).elim (h i) (hP i)

theorem foundValid_intact {s : Session} {i : ℕ} (h : FoundValid Session.sha1Verify s i) :
    s.torrent.pieces[i]? = some (sha1 (storedPiece s.torrent s.disk i)) := by
  obtain ⟨index, rfl, hverify⟩ := h
  obtain ⟨piece, hpiece, hvalid⟩ := torrentSha1Verify_eq_ok hverify
  rw [hpiece, storedPiece, flatMap_positions, UInt32.ofNat_toNat, hvalid.mp rfl]

theorem clientStep_intact {c c' : Client} {a : Act ℕ} (hc : c.Accounted) (h : c.Intact)
    (hspares : Spares c a) (hstep : clientStep processQueued c a = .ok c') :
    c'.Accounted ∧ c'.Intact := by
  rcases clientStep_queued hc hstep with
    hgoes | ⟨s, avail, msg, sock, disk, rfl, rfl, hnonempty, hrecv, hgoes⟩
  · exact ⟨hgoes.accounted, h.goes hgoes fun _ => False.elim⟩
  · refine ⟨hgoes.accounted, Client.Intact.goes
      (c := .connected { s with sock := sock, disk := disk }) (fun i hi => ?_) hgoes
      fun i hi => foundValid_intact hi⟩
    have hsame : storedPiece s.torrent disk i = storedPiece s.torrent s.disk i := by
      rw [storedPiece, storedPiece, flatMap_positions]
      refine List.map_congr_left fun p hp => peerMsgRecv_writes _ _ _ _ _ _ hrecv p fun hmem => ?_
      exact hspares hnonempty i hi hmem (List.mem_map_of_mem hp)
    exact (h i hi).trans (congrArg (fun bytes => some (sha1 bytes)) hsame.symm)

theorem has_of_completed {torrent : TorrentInfo} (h : torrent.Accounted)
    (hcompleted : torrent.sh.completed = true) {i : ℕ} (hi : i < torrent.pieces.length) :
    torrent.Has i := by
  have hleft := (h.completed.mp hcompleted).1
  rw [h.left, List.countP_eq_zero] at hleft
  rw [← h.length] at hi
  have hstate := hleft _ (List.getElem_mem hi)
  rw [TorrentInfo.Has, List.getElem?_eq_getElem hi]
  simpa using hstate

/-- **Content integrity.** On a run whose PIECE messages spare the pieces that
are there, each of these has the contents that the metainfo asks for, in every
state that is reached; so have all pieces once the download is complete. -/
theorem run_intact {env : Environment} {metainfo : BencodeValue} {destdir : Bytes}
    {torrent : TorrentInfo} (hinit : torrentInit env metainfo destdir = .ok torrent) {disk : Disk}
    {acts : List (Act ℕ)} {c : Client}
    (hspares : RunMeets (clientStep processQueued) Spares (.idle torrent disk []) acts)
    (hrun : run (clientStep processQueued) (.idle torrent disk []) acts = .ok c) :
    (∀ i : ℕ, c.torrent.sh.piecesState[i]? = some .stateHave →
      c.torrent.pieces[i]? = some (sha1 (storedPiece c.torrent c.disk i))) ∧
      (c.torrent.sh.completed = true → ∀ i < c.torrent.pieces.length,
        c.torrent.pieces[i]? = some (sha1 (storedPiece c.torrent c.disk i))) := by
  have hstart : Client.Intact (.idle torrent disk []) := by
    intro i hi
    obtain ⟨-, -, -, -, -, -, hsh⟩ := torrentInit_eq_ok hinit
    simp only [Client.torrent, TorrentInfo.Has, hsh, List.getElem?_replicate] at hi
    split at hi <;> cases hi
  obtain ⟨haccounted, hintact⟩ := run_invariant _
    (I := fun c : Client => c.Accounted ∧ c.Intact)
    (fun _ _ _ h hspares hstep => clientStep_intact h.1 h.2 hspares hstep)
    (s := .idle torrent disk []) ⟨accounted_torrentInit hinit, hstart⟩ hspares hrun
  exact ⟨hintact, fun hcompleted i hi =>
    hintact i (has_of_completed haccounted.torrent hcompleted hi)⟩

/-- A peer that has the second piece sends it when asked, and then sends another
byte in its place. -/
def insistentPeer : Socket where
  inp := [0, 0, 0, 2, 5, 64] ++ [0, 0, 0, 1, 1] ++ [0, 0, 0, 10, 7, 0, 0, 0, 1, 0, 0, 0, 0, 42] ++
    [0, 0, 0, 10, 7, 0, 0, 0, 1, 0, 0, 0, 0, 43]
  recvs := []
  out := []
  sends := []

def downloadActs : List (Act ℕ) :=
  [.connect insistentPeer, .receive 100, .receive 100, .round, .receive 100]

/-- The piece has been checked and is there, and its contents are overwritten. -/
theorem run_overwritten :
    torrentInit quietEnvironment twoPiecesMetainfo [] = .ok twoPieces ∧
      ∃ c, run (clientStep processQueued) (.idle twoPieces blankDisk [])
          (downloadActs ++ [.receive 100]) = .ok c ∧
        c.torrent.sh.piecesState[1]? = some .stateHave ∧
        c.torrent.pieces[1]? ≠ some (sha1 (storedPiece c.torrent c.disk 1)) :=
  ⟨torrentInit_twoPieces, by decide +kernel⟩

/-- The same peer before it sends the other byte: none of its messages finds a
piece that is there. -/
theorem run_intact_download :
    ∃ c, run (clientStep processQueued) (.idle twoPieces blankDisk []) downloadActs = .ok c ∧
      ∀ i : ℕ, c.torrent.sh.piecesState[i]? = some .stateHave →
        c.torrent.pieces[i]? = some (sha1 (storedPiece c.torrent c.disk i)) := by
  have hnone : RunMeets (clientStep processQueued)
      (fun c _ => ∀ state ∈ c.torrent.sh.piecesState, state ≠ .stateHave)
      (.idle twoPieces blankDisk []) downloadActs := by
    decide +kernel
  have hspares : RunMeets (clientStep processQueued) Spares (.idle twoPieces blankDisk [])
      downloadActs := by
    refine RunMeets.mono hnone fun c a hnone => ?_
    cases c with
    | idle torrent disk log => trivial
    | connected s =>
        cases a with
        | receive avail =>
            intro _ i hi
            exact absurd rfl (hnone _ (List.mem_of_getElem? hi))
        | _ => trivial
  obtain ⟨c, hrun, -⟩ : ∃ c, run (clientStep processQueued) (.idle twoPieces blankDisk [])
      downloadActs = .ok c ∧ True := by
    decide +kernel
  exact ⟨c, hrun, (run_intact torrentInit_twoPieces hspares hrun).1⟩

end Daobell
