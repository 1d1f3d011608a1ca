import Daobell.Lib.Gather
import Daobell.Torrent.Info

/-!
What the operations on a torrent do: what `torrent_init` leaves behind, which
piece is requested next, and that a verified piece has the right digest.
-/

namespace Daobell

open Lib

/-! ### Initialisation -/

/-- A property of the torrent under construction that every file opened and
every field set preserves. -/
structure Constructed (P : TorrentInfo → Prop) : Prop where
  openFile : ∀ env init path size, P init.torrent → P (openFile env init path size).2.torrent
  createPiecesVector : ∀ s torrent torrent', P torrent →
    createPiecesVector s torrent = .ok torrent' → P torrent'
  pieceLength : ∀ torrent n, P torrent → P { torrent with pieceLength := n }

variable {P : TorrentInfo → Prop} (hP : Constructed P)

include hP

theorem Constructed.populateFilesFromList {env : Environment} {base : Bytes}
    {init init' : Initialisation} {fs : List BencodeValue} (h : P init.torrent)
    (hpop : populateFilesFromList env base init fs = .ok init') : P init'.torrent := by
  induction fs generalizing init with
  | nil =>
      cases hpop
      exact h
  | cons f fs ih =>
      rw [Daobell.populateFilesFromList] at hpop
      split at hpop
      · cases hpop
      · exact ih (hP.openFile _ _ _ _ h) hpop

theorem Constructed.infoEntry {env : Environment} {destdir name : Bytes} {st st' : InfoEntries}
    {e : ByteString × BencodeValue} (h : P st.init.torrent)
    (hentry : infoEntry env destdir name st e = .ok st') : P st'.init.torrent := by
  rw [Daobell.infoEntry] at hentry
  dsimp only at hentry
  split at hentry
  -- `pieces`
  · split at hentry
    · cases hentry
      exact h
    · split at hentry
      · cases hentry
      · cases hentry
        exact hP.createPiecesVector _ _ _ h ‹_›
  split at hentry
  -- `piece length`
  · split at hentry <;> cases hentry
    · exact h
    · exact hP.pieceLength _ _ h
  split at hentry
  · split at hentry <;> cases hentry <;> exact h
  split at hentry
  -- `files`
  · split at hentry
    · cases hentry
      exact h
    · split at hentry
      · cases hentry
      · cases hentry
        exact hP.populateFilesFromList h ‹_›
  · cases hentry
    exact h

theorem Constructed.populateInfoFromDict {env : Environment} {destdir : Bytes}
    {init : Initialisation} {r : Bool × Initialisation} {info : DictMap} (h : P init.torrent)
    (hpop : populateInfoFromDict env destdir init info = .ok r) : P r.2.torrent := by
  rw [Daobell.populateInfoFromDict] at hpop
  split at hpop
  · cases hpop
  · rename_i st hrun
    have hst : P st.init.torrent :=
      run_invariant_of_step _ (I := fun st : InfoEntries => P st.init.torrent)
        (fun _ _ _ h hstep => hP.infoEntry h hstep) h hrun
    split at hpop <;> cases hpop
    · exact hst
    · exact hP.openFile _ _ _ _ hst

omit hP

theorem constructed_infoHash (hash : Bytes) :
    Constructed fun torrent => torrent.infoHash = hash where
  openFile env init path size h := by
    simp only [openFile]
    split <;> exact h
  createPiecesVector s torrent torrent' h hcreate := by
    obtain ⟨_, _, rfl⟩ := createPiecesVector_ok hcreate
    exact h
  pieceLength torrent n h := h

/-- The files are mapped as long as the torrent is not complete. -/
theorem constructed_mapped :
    Constructed fun torrent => ∀ f ∈ torrent.files, f.mapped = true where
  openFile env init path size h := by
    simp only [openFile]
    split
    · intro f hf
      rcases List.mem_append.mp hf with hf | hf
      · exact h f hf
      · rw [List.mem_singleton.mp hf]
    · exact h
  createPiecesVector s torrent torrent' h hcreate := by
    obtain ⟨_, _, rfl⟩ := createPiecesVector_ok hcreate
    exact h
  pieceLength torrent n h := h

theorem metaEntry_infoHash_of_ne {env : Environment} {destdir : Bytes}
    {init init' : Initialisation} {e : ByteString × BencodeValue}
    (hne : e.1.bytes ≠ bytesOf "info") (h : metaEntry env destdir init e = .ok init') :
    init'.torrent.infoHash = init.torrent.infoHash := by
  rw [metaEntry] at h
  dsimp only at h
  rw [if_neg hne] at h
  split at h
  · split at h <;> cases h <;> rfl
  split at h
  · split at h <;> cases h <;> rfl
  · cases h
    rfl

theorem metaEntry_infoHash {env : Environment} {destdir : Bytes}
    {init init' : Initialisation} {e : ByteString × BencodeValue}
    (hinfo : e.1.bytes = bytesOf "info") (h : metaEntry env destdir init e = .ok init') :
    ∃ encoded, e.2.encode = .ok encoded ∧ init'.torrent.infoHash = sha1Compute encoded := by
  rw [metaEntry] at h
  dsimp only at h
  rw [if_neg (by rw [hinfo]; decide), if_neg (by rw [hinfo]; decide), if_pos hinfo] at h
  split at h
  · cases h
  · rename_i encoded hencoded
    refine ⟨encoded, hencoded, ?_⟩
    split at h
    · cases h
      rfl
    · obtain ⟨r, hpop, rfl⟩ := map_eq_ok.mp h
      exact (constructed_infoHash _).populateInfoFromDict rfl hpop

theorem metaEntry_mapped {env : Environment} {destdir : Bytes} {init init' : Initialisation}
    {e : ByteString × BencodeValue} (hmapped : ∀ f ∈ init.torrent.files, f.mapped = true)
    (h : metaEntry env destdir init e = .ok init') :
    ∀ f ∈ init'.torrent.files, f.mapped = true := by
  rw [metaEntry] at h
  dsimp only at h
  split at h
  · split at h <;> cases h <;> exact hmapped
  split at h
  · split at h <;> cases h <;> exact hmapped
  split at h
  · split at h
    · cases h
    · split at h
      · cases h
        exact hmapped
      · obtain ⟨r, hpop, rfl⟩ := map_eq_ok.mp h
        refine constructed_mapped.populateInfoFromDict ?_ hpop
        exact hmapped
  · cases h
    exact hmapped

/-- What `torrent_init` makes of the metainfo: the fields read from it, and a
shared state in which nothing has been requested. -/
theorem torrentInit_eq_ok {env : Environment} {metainfo : BencodeValue} {destdir : Bytes}
    {torrent : TorrentInfo} (h : torrentInit env metainfo destdir = .ok torrent) :
    ∃ dict init, metainfo.asDict = some dict ∧
      run (metaEntry env destdir) (newInitialisation env) dict = .ok init ∧
      torrent.infoHash = init.torrent.infoHash ∧ torrent.files = init.torrent.files ∧
      torrent.sh = ⟨List.replicate torrent.pieces.length .stateNotRequested,
        torrent.pieces.length, 0, 0, false⟩ := by
  rw [torrentInit] at h
  split at h
  · cases h
  · rename_i dict hdict
    split at h
    · cases h
    · rename_i init hrun
      cases h
      exact ⟨dict, init, hdict, hrun, rfl, rfl, rfl⟩

theorem torrentInit_mapped {env : Environment} {metainfo : BencodeValue} {destdir : Bytes}
    {torrent : TorrentInfo} (h : torrentInit env metainfo destdir = .ok torrent) :
    ∀ f ∈ torrent.files, f.mapped = true := by
  obtain ⟨dict, init, -, hrun, -, hfiles, -⟩ := torrentInit_eq_ok h
  rw [hfiles]
  exact run_invariant_of_step _
    (I := fun init : Initialisation => ∀ f ∈ init.torrent.files, f.mapped = true)
    (fun _ _ _ h hstep => metaEntry_mapped h hstep) (by simp [newInitialisation, newTorrentInfo]) hrun

/-- When one entry is called `info`, the hash is that of its encoding. -/
theorem torrentInit_infoHash {env : Environment} {dict : DictMap} {destdir : Bytes}
    {torrent : TorrentInfo} {info : ByteString × BencodeValue}
    (hone : dict.filter (fun e => e.1.bytes = bytesOf "info") = [info])
    (h : torrentInit env (.bencodeDict dict) destdir = .ok torrent) :
    ∃ encoded, info.2.encode = .ok encoded ∧ torrent.infoHash = sha1Compute encoded := by
  obtain ⟨_, init, hdict, hrun, hhash, -⟩ := torrentInit_eq_ok h
  cases hdict
  obtain ⟨before, after, rfl, -, hinfo, hafter⟩ := List.filter_eq_cons_iff.mp hone
  have hne : ∀ e ∈ after, e.1.bytes ≠ bytesOf "info" := by
    simpa [List.filter_eq_nil_iff] using hafter
  obtain ⟨mid, -, hrest⟩ := (run_append_eq_ok _).mp hrun
  obtain ⟨next, hstep, hrest⟩ := (run_cons_eq_ok _).mp hrest
  obtain ⟨encoded, hencoded, hset⟩ := metaEntry_infoHash (by simpa using hinfo) hstep
  refine ⟨encoded, hencoded, hhash.trans ?_⟩
  exact run_invariant _ (I := fun init : Initialisation => init.torrent.infoHash = _)
    (C := fun _ e => e.1.bytes ≠ bytesOf "info")
    (fun _ _ _ hI hC hstep => (metaEntry_infoHash_of_ne hC hstep).trans hI) hset
    (runMeets_of_forall _ (fun e he _ => hne e he) _) hrest

/-! ### Checking a piece -/

theorem sha1Finish_mems (disk : Disk) (mems : List FileMem) :
    sha1Finish (mems.foldl (fun context mem => sha1Update context (mem.positions.map disk))
      sha1ContextInit) = sha1 ((mems.flatMap FileMem.positions).map disk) := by
  have h := sha1Finish_foldl (mems.map fun mem => mem.positions.map disk)
  rw [List.foldl_map, ← List.flatMap_def] at h
  rw [h, List.map_flatMap]

/-- When the check of a piece returns, it has compared the hash of what the
files hold. -/
theorem torrentSha1Verify_eq_ok {torrent : TorrentInfo} {disk : Disk} {index : UInt32}
    {valid : Bool} (h : torrentSha1Verify torrent disk index = .ok valid) :
    ∃ piece, torrent.pieces[index.toNat]? = some piece ∧
      (valid = true ↔ piece = sha1 ((torrent.layout.pieceAddresses index).map disk)) := by
  rw [torrentSha1Verify] at h
  split at h
  · cases h
  · rename_i piece hpiece
    refine ⟨piece, hpiece, ?_⟩
    dsimp only at h
    split at h
    · rw [sha1Finish_mems, List.flatMap_assoc, Except.ok.injEq] at h
      rw [← h, decide_eq_true_eq, ← flatMap_positions]
      rfl
    · cases h

theorem isMapped_of_mem {torrent : TorrentInfo} (hall : ∀ f ∈ torrent.files, f.mapped = true)
    {index : UInt32} {block : BlockRequest} {mem : FileMem}
    (hblock : block ∈ (pieceRequestCreate torrent.layout index).blockRequests)
    (hmem : mem ∈ block.fileMems) (hpos : 0 < mem.size) : torrent.isMapped mem = true := by
  have hle := mem_le_size torrent.layout hblock hmem hpos
  have hlt : mem.file < torrent.files.length := by
    by_contra hge
    have hnone : torrent.layout.sizes[mem.file]? = none :=
      List.getElem?_eq_none (by simpa [TorrentInfo.layout] using hge)
    rw [List.getD_eq_getElem?_getD, hnone, Option.getD_none] at hle
    omega
  rw [TorrentInfo.isMapped, List.getElem?_eq_getElem hlt]
  exact hall _ (List.getElem_mem hlt)

/-- While the files are mapped, the check of a piece returns. -/
theorem torrentSha1Verify_ok {torrent : TorrentInfo} (hall : ∀ f ∈ torrent.files, f.mapped = true)
    (disk : Disk) {index : UInt32} (hindex : index.toNat < torrent.pieces.length) :
    ∃ valid, torrentSha1Verify torrent disk index = .ok valid := by
  have hmapped : ((pieceRequestCreate torrent.layout index).blockRequests.flatMap
      (·.fileMems)).all (fun mem => mem.size = 0 || torrent.isMapped mem) = true := by
    rw [List.all_eq_true]
    intro mem hmem
    obtain ⟨block, hblock, hmem⟩ := List.mem_flatMap.mp hmem
    rcases Nat.eq_zero_or_pos mem.size with h0 | hpos
    · simp [h0]
    · simp [isMapped_of_mem hall hblock hmem hpos]
  rw [torrentSha1Verify, List.getElem?_eq_getElem hindex]
  exact ⟨_, if_pos hmapped⟩

/-! ### Where the bytes are -/

theorem place_of_mem {torrent : TorrentInfo} {p : Address}
    (hp : p ∈ addresses torrent.layout.sizes) :
    ∃ f, torrent.files[p.1]? = some f ∧ torrent.place p = .inl (f.inode, p.2) := by
  obtain ⟨-, size, hsize, hlt⟩ := mem_addressesFrom.mp hp
  rw [Nat.sub_zero, TorrentInfo.layout, List.getElem?_map, Option.map_eq_some_iff] at hsize
  obtain ⟨f, hf, rfl⟩ := hsize
  exact ⟨f, hf, by simp [TorrentInfo.place, hf, hlt]⟩

/-- No two of the torrent's files are one file of the file system. -/
def TorrentInfo.FilesApart (torrent : TorrentInfo) : Prop :=
  (torrent.files.map DnldFile.inode).Nodup

instance (torrent : TorrentInfo) : Decidable torrent.FilesApart :=
  inferInstanceAs (Decidable (List.Nodup _))

theorem TorrentInfo.FilesApart.eq_of_place {torrent : TorrentInfo} (h : torrent.FilesApart)
    {p q : Address} (hp : p ∈ addresses torrent.layout.sizes)
    (hq : torrent.place p = torrent.place q) : p = q := by
  obtain ⟨f, hf, hplace⟩ := place_of_mem hp
  rw [hplace, TorrentInfo.place] at hq
  split at hq
  · rename_i g hg
    split at hq
    · obtain ⟨hinode, hoffset⟩ := Prod.mk.inj (Sum.inl.inj hq)
      refine Prod.ext ?_ hoffset
      have hlt : p.1 < (torrent.files.map DnldFile.inode).length := by
        rw [List.length_map]
        exact (List.getElem?_eq_some_iff.mp hf).1
      refine (List.getElem?_inj hlt h).mp ?_
      rw [List.getElem?_map, List.getElem?_map, hf, hg, Option.map_some, Option.map_some, hinode]
    · cases hq
  · cases hq

theorem TorrentInfo.FilesApart.fits {torrent : TorrentInfo} (h : torrent.FilesApart)
    {as : List Address} (has : as ⊆ addresses torrent.layout.sizes) (hnd : as.Nodup) {bs : Bytes}
    (hlen : as.length = bs.length) : Fits torrent.place as bs := by
  obtain ⟨c, rfl⟩ := exists_map_eq hnd hlen
  rw [fits_map_iff]
  intro p hp q hq hpq
  rw [h.eq_of_place (has hp) hpq]

/-! ### A torrent -/

def quietEnvironment : Environment := ⟨0, 0, [], id, fun _ => none, fun _ _ _ => true⟩

def twoPiecesInfo : BencodeValue :=
  .bencodeDict [(⟨bytesOf "length", by decide⟩, .bencodeInt 16385),
    (⟨bytesOf "name", by decide⟩, .bencodeString ⟨bytesOf "x", by decide⟩),
    (⟨bytesOf "piece length", by decide⟩, .bencodeInt 16384),
    (⟨bytesOf "pieces", by decide⟩,
      .bencodeString ⟨List.replicate 20 0 ++ sha1 [42], by simp [length_sha1]⟩)]

def infoKey : ByteString := ⟨bytesOf "info", by decide⟩

def lengthKey : ByteString := ⟨bytesOf "length", by decide⟩

def nameKey : ByteString := ⟨bytesOf "name", by decide⟩

def filesKey : ByteString := ⟨bytesOf "files", by decide⟩

def pathKey : ByteString := ⟨bytesOf "path", by decide⟩

def pieceLengthKey : ByteString := ⟨bytesOf "piece length", by decide⟩

def piecesKey : ByteString := ⟨bytesOf "pieces", by decide⟩

def letter (b : UInt8) : ByteString := ⟨[b], by simp⟩

theorem one_toNat_pos : 0 < (1 : UInt32).toNat := by decide

def fileDict (name : ByteString) (length : Int64) : BencodeValue :=
  .bencodeDict [(lengthKey, .bencodeInt length), (pathKey, .bencodeList [.bencodeString name])]

def twoPiecesMetainfo : BencodeValue := .bencodeDict [(infoKey, twoPiecesInfo)]

def twoPieces : TorrentInfo where
  announce := []
  creationDate := 0
  pieceLength := 16384
  files := [⟨bytesOf "/x.incomplete", .new 0, 16385, true, by decide⟩]
  infoHash := sha1Compute twoPiecesInfo.crawl
  maxPeers := defaultMaxPeers
  pieces := [List.replicate 20 0, sha1 [42]]
  sh := ⟨[.stateNotRequested, .stateNotRequested], 2, 0, 0, false⟩
  files_lt := by decide
  pieces_le := by decide
  pieces_length := by simp [length_sha1]

theorem torrentInit_twoPieces : torrentInit quietEnvironment twoPiecesMetainfo [] = .ok twoPieces := by
  decide +kernel

def blankDisk : Disk := fun _ => 0

end Daobell
