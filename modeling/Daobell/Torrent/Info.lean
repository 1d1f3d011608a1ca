import Daobell.Bencode.Encoder
import Daobell.Lib.Runs
import Daobell.Sha1.Digest
import Daobell.Torrent.PieceRequest

/-!
The torrent: `torrent_info.cpp` and `dnld_file.cpp`. What the files hold is
kept apart from the `TorrentInfo`, as a `Disk`, and so is what the environment
decides: which files there are, whether a file can be created and mapped, and
what a field that the source never assigns happens to contain. The program's
output, the mutex and the thread ids are left out.
-/

namespace Daobell

open Lib

inductive PieceState
  | stateNotRequested
  | stateRequested
  | stateHave
  deriving DecidableEq, Repr

/-- A file of the file system: one of those that were there before, or the one that the
`n`-th call of `create_and_open` has made. -/
inductive Inode
  | old (n : ℕ)
  | new (n : ℕ)
  deriving DecidableEq

/-- A `dnld_file` that `create_and_open` has opened: never empty, as `mmap`
refuses the length zero. `mapped` says whether `data_` is still mapped; that the
bytes of a mapping are there, whatever becomes of the file, is taken for granted. -/
structure DnldFile where
  path : Bytes
  inode : Inode
  size : UInt32
  mapped : Bool
  size_pos : 0 < size.toNat
  deriving DecidableEq

/-- The members of `sh` besides the list of connections. -/
structure Shared where
  piecesState : List PieceState
  piecesLeft : ℕ
  uploaded : ℕ
  downloaded : ℕ
  completed : Bool
  deriving DecidableEq

/-- A `torrent_info`. The bounds are those of a process: its mappings are
counted by an `int`, and more than `2^32 - 8` strings do not fit its memory; so
no index of a file or a piece wraps. -/
structure TorrentInfo where
  announce : Bytes
  creationDate : UInt32
  pieceLength : UInt32
  files : List DnldFile
  infoHash : Bytes
  maxPeers : ℕ
  pieces : List Bytes
  sh : Shared
  files_lt : files.length < 2 ^ 31
  pieces_le : pieces.length + 8 ≤ 2 ^ 32
  pieces_length : ∀ p ∈ pieces, p.length = 20
  deriving DecidableEq

abbrev Disk := Address → UInt8

/-- Where an address is in the file system: what is written at one address is seen at
all that are at the same place. What is no byte of a file is a place of its own. -/
def TorrentInfo.place (torrent : TorrentInfo) (p : Address) : (Inode × ℕ) ⊕ Address :=
  match torrent.files[p.1]? with
  | some f => if p.2 < f.size.toNat then .inl (f.inode, p.2) else .inr p
  | none => .inr p

def TorrentInfo.layout (torrent : TorrentInfo) : Layout where
  pieceLength := torrent.pieceLength
  sizes := torrent.files.map fun f => f.size.toNat
  size_pos := by
    intro s hs
    obtain ⟨f, -, rfl⟩ := List.mem_map.mp hs
    exact f.size_pos
  size_lt := by
    intro s hs
    obtain ⟨f, -, rfl⟩ := List.mem_map.mp hs
    exact f.size.toNat_lt
  count_lt := by
    rw [List.length_map]
    exact torrent.files_lt.trans (by decide)
  length_lt := by
    rw [List.length_map]
    exact torrent.files_lt

def TorrentInfo.isMapped (torrent : TorrentInfo) (mem : FileMem) : Bool :=
  match torrent.files[mem.file]? with
  | some f => f.mapped
  | none => false

/-! ### Files -/

/-- `dnld_file::complete`: the file gets its own name and is unmapped. -/
def DnldFile.complete (file : DnldFile) : DnldFile :=
  match findBytes (bytesOf ".incomplete") file.path with
  | some pos => { file with path := file.path.take pos, mapped := false }
  | none => file

/-- What `torrent_init` finds outside: what the unassigned fields contain, the entry of
a directory that a path names, the files behind the entries, and whether the `n`-th file
to be created, with its path and size, can be opened, resized and mapped. -/
structure Environment where
  creationDate : UInt32
  pieceLength : UInt32
  infoHash : Bytes
  resolve : Bytes → Bytes
  entries : Bytes → Option ℕ
  createAndOpen : ℕ → Bytes → UInt32 → Bool

abbrev Entries := Bytes → Option Inode

/-- `rename`, which does nothing when both names are one file. -/
def Entries.rename (entries : Entries) (oldName newName : Bytes) : Entries :=
  if entries oldName = entries newName then entries
  else Function.update (Function.update entries oldName none) newName (entries oldName)

/-- A torrent under construction, with the number of files tried so far. -/
structure Initialisation where
  torrent : TorrentInfo
  tried : ℕ
  entries : Entries

/-- `create_and_open` on a new file, and `push_back` when it succeeds. What a call that
fails leaves behind is no file of the torrent. -/
def openFile (env : Environment) (init : Initialisation) (path : Bytes) (size : UInt32) :
    Bool × Initialisation :=
  let torrent := init.torrent
  let name := env.resolve (cStr path)
  let inode := (init.entries name).getD (.new init.tried)
  if h : 0 < size.toNat ∧ torrent.files.length + 1 < 2 ^ 31 ∧
      env.createAndOpen init.tried path size = true then
    let file : DnldFile := ⟨path ++ bytesOf ".incomplete", inode, size, true, h.1⟩
    let entries : Entries := Function.update init.entries name (some inode)
    (true, {
      torrent := { torrent with
        files := torrent.files ++ [file]
        files_lt := by simpa using h.2.1 }
      tried := init.tried + 1
      entries := entries.rename name (env.resolve (cStr file.path)) })
  else (false, { init with tried := init.tried + 1 })

/-! ### Reading the metainfo -/

theorem length_of_mem_chunks {c : ℕ} (hc : 0 < c) {bs : Bytes} (hbs : c ∣ bs.length) {p : Bytes}
    (hp : p ∈ chunks c bs) : p.length = c := by
  induction bs using chunk_induction hc with
  | nil => simp [hc] at hp
  | step bs hne ih =>
      have hle : c ≤ bs.length := Nat.le_of_dvd (List.length_pos_iff.mpr hne) hbs
      rw [chunks_eq_cons hc hne] at hp
      rcases List.mem_cons.mp hp with rfl | hp
      · simpa using hle
      · refine ih ?_ hp
        rw [List.length_drop]
        exact Nat.dvd_sub hbs dvd_rfl

/-- `create_pieces_vector`. The loop counter is `unsigned`: with `2^32` bytes
or more it never reaches the end. -/
def createPiecesVector (pieces : ByteString) (torrent : TorrentInfo) :
    Except Crash TorrentInfo :=
  if h20 : 20 ∣ pieces.bytes.length then
    if 2 ^ 32 ≤ pieces.bytes.length then .error .hang
    else if hle : (torrent.pieces ++ chunks 20 pieces.bytes).length + 8 ≤ 2 ^ 32 then
      if torrent.pieces ++ chunks 20 pieces.bytes = [] then .error .outOfRange
      else .ok { torrent with
        pieces := torrent.pieces ++ chunks 20 pieces.bytes
        pieces_le := hle
        pieces_length := by
          intro p hp
          rcases List.mem_append.mp hp with hp | hp
          · exact torrent.pieces_length p hp
          · exact length_of_mem_chunks (by decide) h20 hp }
    else .error .lengthError
  else .error .assertFailed

theorem createPiecesVector_ok {pieces : ByteString} {torrent torrent' : TorrentInfo}
    (h : createPiecesVector pieces torrent = .ok torrent') :
    ∃ hle hlength, torrent' = { torrent with
      pieces := torrent.pieces ++ chunks 20 pieces.bytes
      pieces_le := hle
      pieces_length := hlength } := by
  rw [createPiecesVector] at h
  split at h
  swap
  · cases h
  split at h
  · cases h
  split at h
  swap
  · cases h
  split at h
  · cases h
  · exact ⟨_, _, (Except.ok.inj h).symm⟩

/-- The loop over the elements of `path`: their names with slashes between. -/
def appendPath : Bytes → List BencodeValue → Except Crash Bytes
  | path, [] => .ok path
  | path, p :: ps =>
      match p.asString with
      | none => .error .nullDereference
      | some s => appendPath (path ++ s.bytes ++ if ps = [] then [] else bytesOf "/") ps

/-- The loop over the entries of one dictionary of `files`: length and path. -/
def fileEntries : UInt32 × Bytes → DictMap → Except Crash (UInt32 × Bytes)
  | file, [] => .ok file
  | (len, path), (key, value) :: es =>
      if key.bytes = bytesOf "length" then
        match value.asInt with
        | none => .error .nullDereference
        | some n => fileEntries (n.toUInt64.toUInt32, path) es
      else if key.bytes = bytesOf "path" then
        match value.asList with
        | none => .error .nullDereference
        | some ps =>
            match appendPath path ps with
            | .error c => .error c
            | .ok path => fileEntries (len, path) es
      else fileEntries (len, path) es

/-- The loop of `populate_files_from_list`. The directories it makes are left
to the environment. -/
def populateFilesFromList (env : Environment) (base : Bytes) :
    Initialisation → List BencodeValue → Except Crash Initialisation
  | init, [] => .ok init
  | init, f :: fs =>
      match fileEntries (0, base) ((f.asDict).getD []) with
      | .error c => .error c
      | .ok (len, path) => populateFilesFromList env base (openFile env init path len).2 fs

/-- The first loop of `populate_info_from_dict`: the last `name` that is a
string. -/
def fileName : Bytes → DictMap → Bytes
  | name, [] => name
  | name, (key, value) :: es =>
      if key.bytes = bytesOf "name" then
        match value.asString with
        | some s => fileName s.bytes es
        | none => fileName name es
      else fileName name es

/-- What the second loop of `populate_info_from_dict` works on. -/
structure InfoEntries where
  init : Initialisation
  multifile : Bool
  len : UInt32

/-- One entry in the second loop of `populate_info_from_dict`. -/
def infoEntry (env : Environment) (destdir name : Bytes) (st : InfoEntries)
    (e : ByteString × BencodeValue) : Except Crash InfoEntries :=
  let torrent := st.init.torrent
  if e.1.bytes = bytesOf "pieces" then
    match e.2.asString with
    | none => .ok st
    | some s =>
        match createPiecesVector s torrent with
        | .error c => .error c
        | .ok torrent => .ok { st with init := { st.init with torrent } }
  else if e.1.bytes = bytesOf "piece length" then
    match e.2.asInt with
    | none => .ok st
    | some n => .ok { st with
        init := { st.init with torrent := { torrent with pieceLength := n.toUInt64.toUInt32 } } }
  else if e.1.bytes = bytesOf "length" then
    match e.2.asInt with
    | none => .ok st
    | some n => .ok { st with len := n.toUInt64.toUInt32 }
  else if e.1.bytes = bytesOf "files" then
    -- `files` makes it a multi-file torrent even when it is no list
    match e.2.asList with
    | none => .ok { st with multifile := true }
    | some fs =>
        match populateFilesFromList env (destdir ++ bytesOf "/" ++ name ++ bytesOf "/") st.init fs with
        | .error c => .error c
        | .ok init => .ok { st with init, multifile := true }
  else .ok st

/-- `populate_info_from_dict`, and whether it returns 0. What becomes of the
files of a multi-file torrent is not looked at. -/
def populateInfoFromDict (env : Environment) (destdir : Bytes) (init : Initialisation)
    (info : DictMap) : Except Crash (Bool × Initialisation) :=
  let name := fileName [] info
  match run (infoEntry env destdir name) ⟨init, false, 0⟩ info with
  | .error c => .error c
  | .ok st =>
      if st.multifile then .ok (true, st.init)
      else .ok (openFile env st.init (destdir ++ bytesOf "/" ++ name) st.len)

/-- One entry in the loop of `torrent_init`. The value under `info` is encoded
again, and the hash is that of the encoding. -/
def metaEntry (env : Environment) (destdir : Bytes) (init : Initialisation)
    (e : ByteString × BencodeValue) : Except Crash Initialisation :=
  let torrent := init.torrent
  if e.1.bytes = bytesOf "announce" then
    match e.2.asString with
    | none => .ok init
    | some s => .ok { init with torrent := { torrent with announce := s.bytes } }
  else if e.1.bytes = bytesOf "creation date" then
    match e.2.asInt with
    | none => .ok init
    | some n => .ok { init with torrent := { torrent with creationDate := n.toUInt64.toUInt32 } }
  else if e.1.bytes = bytesOf "info" then
    match e.2.encode with
    | .error c => .error c
    | .ok encoded =>
        let init := { init with torrent := { torrent with infoHash := sha1Compute encoded } }
        match e.2.asDict with
        | none => .ok init
        -- nobody looks at what it returns
        | some info => (populateInfoFromDict env destdir init info).map Prod.snd
  else .ok init

def defaultMaxPeers : ℕ := 50

def newTorrentInfo (env : Environment) : TorrentInfo where
  announce := []
  creationDate := env.creationDate
  pieceLength := env.pieceLength
  files := []
  infoHash := env.infoHash
  maxPeers := 0
  pieces := []
  sh := ⟨[], 0, 0, 0, false⟩
  files_lt := by decide
  pieces_le := by decide
  pieces_length := by simp

def newInitialisation (env : Environment) : Initialisation :=
  ⟨newTorrentInfo env, 0, fun name => (env.entries name).map .old⟩

def torrentInit (env : Environment) (metainfo : BencodeValue) (destdir : Bytes) :
    Except Crash TorrentInfo :=
  match metainfo.asDict with
  | none => .error .nullDereference
  | some dict =>
      match run (metaEntry env destdir) (newInitialisation env) dict with
      | .error c => .error c
      | .ok init =>
          let n := init.torrent.pieces.length
          .ok { init.torrent with
            maxPeers := defaultMaxPeers
            sh := ⟨List.replicate n .stateNotRequested, n, 0, 0, false⟩ }

/-! ### The other operations -/

/-- `torrent_make_bitfield`, on an empty bit set. -/
def torrentMakeBitfield (torrent : TorrentInfo) : Except Crash (List Bool) :=
  if torrent.pieces.length ≤ torrent.sh.piecesState.length then
    .ok ((torrent.sh.piecesState.take torrent.pieces.length).map (· = .stateHave))
  else .error .outOfRange

/-- The loop of `torrent_next_request`, from piece `i` on: the last requested
piece the peer has and, where the loop breaks off, the first one that is not
requested. -/
def nextRequestLoop : ℕ → List PieceState → List Bool → Option ℕ → Option ℕ × Option ℕ
  | i, state :: states, has :: peerHave, request =>
      let request := if state = .stateRequested ∧ has then some i else request
      if state = .stateNotRequested ∧ has then (request, some i)
      else nextRequestLoop (i + 1) states peerHave request
  | _, _, _, request => (request, none)

def TorrentInfo.setState (torrent : TorrentInfo) (index : ℕ) (state : PieceState) :
    TorrentInfo :=
  { torrent with sh := { torrent.sh with
      piecesState := torrent.sh.piecesState.set index state } }

/-- `torrent_next_request`; `none` where it returns -1. -/
def torrentNextRequest (torrent : TorrentInfo) (peerHave : List Bool) :
    Except Crash (Option (ℕ × TorrentInfo)) :=
  if torrent.pieces.length ≠ torrent.sh.piecesState.length ∨
      torrent.pieces.length ≠ peerHave.length then .error .assertFailed
  else
    match nextRequestLoop 0 torrent.sh.piecesState peerHave none with
    | (none, none) => .ok none
    | (_, some i) => .ok (some (i, torrent.setState i .stateRequested))
    | (some i, none) => .ok (some (i, torrent.setState i .stateRequested))

/-- `torrent_sha1_verify`: hash what the files hold at the ranges of the piece.
Reading memory that is no longer mapped ends the program. -/
def torrentSha1Verify (torrent : TorrentInfo) (disk : Disk) (index : UInt32) :
    Except Crash Bool :=
  match torrent.pieces[index.toNat]? with
  | none => .error .assertFailed
  | some piece =>
      let mems := (pieceRequestCreate torrent.layout index).blockRequests.flatMap (·.fileMems)
      if mems.all fun mem => mem.size = 0 || torrent.isMapped mem then
        .ok (piece = sha1Finish (mems.foldl
          (fun context mem => sha1Update context (mem.positions.map disk)) sha1ContextInit))
      else .error .unmapped

def torrentComplete (torrent : TorrentInfo) : TorrentInfo where
  announce := torrent.announce
  creationDate := torrent.creationDate
  pieceLength := torrent.pieceLength
  files := torrent.files.map DnldFile.complete
  infoHash := torrent.infoHash
  maxPeers := torrent.maxPeers
  pieces := torrent.pieces
  sh := { torrent.sh with completed := true }
  files_lt := by
    rw [List.length_map]
    exact torrent.files_lt
  pieces_le := torrent.pieces_le
  pieces_length := torrent.pieces_length

end Daobell
