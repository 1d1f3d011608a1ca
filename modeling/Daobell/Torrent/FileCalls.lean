import Daobell.Torrent.Info

/-!
The calls that reading the metainfo makes to the file system: `mkdir` for the
directories of a multi-file torrent, and `create_and_open` for each file. The
files of the torrent are those of the calls of `create_and_open` that succeed,
in their order.
-/

namespace Daobell

open Lib

inductive FileCall
  | mkdir (path : Bytes)
  | createAndOpen (path : Bytes) (size : UInt32)
  deriving DecidableEq

def FileCall.path : FileCall → Bytes
  | .mkdir path => path
  | .createAndOpen path _ => path

/-! ### The calls -/

/-- The directories made by the loop over the elements of `path`: one for each
element but the last. -/
def pathDirs : Bytes → List BencodeValue → List Bytes
  | _, [] => []
  | path, p :: ps =>
      match p.asString with
      | none => []
      | some s =>
          if ps = [] then []
          else (path ++ s.bytes) :: pathDirs (path ++ s.bytes ++ bytesOf "/") ps

/-- The directories made by the loop over the entries of one dictionary of
`files`. -/
def entryDirs : Bytes → DictMap → List Bytes
  | _, [] => []
  | path, (key, value) :: es =>
      if key.bytes = bytesOf "length" then
        match value.asInt with
        | none => []
        | some _ => entryDirs path es
      else if key.bytes = bytesOf "path" then
        match value.asList with
        | none => []
        | some ps =>
            pathDirs path ps ++
              match appendPath path ps with
              | .error _ => []
              | .ok path => entryDirs path es
      else entryDirs path es

def filesCalls (base : Bytes) : List BencodeValue → List FileCall
  | [] => []
  | f :: fs =>
      (entryDirs base ((f.asDict).getD [])).map .mkdir ++
        match fileEntries (0, base) ((f.asDict).getD []) with
        | .error _ => []
        | .ok (len, path) => .createAndOpen path len :: filesCalls base fs

def populateFilesCalls (destdir name : Bytes) (fs : List BencodeValue) : List FileCall :=
  .mkdir (destdir ++ bytesOf "/" ++ name) ::
    filesCalls (destdir ++ bytesOf "/" ++ name ++ bytesOf "/") fs

/-- The calls for one entry in the second loop of `populate_info_from_dict`. -/
def entryCalls (destdir name : Bytes) (e : ByteString × BencodeValue) : List FileCall :=
  if e.1.bytes = bytesOf "files" then
    match e.2.asList with
    | none => []
    | some fs => populateFilesCalls destdir name fs
  else []

/-- The calls of the second loop from `st` on, and the one for a single file
behind it. -/
def entriesCalls (env : Environment) (destdir name : Bytes) : InfoEntries → DictMap → List FileCall
  | st, [] =>
      if st.multifile then [] else [.createAndOpen (destdir ++ bytesOf "/" ++ name) st.len]
  | st, e :: es =>
      entryCalls destdir name e ++
        match infoEntry env destdir name st e with
        | .error _ => []
        | .ok st => entriesCalls env destdir name st es

def infoCalls (env : Environment) (destdir : Bytes) (init : Initialisation) (info : DictMap) :
    List FileCall :=
  entriesCalls env destdir (fileName [] info) ⟨init, false, 0⟩ info

/-! ### What comes of them -/

/-- What `create_and_open` is asked for. -/
def FileCall.request? : FileCall → Option (Bytes × UInt32)
  | .mkdir _ => none
  | .createAndOpen path size => some (path, size)

def openFiles (env : Environment) (init : Initialisation) (requests : List (Bytes × UInt32)) :
    Initialisation :=
  requests.foldl (fun init request => (openFile env init request.1 request.2).2) init

@[simp] theorem openFiles_nil (env : Environment) (init : Initialisation) :
    openFiles env init [] = init := rfl

@[simp] theorem openFiles_cons (env : Environment) (init : Initialisation)
    (request : Bytes × UInt32) (requests : List (Bytes × UInt32)) :
    openFiles env init (request :: requests) =
      openFiles env (openFile env init request.1 request.2).2 requests := rfl

theorem openFiles_append (env : Environment) (init : Initialisation)
    (as bs : List (Bytes × UInt32)) :
    openFiles env init (as ++ bs) = openFiles env (openFiles env init as) bs :=
  List.foldl_append

structure SameFiles (init init' : Initialisation) : Prop where
  files : init.torrent.files = init'.torrent.files
  tried : init.tried = init'.tried
  entries : init.entries = init'.entries

theorem SameFiles.trans {a b c : Initialisation} (h₁ : SameFiles a b) (h₂ : SameFiles b c) :
    SameFiles a c :=
  ⟨h₁.files.trans h₂.files, h₁.tried.trans h₂.tried, h₁.entries.trans h₂.entries⟩

theorem SameFiles.openFile {init init' : Initialisation} (h : SameFiles init init')
    (env : Environment) (path : Bytes) (size : UInt32) :
    SameFiles (openFile env init path size).2 (openFile env init' path size).2 := by
  simp only [Daobell.openFile, h.files, h.tried, h.entries]
  split
  · exact ⟨rfl, rfl, rfl⟩
  · exact ⟨h.files, rfl, rfl⟩

theorem SameFiles.openFiles {init init' : Initialisation} (h : SameFiles init init')
    (env : Environment) (requests : List (Bytes × UInt32)) :
    SameFiles (openFiles env init requests) (openFiles env init' requests) := by
  induction requests generalizing init init' with
  | nil => exact h
  | cons request requests ih => exact ih (h.openFile env request.1 request.2)

theorem filterMap_request?_mkdir (dirs : List Bytes) :
    (dirs.map FileCall.mkdir).filterMap FileCall.request? = [] := by
  induction dirs with
  | nil => rfl
  | cons dir dirs ih => exact ih

theorem populateFilesFromList_calls {env : Environment} {base : Bytes} {init init' : Initialisation}
    {fs : List BencodeValue} (h : populateFilesFromList env base init fs = .ok init') :
    init' = openFiles env init ((filesCalls base fs).filterMap FileCall.request?) := by
  induction fs generalizing init with
  | nil =>
      cases h
      rfl
  | cons f fs ih =>
      rw [populateFilesFromList] at h
      rw [filesCalls, List.filterMap_append, filterMap_request?_mkdir, List.nil_append]
      cases hentries : fileEntries (0, base) ((f.asDict).getD []) with
      | error crash =>
          rw [hentries] at h
          cases h
      | ok r =>
          rw [hentries] at h
          exact ih h

theorem createPiecesVector_files {s : ByteString} {torrent torrent' : TorrentInfo}
    (h : createPiecesVector s torrent = .ok torrent') : torrent'.files = torrent.files := by
  obtain ⟨_, _, rfl⟩ := createPiecesVector_ok h
  rfl

/-- An entry that is not `files` opens none. -/
theorem infoEntry_other {env : Environment} {destdir name : Bytes} {st st' : InfoEntries}
    {e : ByteString × BencodeValue} (hkey : e.1.bytes ≠ bytesOf "files")
    (h : infoEntry env destdir name st e = .ok st') :
    SameFiles st'.init st.init ∧ st'.multifile = st.multifile := by
  rw [infoEntry] at h
  dsimp only at h
  rw [if_neg hkey] at h
  split at h
  · split at h
    · cases h
      exact ⟨⟨rfl, rfl, rfl⟩, rfl⟩
    · split at h
      · cases h
      · rename_i hpieces
        cases h
        exact ⟨⟨createPiecesVector_files hpieces, rfl, rfl⟩, rfl⟩
  split at h
  · split at h <;> cases h <;> exact ⟨⟨rfl, rfl, rfl⟩, rfl⟩
  split at h
  · split at h <;> cases h <;> exact ⟨⟨rfl, rfl, rfl⟩, rfl⟩
  · cases h
    exact ⟨⟨rfl, rfl, rfl⟩, rfl⟩

/-- The entry `files` makes its calls, and the torrent one of many files. -/
theorem infoEntry_files {env : Environment} {destdir name : Bytes} {st st' : InfoEntries}
    {e : ByteString × BencodeValue} (hkey : e.1.bytes = bytesOf "files")
    (h : infoEntry env destdir name st e = .ok st') :
    SameFiles st'.init
        (openFiles env st.init ((entryCalls destdir name e).filterMap FileCall.request?)) ∧
      st'.multifile = true := by
  rw [infoEntry] at h
  dsimp only at h
  rw [if_neg (by rw [hkey]; decide), if_neg (by rw [hkey]; decide),
    if_neg (by rw [hkey]; decide), if_pos hkey] at h
  rw [entryCalls, if_pos hkey]
  cases hlist : e.2.asList with
  | none =>
      rw [hlist] at h
      cases h
      exact ⟨⟨rfl, rfl, rfl⟩, rfl⟩
  | some fs =>
      rw [hlist] at h
      dsimp only at h ⊢
      cases hfiles : populateFilesFromList env (destdir ++ bytesOf "/" ++ name ++ bytesOf "/")
          st.init fs with
      | error crash =>
          rw [hfiles] at h
          cases h
      | ok init =>
          rw [hfiles] at h
          cases h
          rw [populateFilesFromList_calls hfiles]
          exact ⟨⟨rfl, rfl, rfl⟩, rfl⟩

theorem infoEntry_len_of_ne {env : Environment} {destdir name : Bytes} {st st' : InfoEntries}
    {e : ByteString × BencodeValue} (hkey : e.1.bytes ≠ bytesOf "length")
    (h : infoEntry env destdir name st e = .ok st') : st'.len = st.len := by
  rw [infoEntry] at h
  dsimp only at h
  rw [if_neg hkey] at h
  split at h
  · split at h
    · cases h
      rfl
    · split at h <;> cases h
      rfl
  split at h
  · split at h <;> cases h <;> rfl
  split at h
  · split at h
    · cases h
      rfl
    · split at h <;> cases h
      rfl
  · cases h
    rfl

theorem infoEntry_len {env : Environment} {destdir name : Bytes} {st st' : InfoEntries}
    {e : ByteString × BencodeValue} (hkey : e.1.bytes = bytesOf "length") {n : Int64}
    (hn : e.2.asInt = some n) (h : infoEntry env destdir name st e = .ok st') :
    st'.len = n.toUInt64.toUInt32 := by
  rw [infoEntry] at h
  dsimp only at h
  rw [if_neg (by rw [hkey]; decide), if_neg (by rw [hkey]; decide), if_pos hkey, hn] at h
  cases h
  rfl

theorem infoEntry_calls {env : Environment} {destdir name : Bytes} {st st' : InfoEntries}
    {e : ByteString × BencodeValue} (h : infoEntry env destdir name st e = .ok st') :
    SameFiles st'.init
      (openFiles env st.init ((entryCalls destdir name e).filterMap FileCall.request?)) := by
  by_cases hkey : e.1.bytes = bytesOf "files"
  · exact (infoEntry_files hkey h).1
  · rw [entryCalls, if_neg hkey]
    exact (infoEntry_other hkey h).1

/-- **The files are those of the calls.** When `populate_info_from_dict` comes
back, it has opened the files that its calls of `create_and_open` ask for. -/
theorem populateInfoFromDict_calls {env : Environment} {destdir : Bytes} {init : Initialisation}
    {info : DictMap} {r : Bool × Initialisation}
    (h : populateInfoFromDict env destdir init info = .ok r) :
    SameFiles r.2
      (openFiles env init ((infoCalls env destdir init info).filterMap FileCall.request?)) := by
  rw [populateInfoFromDict] at h
  rw [infoCalls]
  generalize fileName [] info = name at h ⊢
  have hentries : ∀ (st : InfoEntries) (es : DictMap) (st' : InfoEntries),
      run (infoEntry env destdir name) st es = .ok st' → SameFiles
        (if st'.multifile then st'.init
          else (openFile env st'.init (destdir ++ bytesOf "/" ++ name) st'.len).2)
        (openFiles env st.init
          ((entriesCalls env destdir name st es).filterMap FileCall.request?)) := by
    intro st es
    induction es generalizing st with
    | nil =>
        rintro st' ⟨⟩
        rw [entriesCalls]
        split
        · exact ⟨rfl, rfl, rfl⟩
        · exact ⟨rfl, rfl, rfl⟩
    | cons e es ih =>
        intro st' hrun
        obtain ⟨mid, hstep, hrest⟩ := (run_cons_eq_ok _).mp hrun
        have hfiles := ih mid st' hrest
        rw [entriesCalls, hstep, List.filterMap_append, openFiles_append]
        exact hfiles.trans ((infoEntry_calls hstep).openFiles env _)
  split at h
  · cases h
  · rename_i st hrun
    have hfiles := hentries _ _ _ hrun
    split at h
    · rename_i hmulti
      cases h
      rwa [if_pos hmulti] at hfiles
    · rename_i hsingle
      cases h
      rwa [if_neg hsingle] at hfiles

end Daobell
