import Daobell.Lib.Paths
import Daobell.Torrent.Storage

/-!
Where the calls to the file system lead. Every path is the destination, a slash
and a path that the metainfo alone decides: the name of the torrent or, in a
torrent of many files, that name and the first names of a file. Nobody looks at
these names, and so a path leads below the destination exactly when its own
slashes and dots do not lead out.
-/

namespace Daobell

open Lib

/-! ### Paths -/

def slash : UInt8 := '/'.toUInt8

def dot : UInt8 := '.'.toUInt8

/-- Where a path leads to: from the root when it begins with a slash, otherwise
from the working directory. -/
def locate (cwd : List Bytes) (path : Bytes) : List Bytes :=
  walk (if path.head? = some slash then [] else cwd) (pathSteps slash dot path)

def FileCall.Contained (cwd : List Bytes) (destdir : Bytes) (call : FileCall) : Prop :=
  Below (locate cwd (cStr destdir)) (locate cwd (cStr call.path))

instance (cwd : List Bytes) (destdir : Bytes) (call : FileCall) :
    Decidable (call.Contained cwd destdir) :=
  inferInstanceAs (Decidable (Below _ _))

theorem locate_append (cwd : List Bytes) (path rest : Bytes) :
    locate cwd (path ++ bytesOf "/" ++ rest) =
      walk (locate cwd (path ++ bytesOf "/")) (pathSteps slash dot rest) := by
  have hslash : bytesOf "/" = [slash] := rfl
  have hhead : ∀ rest : Bytes, (path ++ [slash] ++ rest).head? = (path ++ [slash]).head? := by
    intro rest
    cases path <;> rfl
  have hsteps : ∀ rest : Bytes, pathSteps slash dot (path ++ [slash] ++ rest) =
      pathSteps slash dot path ++ pathSteps slash dot rest := by
    intro rest
    rw [List.append_assoc, List.singleton_append, pathSteps_append]
  have hend := hsteps []
  rw [List.append_nil] at hend
  rw [hslash, locate, locate, hhead, hsteps, hend, walk_append, walk_append]
  rfl

/-- With a slash behind it a path leads to the same place, only that the empty
one then is the root. -/
theorem locate_slash (cwd : List Bytes) (path : Bytes) :
    locate cwd (path ++ bytesOf "/") = if path = [] then [] else locate cwd path := by
  cases path with
  | nil => rfl
  | cons b path =>
      have hslash : bytesOf "/" = [slash] := rfl
      rw [if_neg (List.cons_ne_nil b path), locate, locate, hslash, pathSteps_append, walk_append]
      rfl

/-! ### What the metainfo asks for -/

/-- The paths of the loop over `files`, and then `rest`. -/
def listPaths (base : Bytes) (rest : List Bytes) : List BencodeValue → List Bytes
  | [] => rest
  | f :: fs =>
      entryDirs base ((f.asDict).getD []) ++
        match fileEntries (0, base) ((f.asDict).getD []) with
        | .error _ => []
        | .ok (_, path) => path :: listPaths base rest fs

/-- The paths that an info dictionary asks for, as seen from the destination,
when `torrent` has the pieces read before. -/
def infoPaths (name : Bytes) : TorrentInfo → Bool → DictMap → List Bytes
  | _, multifile, [] => if multifile then [] else [name]
  | torrent, multifile, e :: es =>
      if e.1.bytes = bytesOf "pieces" then
        match e.2.asString with
        | none => infoPaths name torrent multifile es
        | some s =>
            match createPiecesVector s torrent with
            | .error _ => []
            | .ok torrent => infoPaths name torrent multifile es
      else if e.1.bytes = bytesOf "files" then
        match e.2.asList with
        | none => infoPaths name torrent true es
        | some fs => name :: listPaths (name ++ bytesOf "/") (infoPaths name torrent true es) fs
      else infoPaths name torrent multifile es

theorem pathDirs_append (base path : Bytes) (ps : List BencodeValue) :
    pathDirs (base ++ path) ps = (pathDirs path ps).map (base ++ ·) := by
  induction ps generalizing path with
  | nil => rfl
  | cons p ps ih =>
      rw [pathDirs, pathDirs]
      cases p.asString with
      | none => rfl
      | some s =>
          dsimp only
          split
          · rfl
          · rw [List.map_cons, ← ih]
            simp only [List.append_assoc]

theorem appendPath_append (base path : Bytes) (ps : List BencodeValue) :
    appendPath (base ++ path) ps = (appendPath path ps).map (base ++ ·) := by
  induction ps generalizing path with
  | nil => rfl
  | cons p ps ih =>
      rw [appendPath, appendPath]
      cases p.asString with
      | none => rfl
      | some s =>
          dsimp only
          rw [← ih]
          simp only [List.append_assoc]

theorem fileEntries_append (base path : Bytes) (len : UInt32) (es : DictMap) :
    fileEntries (len, base ++ path) es =
      (fileEntries (len, path) es).map fun file => (file.1, base ++ file.2) := by
  induction es generalizing len path with
  | nil => rfl
  | cons e es ih =>
      obtain ⟨key, value⟩ := e
      rw [fileEntries, fileEntries]
      split
      · cases value.asInt with
        | none => rfl
        | some n => exact ih _ _
      split
      · cases value.asList with
        | none => rfl
        | some ps =>
            dsimp only
            rw [appendPath_append]
            cases appendPath path ps with
            | error crash => rfl
            | ok path => exact ih _ _
      · exact ih _ _

theorem entryDirs_append (base path : Bytes) (es : DictMap) :
    entryDirs (base ++ path) es = (entryDirs path es).map (base ++ ·) := by
  induction es generalizing path with
  | nil => rfl
  | cons e es ih =>
      obtain ⟨key, value⟩ := e
      rw [entryDirs, entryDirs]
      split
      · cases value.asInt with
        | none => rfl
        | some n => exact ih _
      split
      · cases value.asList with
        | none => rfl
        | some ps =>
            dsimp only
            rw [pathDirs_append, appendPath_append, List.map_append]
            cases appendPath path ps with
            | error crash => rfl
            | ok path => exact congrArg _ (ih _)
      · exact ih _

theorem openFile_pieces (env : Environment) (init : Initialisation) (path : Bytes) (size : UInt32) :
    (openFile env init path size).2.torrent.pieces = init.torrent.pieces := by
  rw [openFile]
  dsimp only
  split <;> rfl

/-- The loop over `files` asks for `listPaths`. -/
theorem filesCalls_paths (env : Environment) (base path : Bytes) (rest : List Bytes)
    (next : Initialisation → List FileCall) (init : Initialisation) (fs : List BencodeValue)
    (hnext : ∀ init', init'.torrent.pieces = init.torrent.pieces →
      (next init').map FileCall.path = rest.map (base ++ ·)) :
    (filesCalls (base ++ path) fs ++
        match populateFilesFromList env (base ++ path) init fs with
        | .error _ => []
        | .ok init' => next init').map FileCall.path =
      (listPaths path rest fs).map (base ++ ·) := by
  induction fs generalizing init with
  | nil => exact hnext init rfl
  | cons f fs ih =>
      rw [filesCalls, populateFilesFromList, listPaths, entryDirs_append, fileEntries_append]
      cases fileEntries (0, path) ((f.asDict).getD []) with
      | error crash =>
          simp [Except.map, Function.comp_def, FileCall.path]
      | ok file =>
          have hrest := ih (openFile env init (base ++ file.2) file.1).2
            fun init' h => hnext init' (h.trans (openFile_pieces env init _ _))
          simp only [Except.map, List.map_append, List.map_map, List.append_assoc,
            List.cons_append, List.map_cons, FileCall.path, Function.comp_def] at hrest ⊢
          rw [hrest]

theorem createPiecesVector_congr {a b : TorrentInfo} (h : a.pieces = b.pieces) (s : ByteString) :
    (createPiecesVector s a).map TorrentInfo.pieces =
      (createPiecesVector s b).map TorrentInfo.pieces := by
  simp only [createPiecesVector, h]
  split
  · split
    · rfl
    split
    · split <;> rfl
    · rfl
  · rfl

theorem infoEntry_rest (env : Environment) (destdir name : Bytes) (st : InfoEntries)
    {e : ByteString × BencodeValue} (hpieces : e.1.bytes ≠ bytesOf "pieces")
    (hfiles : e.1.bytes ≠ bytesOf "files") :
    ∃ st', infoEntry env destdir name st e = .ok st' ∧
      st'.init.torrent.pieces = st.init.torrent.pieces ∧ st'.multifile = st.multifile := by
  rw [infoEntry]
  dsimp only
  rw [if_neg hpieces, if_neg hfiles]
  split
  · split <;> exact ⟨_, rfl, rfl, rfl⟩
  split
  · split <;> exact ⟨_, rfl, rfl, rfl⟩
  · exact ⟨_, rfl, rfl, rfl⟩

theorem entriesCalls_paths (env : Environment) (destdir name : Bytes) (st : InfoEntries)
    {torrent : TorrentInfo} (es : DictMap) (hpieces : st.init.torrent.pieces = torrent.pieces) :
    (entriesCalls env destdir name st es).map FileCall.path =
      (infoPaths name torrent st.multifile es).map (destdir ++ bytesOf "/" ++ ·) := by
  induction es generalizing st torrent with
  | nil =>
      rw [entriesCalls, infoPaths]
      split <;> rfl
  | cons e es ih =>
      rw [entriesCalls, infoPaths]
      by_cases hkey : e.1.bytes = bytesOf "pieces"
      · have hfiles : e.1.bytes ≠ bytesOf "files" := by
          rw [hkey]
          decide
        rw [entryCalls, if_neg hfiles, infoEntry, if_pos hkey, List.nil_append]
        dsimp only
        rw [if_pos hkey]
        cases e.2.asString with
        | none => exact ih st hpieces
        | some s =>
            have hcongr := createPiecesVector_congr hpieces s
            dsimp only
            cases hst : createPiecesVector s st.init.torrent with
            | error crash =>
                rw [hst] at hcongr
                cases htorrent : createPiecesVector s torrent with
                | error crash => rfl
                | ok torrent' =>
                    rw [htorrent] at hcongr
                    cases hcongr
            | ok read =>
                rw [hst] at hcongr
                cases htorrent : createPiecesVector s torrent with
                | error crash =>
                    rw [htorrent] at hcongr
                    cases hcongr
                | ok torrent' =>
                    rw [htorrent] at hcongr
                    exact ih _ (Except.ok.inj hcongr)
      rw [if_neg hkey]
      by_cases hfiles : e.1.bytes = bytesOf "files"
      · rw [entryCalls, if_pos hfiles, if_pos hfiles, infoEntry]
        dsimp only
        rw [if_neg hkey, if_neg (by rw [hfiles]; decide), if_neg (by rw [hfiles]; decide),
          if_pos hfiles]
        cases e.2.asList with
        | none => exact ih { st with multifile := true } hpieces
        | some fs =>
            have hlist := filesCalls_paths env (destdir ++ bytesOf "/") (name ++ bytesOf "/")
              (infoPaths name torrent true es)
              (fun init => entriesCalls env destdir name ⟨init, true, st.len⟩ es) st.init fs
              fun init' h => ih ⟨init', true, st.len⟩ (h.trans hpieces)
            rw [← List.append_assoc (destdir ++ bytesOf "/") name] at hlist
            dsimp only
            rw [populateFilesCalls, List.cons_append, List.map_cons, List.map_cons, ← hlist]
            cases populateFilesFromList env (destdir ++ bytesOf "/" ++ name ++ bytesOf "/") st.init
              fs <;> rfl
      · obtain ⟨st', hst, hpieces', hmulti⟩ :=
          infoEntry_rest env destdir name st hkey hfiles
        rw [entryCalls, if_neg hfiles, if_neg hfiles, hst, List.nil_append, ← hmulti]
        exact ih st' (hpieces'.trans hpieces)

/-- Every path is the destination, a slash and a path that the metainfo asks
for. -/
theorem infoCalls_paths (env : Environment) (destdir : Bytes) (init : Initialisation)
    (info : DictMap) :
    (infoCalls env destdir init info).map FileCall.path =
      (infoPaths (fileName [] info) init.torrent false info).map (destdir ++ bytesOf "/" ++ ·) :=
  entriesCalls_paths env destdir _ ⟨init, false, 0⟩ info rfl

theorem forall_infoCalls_iff {env : Environment} {destdir : Bytes} {init : Initialisation}
    {info : DictMap} (P : Bytes → Prop) :
    (∀ call ∈ infoCalls env destdir init info, P call.path) ↔
      ∀ rel ∈ infoPaths (fileName [] info) init.torrent false info,
        P (destdir ++ bytesOf "/" ++ rel) := by
  calc (∀ call ∈ infoCalls env destdir init info, P call.path)
      ↔ ∀ path ∈ (infoCalls env destdir init info).map FileCall.path, P path :=
        List.forall_mem_map.symm
    _ ↔ ∀ rel ∈ infoPaths (fileName [] info) init.torrent false info,
          P (destdir ++ bytesOf "/" ++ rel) := by
        rw [infoCalls_paths, List.forall_mem_map]

/-! ### When they stay below the destination -/

/-- How many levels there are to climb from the destination. A path behind an
empty destination begins at the root. -/
def depth (cwd : List Bytes) (destdir : Bytes) : ℕ :=
  if destdir = [] then 0 else (locate cwd destdir).length

/-- A path of the metainfo goes down below the destination again: it may climb
out of it, but then goes back the same way and further. -/
def LeadsBelow (cwd : List Bytes) (destdir rel : Bytes) : Prop :=
  (0 : UInt8) ∉ destdir ∧
    Below ((locate cwd destdir).drop
        (depth cwd destdir - (collapse (pathSteps slash dot (cStr rel))).climbs))
      (collapse (pathSteps slash dot (cStr rel))).names

instance (cwd : List Bytes) (destdir rel : Bytes) : Decidable (LeadsBelow cwd destdir rel) :=
  inferInstanceAs (Decidable (_ ∧ _))

theorem below_locate_iff (cwd : List Bytes) (destdir rel : Bytes) :
    Below (locate cwd (cStr destdir)) (locate cwd (cStr (destdir ++ bytesOf "/" ++ rel))) ↔
      LeadsBelow cwd destdir rel := by
  by_cases hnul : (0 : UInt8) ∈ destdir
  · rw [List.append_assoc, cStr_append_of_mem hnul]
    exact iff_of_false (fun h => h.2 rfl) fun h => h.1 hnul
  have hnul' : (0 : UInt8) ∉ destdir ++ bytesOf "/" := by
    rw [List.mem_append, not_or]
    exact ⟨hnul, by decide⟩
  have hprefix : locate cwd (destdir ++ bytesOf "/") <+: locate cwd destdir := by
    rw [locate_slash]
    split
    · exact List.nil_prefix
    · exact List.prefix_rfl
  have hdepth : (locate cwd (destdir ++ bytesOf "/")).length = depth cwd destdir := by
    rw [locate_slash, depth]
    split <;> rfl
  rw [cStr_eq_self hnul, cStr_append hnul', locate_append, walk_eq, below_move_iff hprefix, hdepth,
    LeadsBelow, and_iff_right hnul]

/-- **Containment.** All calls of `populate_info_from_dict` and
`populate_files_from_list` are made strictly below the destination exactly when
every path of the metainfo leads below it. -/
theorem infoCalls_contained_iff (env : Environment) (cwd : List Bytes) (destdir : Bytes)
    (init : Initialisation) (info : DictMap) :
    (∀ call ∈ infoCalls env destdir init info, call.Contained cwd destdir) ↔
      ∀ rel ∈ infoPaths (fileName [] info) init.torrent false info, LeadsBelow cwd destdir rel := by
  refine (forall_infoCalls_iff fun path => Below (locate cwd (cStr destdir))
    (locate cwd (cStr path))).trans ?_
  simp only [below_locate_iff]

def dots : ByteString := ⟨bytesOf "..", by decide⟩

def climbingInfo : DictMap :=
  [(filesKey, .bencodeList [.bencodeDict
      [(lengthKey, .bencodeInt 1),
        (pathKey, .bencodeList
          [.bencodeString dots, .bencodeString dots,
            .bencodeString (letter 'x'.toUInt8)])]]),
    (nameKey, .bencodeString (letter 'n'.toUInt8))]

/-- Below `/d` the file `/x` is created. -/
theorem infoCalls_escape :
    .createAndOpen (bytesOf "/d/n/../../x") 1 ∈ infoCalls (opening fun _ => true) (bytesOf "/d")
        (newTorrent fun _ => true) climbingInfo ∧
      locate [] (bytesOf "/d/n/../../x") = [bytesOf "x"] ∧
      ¬ ∀ call ∈ infoCalls (opening fun _ => true) (bytesOf "/d") (newTorrent fun _ => true)
        climbingInfo, call.Contained [] (bytesOf "/d") := by
  decide +kernel

/-! ### Names that are only names -/

/-- A name without slashes and NUL that is not empty and not made of dots. -/
structure PlainBytes (name : Bytes) : Prop extends PlainName slash dot name where
  nul_notMem : (0 : UInt8) ∉ name

def joinNames (name : Bytes) (names : List ByteString) : Bytes :=
  name ++ bytesOf "/" ++ (bytesOf "/").intercalate (names.map ByteString.bytes)

theorem leadsBelow_of_collapse {cwd : List Bytes} {destdir rel : Bytes} (hdest : destdir ≠ [])
    (hnul : (0 : UInt8) ∉ destdir) {names : List Bytes} (hne : names ≠ [])
    (h : collapse (pathSteps slash dot (cStr rel)) = ⟨0, names⟩) : LeadsBelow cwd destdir rel := by
  refine ⟨hnul, ?_⟩
  rw [h, depth, if_neg hdest, Nat.sub_zero, List.drop_length, below_nil_iff]
  exact hne

theorem leadsBelow_name (cwd : List Bytes) {destdir name : Bytes} (hdest : destdir ≠ [])
    (hnul : (0 : UInt8) ∉ destdir) (hname : PlainBytes name) : LeadsBelow cwd destdir name := by
  apply leadsBelow_of_collapse hdest hnul (List.cons_ne_nil name [])
  rw [cStr_eq_self hname.nul_notMem, hname.toPlainName.pathSteps, ← List.map_singleton,
    collapse_down]

theorem notMem_intercalate {b : UInt8} {sep : Bytes} {names : List Bytes} (hsep : b ∉ sep)
    (hnames : ∀ n ∈ names, b ∉ n) : b ∉ sep.intercalate names := by
  induction names with
  | nil => exact List.not_mem_nil
  | cons n names ih =>
      have hn : b ∉ n := hnames n List.mem_cons_self
      have hrest := ih fun m hm => hnames m (List.mem_cons_of_mem n hm)
      cases names with
      | nil => rwa [List.intercalate_singleton]
      | cons m names =>
          rw [List.intercalate_cons_cons, List.mem_append, List.mem_append, not_or, not_or]
          exact ⟨⟨hn, hsep⟩, hrest⟩

theorem leadsBelow_joinNames (cwd : List Bytes) {destdir name : Bytes} (hdest : destdir ≠ [])
    (hnul : (0 : UInt8) ∉ destdir) (hname : PlainBytes name) {names : List ByteString}
    (hnames : ∀ n ∈ names, PlainBytes n.bytes) : LeadsBelow cwd destdir (joinNames name names) := by
  have hall : ∀ n ∈ name :: names.map ByteString.bytes, PlainBytes n := by
    simpa using ⟨hname, hnames⟩
  have hslash : (0 : UInt8) ∉ bytesOf "/" := by decide
  have hnul' : (0 : UInt8) ∉ joinNames name names := by
    have hrest : (0 : UInt8) ∉ (bytesOf "/").intercalate (names.map ByteString.bytes) :=
      notMem_intercalate hslash fun n hn => (hall n (List.mem_cons_of_mem name hn)).nul_notMem
    rw [joinNames, List.mem_append, List.mem_append, not_or, not_or]
    exact ⟨⟨hname.nul_notMem, hslash⟩, hrest⟩
  apply leadsBelow_of_collapse hdest hnul (List.cons_ne_nil name (names.map ByteString.bytes))
  rw [cStr_eq_self hnul', ← collapse_down]
  by_cases hnames : names.map ByteString.bytes = []
  · -- the slash at the end goes nowhere
    have hslash : bytesOf "/" = [slash] := rfl
    rw [joinNames, hnames, hslash, List.intercalate_nil, List.append_nil, pathSteps_append,
      hname.toPlainName.pathSteps]
    rfl
  · rw [← pathSteps_intercalate (fun n hn => (hall n hn).toPlainName) (List.cons_ne_nil _ _),
      List.intercalate_cons_of_ne_nil hnames]
    rfl

/-! ### The paths of declared files -/

theorem pathDirs_names {base dir : Bytes} {names : List ByteString}
    (h : dir ∈ pathDirs base (names.map .bencodeString)) :
    ∃ j, dir = base ++ (bytesOf "/").intercalate ((names.take (j + 1)).map ByteString.bytes) := by
  induction names generalizing base with
  | nil => cases h
  | cons n names ih =>
      rw [List.map_cons, pathDirs] at h
      simp only [BencodeValue.asString] at h
      split at h
      · cases h
      rename_i hlast
      rcases List.mem_cons.mp h with rfl | h
      · exact ⟨0, by simp⟩
      · obtain ⟨j, rfl⟩ := ih h
        have hne : (names.take (j + 1)).map ByteString.bytes ≠ [] := by
          cases names with
          | nil => exact absurd rfl hlast
          | cons m names => exact List.cons_ne_nil _ _
        refine ⟨j + 1, ?_⟩
        rw [List.take_succ_cons, List.map_cons, List.intercalate_cons_of_ne_nil hne]
        simp only [List.append_assoc]

theorem entryDirs_noPath (base : Bytes) {dict : DictMap} (h : valuesOf "path" dict = []) :
    entryDirs base dict = [] := by
  induction dict with
  | nil => rfl
  | cons e dict ih =>
      obtain ⟨key, value⟩ := e
      have hkey : key.bytes ≠ bytesOf "path" := by
        intro hkey
        rw [valuesOf_cons_eq hkey] at h
        cases h
      rw [valuesOf_cons_ne hkey] at h
      rw [entryDirs, if_neg hkey, ih h]
      split
      · cases value.asInt <;> rfl
      · rfl

theorem mem_entryDirs {base dir : Bytes} {dict : DictMap} {ps : List BencodeValue}
    (h : valuesOf "path" dict = [.bencodeList ps]) (hdir : dir ∈ entryDirs base dict) :
    dir ∈ pathDirs base ps := by
  induction dict with
  | nil => cases hdir
  | cons e dict ih =>
      obtain ⟨key, value⟩ := e
      rw [entryDirs] at hdir
      by_cases hpath : key.bytes = bytesOf "path"
      · rw [valuesOf_cons_eq hpath, List.cons.injEq] at h
        obtain ⟨rfl, hrest⟩ := h
        rw [if_neg (by rw [hpath]; decide), if_pos hpath] at hdir
        simp only [BencodeValue.asList, entryDirs_noPath _ hrest] at hdir
        cases happend : appendPath base ps with
        | error crash => simpa [happend] using hdir
        | ok path => simpa [happend] using hdir
      · rw [valuesOf_cons_ne hpath] at h
        rw [if_neg hpath] at hdir
        split at hdir
        · cases hvalue : value.asInt with
          | none => simp [hvalue] at hdir
          | some n =>
              rw [hvalue] at hdir
              exact ih h hdir
        · exact ih h hdir

/-- Every path of declared files is that of some names of one of them. -/
theorem mem_listPaths {name rel : Bytes} {rest : List Bytes} {fs : List BencodeValue}
    {ds : List DeclaredFile} (hforms : List.Forall₂ FileForm fs ds)
    (h : rel ∈ listPaths (name ++ bytesOf "/") rest fs) :
    (∃ d ∈ ds, ∃ j, rel = joinNames name (d.names.take j)) ∨ rel ∈ rest := by
  induction hforms with
  | nil => exact .inr h
  | @cons f d fs ds hform hforms ih =>
      obtain ⟨dict, rfl, hlength, hpath⟩ := hform
      have hentries := fileEntries_eq [d.length] [d.names] hlength hpath 0
        (name ++ bytesOf "/")
      simp only [listPaths, BencodeValue.asDict, Option.getD_some, hentries, List.flatMap_singleton]
        at h
      rcases List.mem_append.mp h with h | h
      · obtain ⟨j, rfl⟩ := pathDirs_names (mem_entryDirs hpath h)
        exact .inl ⟨d, List.mem_cons_self, j + 1, rfl⟩
      rcases List.mem_cons.mp h with rfl | h
      · refine .inl ⟨d, List.mem_cons_self, d.names.length, ?_⟩
        rw [List.take_length, joinNames]
      · refine (ih h).imp_left ?_
        rintro ⟨d', hd', j, rfl⟩
        exact ⟨d', List.mem_cons_of_mem d hd', j, rfl⟩

/-- The paths of an info dictionary: the name, and those of its `files`. -/
theorem mem_infoPaths {name rel : Bytes} {torrent : TorrentInfo} {multifile : Bool} {es : DictMap}
    {ds : List DeclaredFile}
    (hfiles : ∀ v ∈ valuesOf "files" es, ∃ fs, v = .bencodeList fs ∧ List.Forall₂ FileForm fs ds)
    (h : rel ∈ infoPaths name torrent multifile es) :
    rel = name ∨ ∃ d ∈ ds, ∃ j, rel = joinNames name (d.names.take j) := by
  induction es generalizing torrent multifile with
  | nil =>
      rw [infoPaths] at h
      split at h
      · cases h
      · exact .inl (List.mem_singleton.mp h)
  | cons e es ih =>
      have hrest : ∀ v ∈ valuesOf "files" es,
          ∃ fs, v = .bencodeList fs ∧ List.Forall₂ FileForm fs ds := by
        intro v hv
        refine hfiles v ?_
        by_cases hkey : e.1.bytes = bytesOf "files"
        · rw [valuesOf_cons_eq hkey]
          exact List.mem_cons_of_mem _ hv
        · rwa [valuesOf_cons_ne hkey]
      rw [infoPaths] at h
      split at h
      · split at h
        · exact ih hrest h
        · split at h
          · cases h
          · exact ih hrest h
      split at h
      · rename_i hkey
        have hvalue : e.2 ∈ valuesOf "files" (e :: es) := by
          rw [valuesOf_cons_eq hkey]
          exact List.mem_cons_self
        obtain ⟨fs, hlist, hforms⟩ := hfiles _ hvalue
        rw [hlist] at h
        simp only [BencodeValue.asList] at h
        rcases List.mem_cons.mp h with rfl | h
        · exact .inl rfl
        · rcases mem_listPaths hforms h with h | h
          · exact .inr h
          · exact ih hrest h
      · exact ih hrest h

/-- **Plain names stay inside.** Where the names in the metainfo are plain, all
calls are made strictly below a destination that has a name. -/
theorem infoCalls_contained_of_plain (env : Environment) (cwd : List Bytes) {destdir : Bytes}
    (hdest : destdir ≠ []) (hnul : (0 : UInt8) ∉ destdir) (init : Initialisation) {info : DictMap}
    {ds : List DeclaredFile} (hname : PlainBytes (fileName [] info))
    (hfiles : ∀ v ∈ valuesOf "files" info, ∃ fs, v = .bencodeList fs ∧ List.Forall₂ FileForm fs ds)
    (hplain : ∀ d ∈ ds, ∀ n ∈ d.names, PlainBytes n.bytes) :
    ∀ call ∈ infoCalls env destdir init info, call.Contained cwd destdir := by
  apply (forall_infoCalls_iff fun path => Below (locate cwd (cStr destdir))
    (locate cwd (cStr path))).mpr
  intro rel hrel
  rw [below_locate_iff]
  rcases mem_infoPaths hfiles hrel with rfl | ⟨d, hd, j, rfl⟩
  · exact leadsBelow_name cwd hdest hnul hname
  · exact leadsBelow_joinNames cwd hdest hnul hname fun n hn =>
      hplain d hd n (List.mem_of_mem_take hn)

end Daobell
