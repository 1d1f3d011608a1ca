import Daobell.Torrent.FileCalls
import Daobell.Torrent.InfoSpec

/-!
From the metainfo to the files. A file is left out when it cannot be created,
and its length is cut down to 32 bits on the way, and in a torrent of many files
neither is an error. So the files are laid out as declared exactly when every
file with something in it can be created and has a length of 32 bits.
-/

namespace Daobell

open Lib

/-! ### What is declared -/

structure DeclaredFile where
  names : List ByteString
  length : Int64
  nonneg : 0 ≤ length

def DeclaredFile.size (d : DeclaredFile) : ℕ := d.length.toNatClampNeg

/-- The path of the file from `base` on: its names with slashes between. -/
def DeclaredFile.pathFrom (base : Bytes) (d : DeclaredFile) : Bytes :=
  base ++ (bytesOf "/").intercalate (d.names.map ByteString.bytes)

/-- A dictionary of `files`: one length and one path. -/
def FileForm (f : BencodeValue) (d : DeclaredFile) : Prop :=
  ∃ dict, f = .bencodeDict dict ∧ valuesOf "length" dict = [.bencodeInt d.length] ∧
    valuesOf "path" dict = [.bencodeList (d.names.map .bencodeString)]

def MultiFile (info : DictMap) (ds : List DeclaredFile) : Prop :=
  ∃ fs, valuesOf "files" info = [.bencodeList fs] ∧ List.Forall₂ FileForm fs ds

def SingleFile (info : DictMap) (length : Int64) : Prop :=
  0 ≤ length ∧ valuesOf "files" info = [] ∧ valuesOf "length" info = [.bencodeInt length]

/-- What `unsigned` makes of a length. -/
theorem toUInt32_length {length : Int64} (h : 0 ≤ length) :
    length.toUInt64.toUInt32 = UInt32.ofNat length.toNatClampNeg := by
  rw [← UInt32.toNat_inj, UInt64.toNat_toUInt32, Int64.toNat_toUInt64_of_le h, UInt32.toNat_ofNat']

theorem appendPath_names (path : Bytes) (names : List ByteString) :
    appendPath path (names.map .bencodeString) =
      .ok (path ++ (bytesOf "/").intercalate (names.map ByteString.bytes)) := by
  induction names generalizing path with
  | nil => simp [appendPath]
  | cons name names ih =>
      cases names with
      | nil => simp [appendPath, BencodeValue.asString]
      | cons next names =>
          rw [List.map_cons, appendPath]
          simp only [BencodeValue.asString]
          rw [if_neg (by simp), ih]
          simp [List.intercalate]

theorem fileEntries_eq {dict : DictMap} (lengths : List Int64) (paths : List (List ByteString))
    (hlengths : valuesOf "length" dict = lengths.map .bencodeInt)
    (hpaths : valuesOf "path" dict = paths.map fun names => .bencodeList (names.map .bencodeString))
    (len : UInt32) (path : Bytes) :
    fileEntries (len, path) dict =
      .ok ((lengths.map fun length => length.toUInt64.toUInt32).getLastD len,
        path ++ paths.flatMap fun names =>
          (bytesOf "/").intercalate (names.map ByteString.bytes)) := by
  induction dict generalizing lengths paths len path with
  | nil =>
      cases lengths with
      | nil =>
          cases paths with
          | nil => simp [fileEntries]
          | cons _ _ => cases hpaths
      | cons _ _ => cases hlengths
  | cons e dict ih =>
      obtain ⟨key, value⟩ := e
      rw [fileEntries]
      by_cases hlength : key.bytes = bytesOf "length"
      · have hpath : key.bytes ≠ bytesOf "path" := by
          rw [hlength]
          decide
        rw [valuesOf_cons_eq hlength] at hlengths
        rw [valuesOf_cons_ne hpath] at hpaths
        cases lengths with
        | nil => cases hlengths
        | cons length lengths =>
            rw [List.map_cons, List.cons.injEq] at hlengths
            obtain ⟨rfl, hlengths⟩ := hlengths
            rw [if_pos hlength]
            simp only [BencodeValue.asInt]
            rw [ih lengths paths hlengths hpaths, List.map_cons, List.getLastD_cons]
      rw [valuesOf_cons_ne hlength] at hlengths
      rw [if_neg hlength]
      by_cases hpath : key.bytes = bytesOf "path"
      · rw [valuesOf_cons_eq hpath] at hpaths
        cases paths with
        | nil => cases hpaths
        | cons names paths =>
            rw [List.map_cons, List.cons.injEq] at hpaths
            obtain ⟨rfl, hpaths⟩ := hpaths
            rw [if_pos hpath]
            simp only [BencodeValue.asList, appendPath_names]
            rw [ih lengths paths hlengths hpaths, List.flatMap_cons, List.append_assoc]
      · rw [valuesOf_cons_ne hpath] at hpaths
        rw [if_neg hpath]
        exact ih lengths paths hlengths hpaths len path

def DeclaredFile.request (base : Bytes) (d : DeclaredFile) : Bytes × UInt32 :=
  (d.pathFrom base, UInt32.ofNat d.size)

theorem filesCalls_requests (base : Bytes) {fs : List BencodeValue} {ds : List DeclaredFile}
    (h : List.Forall₂ FileForm fs ds) :
    (filesCalls base fs).filterMap FileCall.request? = ds.map (DeclaredFile.request base) := by
  induction h with
  | nil => rfl
  | @cons f d fs ds hform hforms ih =>
      obtain ⟨dict, rfl, hlength, hpath⟩ := hform
      have hentries := fileEntries_eq [d.length] [d.names] hlength hpath 0 base
      rw [filesCalls, List.filterMap_append, filterMap_request?_mkdir, List.nil_append]
      simp only [BencodeValue.asDict, Option.getD_some, hentries]
      rw [List.filterMap_cons]
      simp only [FileCall.request?, ih, List.map_cons]
      simp [DeclaredFile.request, DeclaredFile.pathFrom, DeclaredFile.size, toUInt32_length d.nonneg]

/-! ### What is opened -/

def Initialisation.sizes (init : Initialisation) : List ℕ :=
  init.torrent.files.map fun f => f.size.toNat

theorem SameFiles.sizes {init init' : Initialisation} (h : SameFiles init init') :
    init.sizes = init'.sizes := by
  rw [Initialisation.sizes, h.files, Initialisation.sizes]

/-- `create_and_open` succeeds on the next file. -/
def Opens (env : Environment) (init : Initialisation) (path : Bytes) (size : UInt32) : Prop :=
  0 < size.toNat ∧ init.torrent.files.length + 1 < 2 ^ 31 ∧
    env.createAndOpen init.tried path size = true

instance (env : Environment) (init : Initialisation) (path : Bytes) (size : UInt32) :
    Decidable (Opens env init path size) :=
  inferInstanceAs (Decidable (_ ∧ _ ∧ _))

section

variable {env : Environment} {init : Initialisation} {path : Bytes} {size : UInt32}

theorem openFile_opens (h : Opens env init path size) :
    (openFile env init path size).1 = true ∧
      (openFile env init path size).2.sizes = init.sizes ++ [size.toNat] ∧
      (openFile env init path size).2.tried = init.tried + 1 := by
  have hopens : 0 < size.toNat ∧ init.torrent.files.length + 1 < 2 ^ 31 ∧
      env.createAndOpen init.tried path size = true := h
  simp only [openFile, Initialisation.sizes]
  rw [dif_pos hopens]
  exact ⟨rfl, List.map_append, rfl⟩

theorem openFile_fails (h : ¬ Opens env init path size) :
    openFile env init path size = (false, { init with tried := init.tried + 1 }) :=
  dif_neg h

end

/-- Every file with something in it can be created, and has a length of 32 bits. -/
def AllOpen (env : Environment) (base : Bytes) : ℕ → List DeclaredFile → Prop
  | _, [] => True
  | tried, d :: ds =>
      (d.size ≠ 0 → d.size < 2 ^ 32 ∧
        env.createAndOpen tried (d.pathFrom base) (UInt32.ofNat d.size) = true) ∧
        AllOpen env base (tried + 1) ds

def declaredSizes (ds : List DeclaredFile) : List ℕ :=
  (ds.map DeclaredFile.size).filter (· ≠ 0)

theorem declaredSizes_cons (d : DeclaredFile) (ds : List DeclaredFile) :
    declaredSizes (d :: ds) = if d.size = 0 then declaredSizes ds else d.size :: declaredSizes ds := by
  by_cases h : d.size = 0 <;> simp [declaredSizes, h]

theorem toNat_request (base : Bytes) (d : DeclaredFile) :
    (d.request base).2.toNat = d.size % 2 ^ 32 := UInt32.toNat_ofNat'

theorem ne_zero_of_opens {env : Environment} {base : Bytes} {init : Initialisation}
    {d : DeclaredFile} (h : Opens env init (d.request base).1 (d.request base).2) :
    d.size ≠ 0 := by
  intro h0
  have hpos := h.1
  rw [toNat_request, h0] at hpos
  exact absurd hpos (by decide)

theorem exists_openFiles_append (env : Environment) (base : Bytes) (init : Initialisation)
    (ds : List DeclaredFile) :
    ∃ new, (openFiles env init (ds.map (DeclaredFile.request base))).sizes = init.sizes ++ new ∧
      new.length ≤ (declaredSizes ds).length := by
  induction ds generalizing init with
  | nil => exact ⟨[], by simp, Nat.zero_le _⟩
  | cons d ds ih =>
      rw [List.map_cons, openFiles_cons, declaredSizes_cons]
      obtain ⟨new, hnew, hle⟩ :=
        ih (openFile env init (d.request base).1 (d.request base).2).2
      by_cases hopens : Opens env init (d.request base).1 (d.request base).2
      · obtain ⟨-, hsizes, -⟩ := openFile_opens hopens
        rw [hsizes, List.append_assoc] at hnew
        refine ⟨_, hnew, ?_⟩
        rw [if_neg (ne_zero_of_opens hopens)]
        simpa using hle
      · rw [openFile_fails hopens] at hnew ⊢
        refine ⟨new, hnew, hle.trans ?_⟩
        split
        · exact le_rfl
        · exact Nat.le_succ _

section

variable {env : Environment} {base : Bytes} {init : Initialisation} {d : DeclaredFile}

/-- A file that is opened has its declared length when that has 32 bits. -/
theorem sizes_cons_of_opens (ds : List DeclaredFile)
    (h : Opens env init (d.request base).1 (d.request base).2) :
    (openFiles env init ((d :: ds).map (DeclaredFile.request base))).sizes =
        init.sizes ++ declaredSizes (d :: ds) ↔
      d.size < 2 ^ 32 ∧
        (openFiles env (openFile env init (d.request base).1 (d.request base).2).2
            (ds.map (DeclaredFile.request base))).sizes =
          (openFile env init (d.request base).1 (d.request base).2).2.sizes ++ declaredSizes ds := by
  obtain ⟨-, hsizes, -⟩ := openFile_opens h
  obtain ⟨new, hnew, -⟩ := exists_openFiles_append env base
    (openFile env init (d.request base).1 (d.request base).2).2 ds
  rw [toNat_request] at hsizes
  rw [List.map_cons, openFiles_cons, declaredSizes_cons, if_neg (ne_zero_of_opens h), hnew, hsizes,
    List.append_assoc, List.append_assoc, List.append_cancel_left_eq, List.singleton_append,
    List.singleton_append, List.append_cancel_left_eq, List.cons.injEq, List.cons.injEq,
    Nat.mod_eq_iff_lt (by decide)]
  exact and_congr_right fun _ => (and_iff_right rfl).symm

theorem sizes_cons_of_fails (ds : List DeclaredFile)
    (h : ¬ Opens env init (d.request base).1 (d.request base).2) :
    (openFiles env init ((d :: ds).map (DeclaredFile.request base))).sizes =
        init.sizes ++ declaredSizes (d :: ds) ↔
      d.size = 0 ∧
        (openFiles env { init with tried := init.tried + 1 }
            (ds.map (DeclaredFile.request base))).sizes =
          init.sizes ++ declaredSizes ds := by
  obtain ⟨new, hnew, hle⟩ := exists_openFiles_append env base { init with tried := init.tried + 1 } ds
  have hsame : Initialisation.sizes { init with tried := init.tried + 1 } = init.sizes := rfl
  rw [List.map_cons, openFiles_cons, openFile_fails h, declaredSizes_cons]
  by_cases h0 : d.size = 0
  · rw [if_pos h0, and_iff_right h0]
  · rw [if_neg h0]
    refine iff_of_false (fun heq => ?_) fun hsizes => h0 hsizes.1
    -- one file too few is left
    rw [hnew, hsame, List.append_cancel_left_eq] at heq
    rw [heq, List.length_cons] at hle
    omega

/-- **Opening the files.** The sizes are the declared lengths without the zeros
exactly when every file with something in it is opened with its whole length. -/
theorem sizes_openFiles_iff (env : Environment) (base : Bytes) (init : Initialisation)
    (ds : List DeclaredFile) :
    (openFiles env init (ds.map (DeclaredFile.request base))).sizes =
        init.sizes ++ declaredSizes ds ↔
      AllOpen env base init.tried ds ∧
        init.torrent.files.length + (declaredSizes ds).length < 2 ^ 31 := by
  induction ds generalizing init with
  | nil => simpa [AllOpen, declaredSizes] using init.torrent.files_lt
  | cons d ds ih =>
      rw [AllOpen]
      by_cases hopens : Opens env init (d.request base).1 (d.request base).2
      · obtain ⟨-, hsizes, htried⟩ := openFile_opens hopens
        have hne := ne_zero_of_opens hopens
        have hlen := congrArg List.length hsizes
        simp only [Initialisation.sizes, List.length_map, List.length_append, List.length_singleton]
          at hlen
        rw [sizes_cons_of_opens ds hopens, ih, htried, hlen, declaredSizes_cons, if_neg hne,
          List.length_cons, Nat.add_right_comm, Nat.add_assoc _ _ 1, and_assoc]
        exact and_congr_left' ⟨fun h32 _ => ⟨h32, hopens.2.2⟩, fun h => (h hne).1⟩
      · rw [sizes_cons_of_fails ds hopens]
        by_cases h0 : d.size = 0
        · have hhead : d.size ≠ 0 → d.size < 2 ^ 32 ∧
              env.createAndOpen init.tried (d.pathFrom base) (UInt32.ofNat d.size) = true :=
            fun hne => absurd h0 hne
          rw [and_iff_right h0, and_iff_right hhead, declaredSizes_cons, if_pos h0]
          exact ih { init with tried := init.tried + 1 }
        · refine iff_of_false (fun h => h0 h.1) fun ⟨⟨hhead, _⟩, hbound⟩ => hopens ?_
          obtain ⟨h32, hcreate⟩ := hhead h0
          rw [declaredSizes_cons, if_neg h0, List.length_cons] at hbound
          refine ⟨?_, by omega, hcreate⟩
          rw [toNat_request, Nat.mod_eq_of_lt h32]
          exact Nat.pos_of_ne_zero h0

end

/-! ### The info dictionary -/

section

variable {env : Environment} {destdir name : Bytes} {st st' : InfoEntries} {es : DictMap}

theorem run_noFiles (hfiles : valuesOf "files" es = [])
    (hrun : run (infoEntry env destdir name) st es = .ok st') :
    SameFiles st'.init st.init ∧ st'.multifile = st.multifile := by
  induction es generalizing st with
  | nil =>
      cases hrun
      exact ⟨⟨rfl, rfl, rfl⟩, rfl⟩
  | cons e es ih =>
      obtain ⟨mid, hstep, hrest⟩ := (run_cons_eq_ok _).mp hrun
      by_cases hkey : e.1.bytes = bytesOf "files"
      · rw [valuesOf_cons_eq hkey] at hfiles
        cases hfiles
      · rw [valuesOf_cons_ne hkey] at hfiles
        obtain ⟨hsame, hmulti⟩ := ih hfiles hrest
        obtain ⟨hsame', hmulti'⟩ := infoEntry_other hkey hstep
        exact ⟨hsame.trans hsame', hmulti.trans hmulti'⟩

theorem run_files {fs : List BencodeValue} (hfiles : valuesOf "files" es = [.bencodeList fs])
    (hrun : run (infoEntry env destdir name) st es = .ok st') :
    SameFiles st'.init (openFiles env st.init
        ((populateFilesCalls destdir name fs).filterMap FileCall.request?)) ∧
      st'.multifile = true := by
  induction es generalizing st with
  | nil => cases hfiles
  | cons e es ih =>
      obtain ⟨mid, hstep, hrest⟩ := (run_cons_eq_ok _).mp hrun
      by_cases hkey : e.1.bytes = bytesOf "files"
      · rw [valuesOf_cons_eq hkey, List.cons.injEq] at hfiles
        obtain ⟨hvalue, hnone⟩ := hfiles
        obtain ⟨hsame, hmulti⟩ := run_noFiles hnone hrest
        obtain ⟨hsame', hmulti'⟩ := infoEntry_files hkey hstep
        rw [entryCalls, if_pos hkey, hvalue] at hsame'
        exact ⟨hsame.trans hsame', hmulti.trans hmulti'⟩
      · rw [valuesOf_cons_ne hkey] at hfiles
        obtain ⟨hsame, hmulti⟩ := ih hfiles hrest
        exact ⟨hsame.trans ((infoEntry_other hkey hstep).1.openFiles env _), hmulti⟩

theorem run_noLength (hlength : valuesOf "length" es = [])
    (hrun : run (infoEntry env destdir name) st es = .ok st') : st'.len = st.len := by
  induction es generalizing st with
  | nil =>
      cases hrun
      rfl
  | cons e es ih =>
      obtain ⟨mid, hstep, hrest⟩ := (run_cons_eq_ok _).mp hrun
      by_cases hkey : e.1.bytes = bytesOf "length"
      · rw [valuesOf_cons_eq hkey] at hlength
        cases hlength
      · rw [valuesOf_cons_ne hkey] at hlength
        exact (ih hlength hrest).trans (infoEntry_len_of_ne hkey hstep)

theorem run_length {n : Int64} (hlength : valuesOf "length" es = [.bencodeInt n])
    (hrun : run (infoEntry env destdir name) st es = .ok st') :
    st'.len = n.toUInt64.toUInt32 := by
  induction es generalizing st with
  | nil => cases hlength
  | cons e es ih =>
      obtain ⟨mid, hstep, hrest⟩ := (run_cons_eq_ok _).mp hrun
      by_cases hkey : e.1.bytes = bytesOf "length"
      · rw [valuesOf_cons_eq hkey, List.cons.injEq] at hlength
        obtain ⟨hvalue, hnone⟩ := hlength
        exact (run_noLength hnone hrest).trans (infoEntry_len hkey (by rw [hvalue]; rfl) hstep)
      · rw [valuesOf_cons_ne hkey] at hlength
        exact ih hlength hrest

end

/-- The files of a torrent, behind those that were there, are as declared. -/
def LaidOut (init init' : Initialisation) (sizes : List ℕ) : Prop :=
  init'.sizes = init.sizes ++ sizes.filter (· ≠ 0)

instance (init init' : Initialisation) (sizes : List ℕ) : Decidable (LaidOut init init' sizes) :=
  inferInstanceAs (Decidable (_ = _))

/-- A torrent of many files, of which `populate_info_from_dict` always says that
it went well. -/
theorem populateInfoFromDict_multi {env : Environment} {destdir : Bytes}
    {init : Initialisation} {info : DictMap} {ds : List DeclaredFile} (hform : MultiFile info ds)
    {ok : Bool} {init' : Initialisation}
    (h : populateInfoFromDict env destdir init info = .ok (ok, init')) :
    (ok = true → LaidOut init init' (ds.map DeclaredFile.size)) ↔
      AllOpen env (destdir ++ bytesOf "/" ++ fileName [] info ++ bytesOf "/") init.tried ds ∧
        init.torrent.files.length + (declaredSizes ds).length < 2 ^ 31 := by
  obtain ⟨fs, hfiles, hforms⟩ := hform
  rw [populateInfoFromDict] at h
  split at h
  · cases h
  rename_i st hrun
  obtain ⟨hsame, hmulti⟩ := run_files hfiles hrun
  rw [if_pos hmulti] at h
  cases h
  have hrequests : (populateFilesCalls destdir (fileName [] info) fs).filterMap FileCall.request? =
      ds.map (DeclaredFile.request (destdir ++ bytesOf "/" ++ fileName [] info ++ bytesOf "/")) :=
    filesCalls_requests _ hforms
  rw [hrequests] at hsame
  rw [← sizes_openFiles_iff, LaidOut, hsame.sizes]
  exact ⟨fun h => h rfl, fun h _ => h⟩

theorem populateInfoFromDict_single {env : Environment} {destdir : Bytes}
    {init : Initialisation} {info : DictMap} {length : Int64} (hform : SingleFile info length)
    {ok : Bool} {init' : Initialisation}
    (h : populateInfoFromDict env destdir init info = .ok (ok, init')) :
    (ok = true → LaidOut init init' [length.toNatClampNeg]) ↔
      (Opens env init (destdir ++ bytesOf "/" ++ fileName [] info)
        (UInt32.ofNat length.toNatClampNeg) → length.toNatClampNeg < 2 ^ 32) := by
  obtain ⟨hnonneg, hfiles, hlength⟩ := hform
  rw [populateInfoFromDict] at h
  split at h
  · cases h
  rename_i st hrun
  obtain ⟨hsame, hmulti⟩ := run_noFiles hfiles hrun
  rw [if_neg (by simp [hmulti]), run_length hlength hrun, toUInt32_length hnonneg,
    Except.ok.injEq] at h
  have hopens : Opens env st.init (destdir ++ bytesOf "/" ++ fileName [] info)
      (UInt32.ofNat length.toNatClampNeg) ↔
      Opens env init (destdir ++ bytesOf "/" ++ fileName [] info)
        (UInt32.ofNat length.toNatClampNeg) := by
    rw [Opens, hsame.files, hsame.tried, Opens]
  rw [← hopens]
  by_cases hopen : Opens env st.init (destdir ++ bytesOf "/" ++ fileName [] info)
      (UInt32.ofNat length.toNatClampNeg)
  · obtain ⟨hok, hsizes, -⟩ := openFile_opens hopen
    have hpos := hopen.1
    rw [h] at hok hsizes
    dsimp only at hok hsizes
    rw [UInt32.toNat_ofNat'] at hsizes hpos
    have hne : length.toNatClampNeg ≠ 0 := by
      intro h0
      rw [h0] at hpos
      exact absurd hpos (by decide)
    rw [LaidOut, hsizes, hsame.sizes, List.append_cancel_left_eq,
      List.filter_cons_of_pos (by simpa using hne), List.filter_nil, List.cons.injEq]
    simp only [hok, hopen, and_true, true_imp_iff]
    exact Nat.mod_eq_iff_lt (by decide)
  · rw [openFile_fails hopen] at h
    cases h
    exact iff_of_true (by simp) fun h => absurd h hopen

/-- **From metainfo to layout.** When `populate_info_from_dict` returns 0, the
files are those declared, in their order and without the empty ones, exactly when
every file with something in it is created and its length is one of 32 bits; for
a torrent of one file, which has to be created, when its length is. -/
theorem populateInfoFromDict_laidOut_iff (env : Environment) (destdir : Bytes)
    (init : Initialisation) (info : DictMap) {ok : Bool} {init' : Initialisation}
    (h : populateInfoFromDict env destdir init info = .ok (ok, init')) :
    (∀ ds, MultiFile info ds →
      ((ok = true → LaidOut init init' (ds.map DeclaredFile.size)) ↔
        AllOpen env (destdir ++ bytesOf "/" ++ fileName [] info ++ bytesOf "/") init.tried ds ∧
          init.torrent.files.length + (declaredSizes ds).length < 2 ^ 31)) ∧
      ∀ length, SingleFile info length →
        ((ok = true → LaidOut init init' [length.toNatClampNeg]) ↔
          (Opens env init (destdir ++ bytesOf "/" ++ fileName [] info)
            (UInt32.ofNat length.toNatClampNeg) → length.toNatClampNeg < 2 ^ 32)) :=
  ⟨fun _ hform => populateInfoFromDict_multi hform h,
    fun _ hform => populateInfoFromDict_single hform h⟩

def threeDeclared : List DeclaredFile :=
  [⟨[letter 'a'.toUInt8], 3, by decide⟩, ⟨[letter 'b'.toUInt8], 0, by decide⟩,
    ⟨[letter 'c'.toUInt8], 5, by decide⟩]

def threeFilesInfo : DictMap :=
  [(filesKey, .bencodeList
      [fileDict (letter 'a'.toUInt8) 3, fileDict (letter 'b'.toUInt8) 0,
        fileDict (letter 'c'.toUInt8) 5]),
    (nameKey, .bencodeString (letter 'd'.toUInt8))]

theorem multiFile_threeFilesInfo : MultiFile threeFilesInfo threeDeclared := by
  refine ⟨_, rfl, ?_⟩
  exact .cons ⟨_, rfl, rfl, rfl⟩ (.cons ⟨_, rfl, rfl, rfl⟩ (.cons ⟨_, rfl, rfl, rfl⟩ .nil))

/-- A new torrent, in an environment where the files for which `opens` holds can
be created. -/
def opening (opens : ℕ → Bool) : Environment :=
  ⟨0, 0, [], id, fun _ => none, fun n _ _ => opens n⟩

def newTorrent (opens : ℕ → Bool) : Initialisation := newInitialisation (opening opens)

theorem populateInfoFromDict_laidOut_threeFiles :
    ∃ init', populateInfoFromDict (opening fun _ => true) [] (newTorrent fun _ => true)
        threeFilesInfo = .ok (true, init') ∧
      LaidOut (newTorrent fun _ => true) init' (threeDeclared.map DeclaredFile.size) := by
  obtain ⟨⟨ok, init'⟩, h, hok⟩ : ∃ r, populateInfoFromDict (opening fun _ => true) []
      (newTorrent fun _ => true) threeFilesInfo = .ok r ∧ r.1 = true := by
    decide +kernel
  cases hok
  refine ⟨init', h, ((populateInfoFromDict_laidOut_iff _ _ _ _ h).1 _
    multiFile_threeFilesInfo).mpr ?_ rfl⟩
  refine ⟨?_, by decide⟩
  simp [AllOpen, threeDeclared, opening, DeclaredFile.size]

/-- A file of `2 ^ 32 + 5` bytes. -/
def hugeInfo : DictMap :=
  [(lengthKey, .bencodeInt 4294967301), (nameKey, .bencodeString (letter 'a'.toUInt8))]

/-- The first file cannot be created, and the others move up; a file is cut down
to five bytes. Both times 0 is returned. -/
theorem populateInfoFromDict_misplaces :
    (MultiFile threeFilesInfo threeDeclared ∧
      ∃ r, populateInfoFromDict (opening fun n => n ≠ 0) [] (newTorrent fun n => n ≠ 0)
          threeFilesInfo = .ok r ∧
        r.1 = true ∧ ¬ LaidOut (newTorrent fun n => n ≠ 0) r.2 (threeDeclared.map DeclaredFile.size)) ∧
      SingleFile hugeInfo 4294967301 ∧
      ∃ r, populateInfoFromDict (opening fun _ => true) [] (newTorrent fun _ => true) hugeInfo =
          .ok r ∧
        r.1 = true ∧ ¬ LaidOut (newTorrent fun _ => true) r.2 [(4294967301 : Int64).toNatClampNeg] :=
  ⟨⟨multiFile_threeFilesInfo, by decide +kernel⟩, ⟨by decide, rfl, rfl⟩, by decide +kernel⟩

end Daobell
