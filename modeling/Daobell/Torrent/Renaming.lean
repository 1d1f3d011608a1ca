import Daobell.Torrent.Info

/-!
The names of a file that is being downloaded, `create_and_open` and `complete` in
`dnld_file.cpp`. A suffix is put behind the path when the file is opened, and what stands
from its first occurrence on is taken away when the file is complete.
-/

namespace Daobell

/-- What `create_and_open` is called with, and the file of the file system that it opens;
mapping a file of no bytes fails. -/
structure FileRequest where
  path : Bytes
  inode : Inode
  size : UInt32
  size_pos : 0 < size.toNat

def FileRequest.opened (r : FileRequest) : DnldFile :=
  ⟨r.path ++ bytesOf ".incomplete", r.inode, r.size, true, r.size_pos⟩

/-- The calls to the system by which `complete` changes names and mappings. -/
inductive SystemCall
  | rename (oldPath newPath : Bytes)
  | munmap
  deriving DecidableEq

namespace DnldFile

/-- The calls of `complete`; the system is given C strings. -/
def completeCalls (file : DnldFile) : List SystemCall :=
  match findBytes (bytesOf ".incomplete") file.path with
  | some pos => [.rename (cStr file.path) (cStr (file.path.take pos)), .munmap]
  | none => []

/-- `complete`, called some times, and the calls that it makes in all. -/
def completeTimes : ℕ → DnldFile → DnldFile × List SystemCall
  | 0, file => (file, [])
  | n + 1, file =>
      let (file, calls) := completeTimes n file
      (file.complete, calls ++ file.completeCalls)

end DnldFile

/-- However often `complete` is called, the file is renamed from the path with the suffix
to the path and unmapped, once. -/
def FileRequest.Restored (r : FileRequest) : Prop :=
  ∀ n, r.opened.completeTimes (n + 1) =
    (⟨r.path, r.inode, r.size, false, r.size_pos⟩,
      [.rename (r.path ++ bytesOf ".incomplete") r.path, .munmap])

/-! ### The file that is opened -/

/-- A file of the torrent is one that `create_and_open` has been called for. -/
theorem files_openFile {env : Environment} {init : Initialisation} {path : Bytes} {size : UInt32}
    (h : (openFile env init path size).1 = true) :
    ∃ r : FileRequest, r.path = path ∧ r.size = size ∧
      (openFile env init path size).2.torrent.files = init.torrent.files ++ [r.opened] := by
  rw [openFile] at h ⊢
  split at h
  · rename_i hopen
    rw [dif_pos hopen]
    exact ⟨⟨path, _, size, hopen.1⟩, rfl, rfl, rfl⟩
  · cases h

/-! ### Completing twice -/

namespace DnldFile

variable {file : DnldFile}

theorem findBytes_take {s : Bytes} {pos : ℕ} (h : findBytes (bytesOf ".incomplete") s = some pos) :
    findBytes (bytesOf ".incomplete") (s.take pos) = none := by
  rw [findBytes_eq_none_iff (by decide)]
  intro j hj
  have hle := hj.length_le
  have heleven : (bytesOf ".incomplete").length = 11 := rfl
  rw [List.length_drop, List.length_take, heleven] at hle
  have hprefix : bytesOf ".incomplete" <+: s.drop j := by
    rw [List.drop_take] at hj
    exact hj.trans (List.take_prefix _ _)
  exact ((findBytes_eq_some_iff (by decide)).mp h).2 j (by omega) hprefix

theorem complete_complete : file.complete.complete = file.complete := by
  cases h : findBytes (bytesOf ".incomplete") file.path with
  | none =>
      have hsame : file.complete = file := by rw [complete, h]
      rw [hsame, hsame]
  | some pos =>
      have hcut : file.complete = { file with path := file.path.take pos, mapped := false } := by
        rw [complete, h]
      rw [hcut, complete, findBytes_take h]

theorem completeCalls_complete : file.complete.completeCalls = [] := by
  cases h : findBytes (bytesOf ".incomplete") file.path with
  | none =>
      have hsame : file.complete = file := by rw [complete, h]
      rw [hsame, completeCalls, h]
  | some pos =>
      have hcut : file.complete = { file with path := file.path.take pos, mapped := false } := by
        rw [complete, h]
      rw [hcut, completeCalls, findBytes_take h]

/-- The calls behind the first one change nothing and ask for nothing. -/
theorem completeTimes_succ (n : ℕ) :
    file.completeTimes (n + 1) = (file.complete, file.completeCalls) := by
  induction n with
  | zero => rfl
  | succ n ih =>
      rw [completeTimes, ih]
      simp only [complete_complete, completeCalls_complete, List.append_nil]

end DnldFile

/-! ### The first occurrence of the suffix -/

/-- The suffix begins with a dot and has no other one, so that it does not begin within a
path that does not contain it. -/
theorem findBytes_incomplete {path : Bytes} (h : ¬ bytesOf ".incomplete" <:+: path) :
    findBytes (bytesOf ".incomplete") (path ++ bytesOf ".incomplete") = some path.length := by
  rw [findBytes_eq_some_iff (by decide)]
  refine ⟨by rw [List.drop_left], fun j hj hprefix => h ?_⟩
  rw [List.drop_append_of_le_length hj.le] at hprefix
  have heleven : (bytesOf ".incomplete").length = 11 := rfl
  rcases Nat.lt_or_ge (path.drop j).length 11 with hshort | hlong
  · -- the first byte of the suffix would be within itself
    have hdot : ∀ i < 11, 0 < i → (bytesOf ".incomplete")[i]? ≠ some '.'.toUInt8 := by decide
    have hlength : (path.drop j).length = path.length - j := List.length_drop
    refine absurd ?_ (hdot (path.drop j).length hshort (by omega))
    obtain ⟨rest, hrest⟩ := hprefix
    have hget :
        (path.drop j ++ bytesOf ".incomplete")[(path.drop j).length]? = some '.'.toUInt8 := by
      rw [List.getElem?_append_right le_rfl, Nat.sub_self]
      rfl
    rwa [← hrest, List.getElem?_append_left (by omega)] at hget
  · exact (List.prefix_of_prefix_length_le hprefix (List.prefix_append _ _)
      (by omega)).isInfix.trans (List.drop_suffix j path).isInfix

theorem exists_findBytes_lt {path : Bytes} (h : bytesOf ".incomplete" <:+: path) :
    ∃ pos < path.length,
      findBytes (bytesOf ".incomplete") (path ++ bytesOf ".incomplete") = some pos := by
  cases hfind : findBytes (bytesOf ".incomplete") path with
  | none => exact absurd hfind ((findBytes_ne_none_iff (by decide)).mpr h)
  | some pos =>
      refine ⟨pos, ?_, findBytes_append (by decide) hfind _⟩
      have hle := ((findBytes_eq_some_iff (by decide)).mp hfind).1.length_le
      have heleven : (bytesOf ".incomplete").length = 11 := rfl
      rw [List.length_drop, heleven] at hle
      omega

namespace FileRequest

variable (r : FileRequest)

theorem restored_of_free (hfree : ¬ bytesOf ".incomplete" <:+: r.path) (hzero : 0 ∉ r.path) :
    r.Restored := by
  intro n
  have hfind := findBytes_incomplete hfree
  have hold : cStr (r.path ++ bytesOf ".incomplete") = r.path ++ bytesOf ".incomplete" := by
    refine cStr_eq_self ?_
    rw [List.mem_append, not_or]
    exact ⟨hzero, by decide⟩
  rw [DnldFile.completeTimes_succ, DnldFile.complete, DnldFile.completeCalls, opened]
  simp only [hfind, List.take_left, hold, cStr_eq_self hzero]

theorem free_of_restored (h : r.Restored) : ¬ bytesOf ".incomplete" <:+: r.path := by
  intro hinfix
  obtain ⟨pos, hlt, hfind⟩ := exists_findBytes_lt hinfix
  have hfile := congrArg (fun c => c.1.path.length) (h 0)
  rw [DnldFile.completeTimes_succ, DnldFile.complete, opened] at hfile
  simp only [hfind, List.length_take, List.length_append] at hfile
  omega

theorem zero_notMem_of_restored (h : r.Restored) : 0 ∉ r.path := by
  intro hzero
  have hfind := findBytes_incomplete (r.free_of_restored h)
  have hcalls := congrArg Prod.snd (h 0)
  rw [DnldFile.completeTimes_succ, DnldFile.completeCalls, opened] at hcalls
  simp only [hfind] at hcalls
  obtain ⟨hrename, -⟩ := List.cons.inj hcalls
  obtain ⟨-, hnew⟩ := SystemCall.rename.inj hrename
  rw [← hnew] at hzero
  have hne := List.mem_takeWhile_imp hzero
  simp at hne

end FileRequest

/-- **Completing a file gives it the name that was asked for**, unmaps it, and does so
once, exactly when the path does not contain the suffix and has no zero byte. -/
theorem restored_iff (r : FileRequest) :
    r.Restored ↔ ¬ bytesOf ".incomplete" <:+: r.path ∧ 0 ∉ r.path :=
  ⟨fun h => ⟨r.free_of_restored h, r.zero_notMem_of_restored h⟩,
    fun h => r.restored_of_free h.1 h.2⟩

def markedRequest : FileRequest := ⟨bytesOf "a.incomplete.b", .new 0, 2, by decide⟩

/-- It gets the name `a`. -/
theorem not_restored_markedRequest : ¬ markedRequest.Restored := by
  intro h
  have hpath : (markedRequest.opened.completeTimes 1).1.path = bytesOf "a" := by decide +kernel
  rw [h 0] at hpath
  exact absurd hpath (by decide)

end Daobell
