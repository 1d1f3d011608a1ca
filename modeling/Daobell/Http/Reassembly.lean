import Daobell.Http.Downloader

/-!
A file that is downloaded in ranges is put together again. A server answers the
Range field of a request as RFC 7233 says; the ranges of the threads are the
pieces of the file in order, and `merge_file` joins them.
-/

namespace Daobell

open Lib

/-! ### The server -/

def lastField (request : Bytes) : Bytes :=
  ((request.take (request.length - 4)).reverse.takeWhile (· ≠ 10)).reverse

/-- The first and the last position that a Range field of one range names; the
last may be missing. -/
def byteRange (field : Bytes) : Option (ℕ × Option ℕ) :=
  if bytesOf "Range: bytes=" <+: field then
    let set := field.drop 13
    match set.dropWhile isDigit with
    | 45 :: last =>
        if set.takeWhile isDigit ≠ [] ∧ last.all isDigit then
          some (numeral (set.takeWhile isDigit), if last = [] then none else some (numeral last))
        else none
    | _ => none
  else none

/-- The body with which a server answers a request for a file with these
contents. A last position behind the end is clamped to the end; without a
first position inside the file the range cannot be satisfied, and a field that
is no range is ignored. -/
def rangeReply (content request : Bytes) : Bytes :=
  match byteRange (lastField request) with
  | none => content
  | some (first, last) =>
      let last := min (last.getD (content.length - 1)) (content.length - 1)
      if content.length ≤ first then [] else
      if last < first then content else (content.take (last + 1)).drop first

theorem lastField_append {before field : Bytes} (hfield : 10 ∉ field) :
    lastField (before ++ [10] ++ field ++ bytesOf "\r\n\r\n") = field := by
  have htake : (before ++ [10] ++ field ++ bytesOf "\r\n\r\n").take
      ((before ++ [10] ++ field ++ bytesOf "\r\n\r\n").length - 4) = before ++ [10] ++ field := by
    rw [List.length_append]
    exact List.take_left
  rw [lastField, htake, List.reverse_append, List.reverse_append, List.reverse_singleton,
    List.takeWhile_append_of_pos, List.singleton_append, List.takeWhile_cons_of_neg (by simp),
    List.append_nil, List.reverse_reverse]
  intro b hb
  have hne : b ≠ 10 := fun h => hfield (h ▸ List.mem_reverse.mp hb)
  simpa using hne

theorem not_mem_of_isDigit {b : UInt8} (hb : isDigit b = false) {n : ℕ} : b ∉ decimal n := by
  intro hmem
  rw [isDigit_decimal hmem] at hb
  cases hb

theorem byteRange_decimal (first last : ℕ) :
    byteRange (bytesOf "Range: bytes=" ++ decimal first ++ bytesOf "-" ++ decimal last) =
      some (first, some last) := by
  have hset : (bytesOf "Range: bytes=" ++ decimal first ++ bytesOf "-" ++ decimal last).drop 13 =
      decimal first ++ 45 :: decimal last := by
    rw [List.append_assoc, List.append_assoc]
    rfl
  have hdigits : ∀ b ∈ decimal first, isDigit b = true := fun b => isDigit_decimal
  have hminus : ∀ b, (45 :: decimal last).head? = some b → isDigit b = false := by
    rintro b hb
    cases hb
    decide
  have hprefix : bytesOf "Range: bytes=" <+:
      bytesOf "Range: bytes=" ++ decimal first ++ bytesOf "-" ++ decimal last := by
    rw [List.append_assoc, List.append_assoc]
    exact List.prefix_append _ _
  have hlast : (decimal last).all isDigit = true :=
    List.all_eq_true.mpr fun b => isDigit_decimal
  simp only [byteRange, if_pos hprefix, hset, takeWhile_isDigit_append hdigits hminus,
    dropWhile_isDigit_append hdigits hminus, decimal_ne_nil, hlast, numeral_decimal, ne_eq,
    not_false_eq_true, and_self, if_true, if_false]

theorem byteRange_genRangeHeader {d : HttpMultiThreadsDownloader} {header : Bytes}
    (h : d.genRangeHeader = some header) :
    byteRange (lastField header) =
      some (d.threadOffsetBeg.toNat, some d.threadOffsetEnd.toNat) := by
  rw [HttpMultiThreadsDownloader.genRangeHeader] at h
  split at h
  swap
  · cases h
  · have hfield : 10 ∉ bytesOf "Range: bytes=" ++ decimal d.threadOffsetBeg.toNat ++ bytesOf "-" ++
        decimal d.threadOffsetEnd.toNat := by
      simp only [List.mem_append, not_or]
      exact ⟨⟨⟨by decide, not_mem_of_isDigit (by decide)⟩, by decide⟩,
        not_mem_of_isDigit (by decide)⟩
    have hheader : header = (bytesOf "GET " ++ d.hup.path ++ bytesOf " HTTP/1.1\r\nHost: " ++
        d.hup.domain ++ bytesOf "\r\nConnection: Close\r") ++ [10] ++
        (bytesOf "Range: bytes=" ++ decimal d.threadOffsetBeg.toNat ++ bytesOf "-" ++
          decimal d.threadOffsetEnd.toNat) ++ bytesOf "\r\n\r\n" := by
      have hclose : bytesOf "\r\nConnection: Close\r\n" =
          bytesOf "\r\nConnection: Close\r" ++ [10] := rfl
      rw [← Option.some.inj h, hclose]
      simp only [List.append_assoc]
    rw [hheader, lastField_append hfield, byteRange_decimal]

/-! ### The ranges of the threads -/

section

variable {hup : HttpUrlParser} {fileSize threadCount : UInt64} {i : ℕ}

theorem currentThreadIndex_new (hi : i < threadCount.toNat) :
    (newHttpMultiThreadsDownloader hup fileSize threadCount
      (UInt64.ofNat i)).currentThreadIndex.toNat = i := by
  rw [newHttpMultiThreadsDownloader]
  split
  · rename_i h
    subst h
    have hone : i < 1 := hi
    rw [Nat.lt_one_iff.mp hone]
    rfl
  · exact (UInt64.toNat_ofNat_of_lt' (hi.trans threadCount.toNat_lt))

theorem succ_mul_le (fileSize : UInt64) (hi : i < threadCount.toNat) :
    (i + 1) * (fileSize.toNat / threadCount.toNat) ≤ fileSize.toNat :=
  (Nat.mul_le_mul_right _ hi).trans (Nat.mul_div_le _ _)

theorem threadOffsetBeg_new (hi : i < threadCount.toNat) :
    (newHttpMultiThreadsDownloader hup fileSize threadCount
      (UInt64.ofNat i)).threadOffsetBeg.toNat = i * (fileSize.toNat / threadCount.toNat) := by
  have hle := succ_mul_le fileSize hi
  have hlt := fileSize.toNat_lt
  rw [Nat.succ_mul] at hle
  rw [HttpMultiThreadsDownloader.threadOffsetBeg, threadFileSize_new, UInt64.toNat_mul,
    currentThreadIndex_new hi, UInt64.toNat_div]
  exact Nat.mod_eq_of_lt ((Nat.le_of_add_right_le hle).trans_lt hlt)

theorem currentThreadIndex_eq_last_iff (hi : i < threadCount.toNat) :
    (newHttpMultiThreadsDownloader hup fileSize threadCount
      (UInt64.ofNat i)).currentThreadIndex = threadCount - 1 ↔ i + 1 = threadCount.toNat := by
  have hone : (1 : UInt64) ≤ threadCount := by
    rw [UInt64.le_iff_toNat_le]
    exact Nat.one_le_of_lt hi
  rw [← UInt64.toNat_inj, currentThreadIndex_new hi, UInt64.toNat_sub_of_le _ _ hone]
  show i = threadCount.toNat - 1 ↔ _
  omega

theorem threadOffsetEnd_new (hi : i < threadCount.toNat)
    (hpos : 0 < fileSize.toNat / threadCount.toNat) :
    (newHttpMultiThreadsDownloader hup fileSize threadCount
      (UInt64.ofNat i)).threadOffsetEnd.toNat =
        if i + 1 = threadCount.toNat then fileSize.toNat
        else (i + 1) * (fileSize.toNat / threadCount.toNat) - 1 := by
  have hlast : (newHttpMultiThreadsDownloader hup fileSize threadCount
      (UInt64.ofNat i)).currentThreadIndex = threadCount - 1 ↔ i + 1 = threadCount.toNat :=
    currentThreadIndex_eq_last_iff hi
  rw [HttpMultiThreadsDownloader.threadOffsetEnd, threadCount_new, fileSize_new, threadFileSize_new]
  by_cases h : i + 1 = threadCount.toNat
  · rw [if_pos (hlast.mpr h), if_pos h]
  · have hle := succ_mul_le fileSize hi
    have hlt := fileSize.toNat_lt
    rw [if_neg fun h' => h (hlast.mp h'), if_neg h]
    have hsum : ((newHttpMultiThreadsDownloader hup fileSize threadCount
        (UInt64.ofNat i)).threadOffsetBeg + fileSize / threadCount).toNat =
          (i + 1) * (fileSize.toNat / threadCount.toNat) := by
      rw [UInt64.toNat_add, threadOffsetBeg_new hi, UInt64.toNat_div, ← Nat.succ_mul]
      exact Nat.mod_eq_of_lt (hle.trans_lt hlt)
    rw [UInt64.toNat_sub_of_le, hsum]
    · rfl
    · rw [UInt64.le_iff_toNat_le, hsum]
      exact Nat.mul_pos (Nat.succ_pos i) hpos

theorem rangeReply_new {content header : Bytes} (hsize : fileSize.toNat = content.length)
    (hi : i < threadCount.toNat) (hpos : 0 < content.length / threadCount.toNat)
    (h : (newHttpMultiThreadsDownloader hup fileSize threadCount
      (UInt64.ofNat i)).genRangeHeader = some header) :
    rangeReply content header =
      (content.take (if i + 1 = threadCount.toNat then content.length
        else (i + 1) * (content.length / threadCount.toNat))).drop
          (i * (content.length / threadCount.toNat)) := by
  have hle := succ_mul_le fileSize hi
  rw [hsize, Nat.succ_mul] at hle
  have hfirst : ¬ content.length ≤ i * (content.length / threadCount.toNat) := by omega
  rw [rangeReply, byteRange_genRangeHeader h, threadOffsetBeg_new hi,
    threadOffsetEnd_new hi (hsize ▸ hpos), hsize]
  simp only [Option.getD_some, if_neg hfirst]
  by_cases hlast : i + 1 = threadCount.toNat
  · rw [if_pos hlast, if_pos hlast, if_neg (by omega), Nat.min_eq_right (by omega),
      Nat.sub_add_cancel (by omega)]
  · rw [if_neg hlast, if_neg hlast, Nat.succ_mul, Nat.min_eq_left (by omega), if_neg (by omega),
      Nat.sub_add_cancel (by omega)]

end

theorem flatMap_slices {α : Type} (l : List α) (q n : ℕ) :
    ((List.range n).flatMap fun i => (l.take ((i + 1) * q)).drop (i * q)) = l.take (n * q) := by
  induction n with
  | zero => simp
  | succ n ih =>
      have hsplit : l.take ((n + 1) * q) =
          l.take (n * q) ++ (l.take ((n + 1) * q)).drop (n * q) := by
        conv_lhs => rw [← List.take_append_drop (n * q) (l.take ((n + 1) * q))]
        rw [List.take_take, Nat.min_eq_left (Nat.mul_le_mul_right _ (Nat.le_succ n))]
      rw [List.range_succ, List.flatMap_append, List.flatMap_singleton, ih, ← hsplit]

theorem flatMap_replies {hup : HttpUrlParser} {fileSize threadCount : UInt64} {content : Bytes}
    (hsize : fileSize.toNat = content.length) (hcount : 0 < threadCount)
    (hle : threadCount ≤ fileSize) {body : HttpMultiThreadsDownloader → Bytes}
    (hbody : ∀ d ∈ vecHmtd hup fileSize threadCount, ∃ header,
      d.genRangeHeader = some header ∧ body d = rangeReply content header) :
    (vecHmtd hup fileSize threadCount).flatMap body = content := by
  rw [UInt64.lt_iff_toNat_lt] at hcount
  rw [UInt64.le_iff_toNat_le, hsize] at hle
  have hcount' : 0 < threadCount.toNat := hcount
  have hpos : 0 < content.length / threadCount.toNat := Nat.div_pos hle hcount'
  have hreply : ∀ i < threadCount.toNat,
      body (newHttpMultiThreadsDownloader hup fileSize threadCount (UInt64.ofNat i)) =
        (content.take (if i + 1 = threadCount.toNat then content.length
          else (i + 1) * (content.length / threadCount.toNat))).drop
            (i * (content.length / threadCount.toNat)) := by
    intro i hi
    obtain ⟨header, hheader, heq⟩ := hbody _ (List.mem_map.mpr ⟨i, List.mem_range.mpr hi, rfl⟩)
    rw [heq, rangeReply_new hsize hi hpos hheader]
  obtain ⟨n, hn⟩ := Nat.exists_eq_succ_of_ne_zero hcount'.ne'
  have hinit : (List.range n).flatMap (fun i =>
      body (newHttpMultiThreadsDownloader hup fileSize threadCount (UInt64.ofNat i))) =
        content.take (n * (content.length / threadCount.toNat)) := by
    rw [← flatMap_slices]
    apply List.flatMap_congr
    intro i hi
    have hlt := List.mem_range.mp hi
    rw [hreply i (by omega), if_neg (by omega)]
  rw [vecHmtd, List.flatMap_map, hn, List.range_succ, List.flatMap_append, List.flatMap_singleton,
    hinit, hreply n (by omega), if_pos hn.symm, List.take_length, List.take_append_drop]

/-! ### The temporary files -/

theorem decimal_inj {m n : ℕ} (h : decimal m = decimal n) : m = n := by
  rw [← numeral_decimal m, h, numeral_decimal]

section

variable {hup : HttpUrlParser} {fileSize threadCount : UInt64}

theorem valid_of_genRangeHeader {d : HttpMultiThreadsDownloader} {header : Bytes}
    (h : d.genRangeHeader = some header) : d.hup.valid = true := by
  rw [HttpMultiThreadsDownloader.genRangeHeader] at h
  split at h
  · rename_i hvalid
    exact hvalid
  · cases h

theorem genFileNameTemp_new (hvalid : hup.valid = true) (hone : threadCount ≠ 1) {i : ℕ}
    (hi : i < threadCount.toNat) :
    (newHttpMultiThreadsDownloader hup fileSize threadCount (UInt64.ofNat i)).genFileNameTemp =
      (newHttpMultiThreadsDownloader hup fileSize threadCount 0).getDestFileName ++ bytesOf "." ++
        decimal i ++ bytesOf ".dao" := by
  have hsame : (newHttpMultiThreadsDownloader hup fileSize threadCount
      (UInt64.ofNat i)).hup = hup := rfl
  rw [HttpMultiThreadsDownloader.genFileNameTemp, hsame, if_pos hvalid, threadCount_new,
    if_neg fun h => hone h.2, currentThreadIndex_new hi]
  rfl

theorem nodup_map_genFileNameTemp (hvalid : hup.valid = true) :
    ((vecHmtd hup fileSize threadCount).map
      HttpMultiThreadsDownloader.genFileNameTemp).Nodup := by
  by_cases hone : threadCount = 1
  · subst hone
    exact List.nodup_singleton _
  rw [vecHmtd, List.map_map]
  refine List.Nodup.map_on ?_ List.nodup_range
  intro i hi j hj heq
  rw [Function.comp_apply, Function.comp_apply,
    genFileNameTemp_new hvalid hone (List.mem_range.mp hi),
    genFileNameTemp_new hvalid hone (List.mem_range.mp hj)] at heq
  exact decimal_inj (List.append_cancel_left (List.append_cancel_right heq))

theorem genFileNameTemp_ne (hvalid : hup.valid = true) (hone : threadCount ≠ 1)
    {d : HttpMultiThreadsDownloader} (hd : d ∈ vecHmtd hup fileSize threadCount) :
    d.genFileNameTemp ≠
      (newHttpMultiThreadsDownloader hup fileSize threadCount 0).getDestFileName := by
  obtain ⟨i, hi, rfl⟩ := List.mem_map.mp hd
  rw [genFileNameTemp_new hvalid hone (List.mem_range.mp hi)]
  intro heq
  have hlen := congrArg List.length heq
  simp only [List.length_append] at hlen
  have hdot : (bytesOf ".").length = 1 := rfl
  omega

end

/-- A file that none of the threads writes to stays as it is. -/
theorem foldl_saveBody_of_ne (body : HttpMultiThreadsDownloader → Bytes)
    (ds : List HttpMultiThreadsDownloader) (files : Files) {name : Bytes}
    (h : ∀ d ∈ ds, name ≠ d.genFileNameTemp) :
    ds.foldl (saveBody body) files name = files name := by
  induction ds generalizing files with
  | nil => rfl
  | cons d ds ih =>
      obtain ⟨hd, hds⟩ := List.forall_mem_cons.mp h
      rw [List.foldl_cons, ih _ hds, saveBody, Files.write_of_ne _ _ hd]

/-- In the end every temporary file holds what its thread received. -/
theorem foldl_saveBody (body : HttpMultiThreadsDownloader → Bytes)
    {ds : List HttpMultiThreadsDownloader} (files : Files)
    (hnodup : (ds.map HttpMultiThreadsDownloader.genFileNameTemp).Nodup)
    {d : HttpMultiThreadsDownloader} (hd : d ∈ ds) :
    ds.foldl (saveBody body) files d.genFileNameTemp = some (body d) := by
  induction ds generalizing files with
  | nil => cases hd
  | cons e ds ih =>
      rw [List.map_cons, List.nodup_cons] at hnodup
      obtain ⟨hnew, hnodup⟩ := hnodup
      rw [List.foldl_cons]
      rcases List.mem_cons.mp hd with rfl | hd
      · have hne : ∀ e ∈ ds, d.genFileNameTemp ≠ e.genFileNameTemp :=
          fun e he heq => hnew (List.mem_map.mpr ⟨e, he, heq.symm⟩)
        rw [foldl_saveBody_of_ne body ds _ hne, saveBody, Files.write_same]
      · exact ih _ hnodup hd

/-- **The merge.** The temporary files are appended in order. -/
theorem mergeLoop_spec (fileName : Bytes) (body : HttpMultiThreadsDownloader → Bytes)
    {ds : List HttpMultiThreadsDownloader} (files : Files) (written : Bytes)
    (hnodup : (ds.map HttpMultiThreadsDownloader.genFileNameTemp).Nodup)
    (hne : ∀ d ∈ ds, d.genFileNameTemp ≠ fileName)
    (hbody : ∀ d ∈ ds, files d.genFileNameTemp = some (body d))
    (hfile : files fileName = some written) :
    ∃ merged, mergeLoop fileName ds files = .ok merged ∧
      merged fileName = some (written ++ ds.flatMap body) := by
  induction ds generalizing files written with
  | nil => exact ⟨files, rfl, by simpa using hfile⟩
  | cons d ds ih =>
      rw [List.map_cons, List.nodup_cons] at hnodup
      obtain ⟨hnew, hnodup⟩ := hnodup
      obtain ⟨hned, hne⟩ := List.forall_mem_cons.mp hne
      obtain ⟨hbodyd, hbody⟩ := List.forall_mem_cons.mp hbody
      rw [mergeLoop, hbodyd]
      simp only [hfile, Option.getD_some, copyLoop_eq]
      obtain ⟨merged, hmerge, hmerged⟩ := ih
        ((files.write fileName (written ++ body d)).unlink d.genFileNameTemp) (written ++ body d)
        hnodup hne
        (by
          intro e he
          have hother : e.genFileNameTemp ≠ d.genFileNameTemp :=
            fun heq => hnew (List.mem_map.mpr ⟨e, he, heq⟩)
          rw [Files.unlink_of_ne _ hother, Files.write_of_ne _ _ (hne e he)]
          exact hbody e he)
        (by rw [Files.unlink_of_ne _ hned.symm, Files.write_same])
      refine ⟨merged, hmerge, ?_⟩
      rw [hmerged, List.flatMap_cons, List.append_assoc]

theorem length_vecHmtd (hup : HttpUrlParser) (fileSize threadCount : UInt64) :
    (vecHmtd hup fileSize threadCount).length = threadCount.toNat := by
  simp [vecHmtd]

theorem mergeFile_cons {canOpen : Bytes → Bool} {d : HttpMultiThreadsDownloader}
    {ds : List HttpMultiThreadsDownloader} {threadCount : UInt64} (hone : threadCount ≠ 1)
    (hlen : (d :: ds).length = threadCount.toNat) (hopen : canOpen d.getDestFileName = true)
    (files : Files) :
    mergeFile canOpen (d :: ds) threadCount files =
      mergeLoop d.getDestFileName (d :: ds) (files.write d.getDestFileName []) := by
  rw [mergeFile, if_neg fun h => hone h.symm, if_neg (not_not.mpr hlen), if_pos hopen]

theorem vecHmtd_eq_cons (hup : HttpUrlParser) (fileSize : UInt64) {threadCount : UInt64}
    (hcount : 0 < threadCount) : ∃ ds, vecHmtd hup fileSize threadCount =
      newHttpMultiThreadsDownloader hup fileSize threadCount 0 :: ds := by
  rw [UInt64.lt_iff_toNat_lt] at hcount
  have hcount' : 0 < threadCount.toNat := hcount
  obtain ⟨n, hn⟩ := Nat.exists_eq_succ_of_ne_zero hcount'.ne'
  rw [vecHmtd, hn, List.range_succ_eq_map, List.map_cons]
  exact ⟨_, rfl⟩

/-- What `merge_file` leaves under the name of the file, when the temporary files
hold what the threads have received. -/
theorem mergeFile_spec {hup : HttpUrlParser} {fileSize threadCount : UInt64}
    (hcount : 0 < threadCount) (hvalid : hup.valid = true)
    {body : HttpMultiThreadsDownloader → Bytes} {files : Files}
    (hfiles : ∀ d ∈ vecHmtd hup fileSize threadCount, files d.genFileNameTemp = some (body d))
    {canOpen : Bytes → Bool}
    (hopen : canOpen
      (newHttpMultiThreadsDownloader hup fileSize threadCount 0).getDestFileName = true) :
    ∃ merged,
      mergeFile canOpen (vecHmtd hup fileSize threadCount) threadCount files = .ok merged ∧
      merged (newHttpMultiThreadsDownloader hup fileSize threadCount 0).getDestFileName =
        some ((vecHmtd hup fileSize threadCount).flatMap body) := by
  by_cases hone : threadCount = 1
  -- the only thread has written to the file itself
  · subst hone
    have hname : (newHttpMultiThreadsDownloader hup fileSize 1 0).genFileNameTemp =
        (newHttpMultiThreadsDownloader hup fileSize 1 0).getDestFileName := by
      rw [HttpMultiThreadsDownloader.genFileNameTemp]
      exact (if_pos hvalid).trans (if_pos ⟨rfl, rfl⟩)
    have hbodies : (vecHmtd hup fileSize 1).flatMap body =
        body (newHttpMultiThreadsDownloader hup fileSize 1 0) := List.flatMap_singleton _ _
    have hfile : files (newHttpMultiThreadsDownloader hup fileSize 1 0).genFileNameTemp =
        some (body (newHttpMultiThreadsDownloader hup fileSize 1 0)) :=
      hfiles _ List.mem_cons_self
    refine ⟨files, rfl, ?_⟩
    rw [← hname, hfile, hbodies]
  · have hne : ∀ d ∈ vecHmtd hup fileSize threadCount, d.genFileNameTemp ≠
        (newHttpMultiThreadsDownloader hup fileSize threadCount 0).getDestFileName :=
      fun d hd => genFileNameTemp_ne hvalid hone hd
    obtain ⟨merged, hmerge, hmerged⟩ := mergeLoop_spec _ body (files.write _ []) []
      (nodup_map_genFileNameTemp hvalid) hne
      (fun d hd => (Files.write_of_ne files [] (hne d hd)).trans (hfiles d hd))
      (Files.write_same _ _ _)
    refine ⟨merged, ?_, hmerged⟩
    obtain ⟨ds, hvec⟩ := vecHmtd_eq_cons hup fileSize hcount
    have hlen := length_vecHmtd hup fileSize threadCount
    rw [hvec] at hlen hmerge ⊢
    rw [← hmerge]
    exact mergeFile_cons hone hlen hopen files

/-- **The file is put together.** Each thread receives what a server returns for
its range and saves it, and the threads end in any order. Then the temporary
files in the order of the threads are the file, and it is the file that
`merge_file` leaves under its name. -/
theorem mergeFile_reassembles (hup : HttpUrlParser) (content : Bytes)
    (fileSize threadCount : UInt64) (hsize : fileSize.toNat = content.length)
    (hcount : 0 < threadCount) (hle : threadCount ≤ fileSize)
    (body : HttpMultiThreadsDownloader → Bytes)
    (hbody : ∀ d ∈ vecHmtd hup fileSize threadCount, ∃ header,
      d.genRangeHeader = some header ∧ body d = rangeReply content header)
    (files : Files) (order : List HttpMultiThreadsDownloader)
    (horder : order.Perm (vecHmtd hup fileSize threadCount)) :
    let vec := vecHmtd hup fileSize threadCount
    let destFileName :=
      (newHttpMultiThreadsDownloader hup fileSize threadCount 0).getDestFileName
    let saved := order.foldl (saveBody body) files
    (vec.flatMap fun d => (saved d.genFileNameTemp).getD []) = content ∧
      ∀ canOpen : Bytes → Bool, canOpen destFileName = true →
        ∃ merged, mergeFile canOpen vec threadCount saved = .ok merged ∧
          merged destFileName = some content := by
  intro vec destFileName saved
  have hvalid : hup.valid = true := by
    obtain ⟨ds, hvec⟩ := vecHmtd_eq_cons hup fileSize hcount
    obtain ⟨header, hheader, -⟩ := hbody _ (hvec ▸ List.mem_cons_self)
    exact valid_of_genRangeHeader hheader
  have hnodup := (horder.map HttpMultiThreadsDownloader.genFileNameTemp).nodup_iff.mpr
    (nodup_map_genFileNameTemp hvalid)
  have hsaved : ∀ d ∈ vec, saved d.genFileNameTemp = some (body d) :=
    fun d hd => foldl_saveBody body files hnodup (horder.mem_iff.mpr hd)
  have hall : vec.flatMap body = content := flatMap_replies hsize hcount hle hbody
  constructor
  · calc (vec.flatMap fun d => (saved d.genFileNameTemp).getD [])
        = vec.flatMap body := List.flatMap_congr fun d hd => by
          rw [hsaved d hd, Option.getD_some]
      _ = content := hall
  · intro canOpen hopen
    obtain ⟨merged, hmerge, hmerged⟩ := mergeFile_spec hcount hvalid hsaved hopen
    exact ⟨merged, hmerge, hmerged.trans (congrArg some hall)⟩

theorem mergeFile_reassembles_two :
    let hup : HttpUrlParser := ⟨bytesOf "host", bytesOf "/dir/name"⟩
    let body := fun d : HttpMultiThreadsDownloader =>
      rangeReply [1, 2, 3, 4, 5] (d.genRangeHeader.getD [])
    let saved := (vecHmtd hup 5 2).foldl (saveBody body) fun _ => none
    ∃ merged, mergeFile (fun _ => true) (vecHmtd hup 5 2) 2 saved = .ok merged ∧
      merged (bytesOf "name") = some [1, 2, 3, 4, 5] := by
  intro hup body saved
  have hbody : ∀ d ∈ vecHmtd hup 5 2, ∃ header,
      d.genRangeHeader = some header ∧ body d = rangeReply [1, 2, 3, 4, 5] header := by
    intro d hd
    have hvalid : d.hup.valid = true := by
      obtain ⟨i, -, rfl⟩ := List.mem_map.mp hd
      rfl
    have hheader : d.genRangeHeader = some (d.genRangeHeader.getD []) := by
      simp [HttpMultiThreadsDownloader.genRangeHeader, hvalid]
    exact ⟨_, hheader, rfl⟩
  exact (mergeFile_reassembles hup [1, 2, 3, 4, 5] 5 2 rfl (by decide) (by decide) body hbody
    (fun _ => none) _ (List.Perm.refl _)).2 (fun _ => true) rfl

end Daobell
