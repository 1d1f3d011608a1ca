import Daobell.Cxx
import Daobell.Lib.Numeral

/-!
The download of one file over several connections: the parts of
`http_multi_threads_downloader.cpp` that name the range and the temporary file
of a thread, and `http_downloader.cpp`, which puts the temporary files
together. The sockets are left out: what a thread receives is given.
-/

namespace Daobell

open Lib

structure HttpUrlParser where
  domain : Bytes
  path : Bytes
  deriving DecidableEq

def HttpUrlParser.valid (hup : HttpUrlParser) : Bool := !hup.domain.isEmpty

/-- An `http_multi_threads_downloader` that knows the size of the file. -/
structure HttpMultiThreadsDownloader where
  hup : HttpUrlParser
  threadCount : UInt64
  currentThreadIndex : UInt64
  fileSize : UInt64
  deriving DecidableEq

/-- The constructor, and the answer to `send_request_query_http_header`. -/
def newHttpMultiThreadsDownloader (hup : HttpUrlParser)
    (fileSize threadCount threadIndex : UInt64) : HttpMultiThreadsDownloader :=
  ⟨hup, threadCount, if 1 = threadCount then 0 else threadIndex, fileSize⟩

namespace HttpMultiThreadsDownloader

variable (d : HttpMultiThreadsDownloader)

/-! ### The range -/

def threadFileSize : UInt64 := d.fileSize / d.threadCount

def threadOffsetBeg : UInt64 := d.currentThreadIndex * d.threadFileSize

def threadOffsetEnd : UInt64 :=
  if d.currentThreadIndex = d.threadCount - 1 then d.fileSize
  else d.threadOffsetBeg + d.threadFileSize - 1

/-- `gen_range_header`; `none` where it returns -1. -/
def genRangeHeader : Option Bytes :=
  if d.hup.valid then
    some (bytesOf "GET " ++ d.hup.path ++ bytesOf " HTTP/1.1\r\nHost: " ++ d.hup.domain ++
      bytesOf "\r\nConnection: Close\r\n" ++ bytesOf "Range: bytes=" ++
      decimal d.threadOffsetBeg.toNat ++ bytesOf "-" ++ decimal d.threadOffsetEnd.toNat ++
      bytesOf "\r\n\r\n")
  else none

/-! ### The files -/

/-- `get_dest_file_name`, into a string that was empty: the path behind its last
slash. -/
def getDestFileName : Bytes :=
  if d.hup.valid ∧ 47 ∈ d.hup.path then (d.hup.path.reverse.takeWhile (· ≠ 47)).reverse else []

/-- `gen_file_name_temp`, which leaves the string empty where it returns -1. -/
def genFileNameTemp : Bytes :=
  if d.hup.valid then
    if d.currentThreadIndex = 0 ∧ d.threadCount = 1 then d.getDestFileName
    else d.getDestFileName ++ bytesOf "." ++ decimal d.currentThreadIndex.toNat ++ bytesOf ".dao"
  else []

end HttpMultiThreadsDownloader

abbrev Files := Bytes → Option Bytes

def Files.write (files : Files) (name contents : Bytes) : Files :=
  Function.update files name (some contents)

def Files.unlink (files : Files) (name : Bytes) : Files := Function.update files name none

@[simp] theorem Files.write_same (files : Files) (name contents : Bytes) :
    files.write name contents name = some contents :=
  Function.update_self _ _ _

@[simp] theorem Files.write_of_ne (files : Files) {name name' : Bytes} (contents : Bytes)
    (h : name' ≠ name) : files.write name contents name' = files name' :=
  Function.update_of_ne h _ _

@[simp] theorem Files.unlink_of_ne (files : Files) {name name' : Bytes} (h : name' ≠ name) :
    files.unlink name name' = files name' :=
  Function.update_of_ne h _ _

/-- What `download_it` leaves behind when `body` has come. -/
def saveBody (body : HttpMultiThreadsDownloader → Bytes) (files : Files)
    (d : HttpMultiThreadsDownloader) : Files :=
  files.write d.genFileNameTemp (body d)

def vecHmtd (hup : HttpUrlParser) (fileSize threadCount : UInt64) :
    List HttpMultiThreadsDownloader :=
  (List.range threadCount.toNat).map fun i =>
    newHttpMultiThreadsDownloader hup fileSize threadCount (UInt64.ofNat i)

@[simp] theorem threadCount_new (hup : HttpUrlParser) (fileSize threadCount i : UInt64) :
    (newHttpMultiThreadsDownloader hup fileSize threadCount i).threadCount = threadCount := rfl

@[simp] theorem fileSize_new (hup : HttpUrlParser) (fileSize threadCount i : UInt64) :
    (newHttpMultiThreadsDownloader hup fileSize threadCount i).fileSize = fileSize := rfl

@[simp] theorem threadFileSize_new (hup : HttpUrlParser) (fileSize threadCount i : UInt64) :
    (newHttpMultiThreadsDownloader hup fileSize threadCount i).threadFileSize =
      fileSize / threadCount := rfl

def copyLoop (rest out : Bytes) : Bytes :=
  let buff := rest.take 1024
  if _h : buff = [] then out else copyLoop (rest.drop 1024) (out ++ buff)
termination_by rest.length
decreasing_by
  rw [List.length_drop]
  have hpos : 0 < (rest.take 1024).length := List.length_pos_iff.mpr _h
  rw [List.length_take] at hpos
  omega

theorem copyLoop_eq (rest out : Bytes) : copyLoop rest out = out ++ rest := by
  induction rest, out using copyLoop.induct with
  | case1 rest out buff h =>
      have hnil : rest = [] := by
        simpa [buff] using h
      rw [copyLoop, dif_pos h, hnil, List.append_nil]
  | case2 rest out buff h ih =>
      rw [copyLoop, dif_neg h, ih, List.append_assoc, List.take_append_drop]

/-- The loop of `merge_file` over the threads. A file that is not there gives a
null pointer, which the test `< 0` lets through. -/
def mergeLoop (fileName : Bytes) : List HttpMultiThreadsDownloader → Files → Except Crash Files
  | [], files => .ok files
  | d :: ds, files =>
      match files d.genFileNameTemp with
      | none => .error .nullDereference
      | some contents =>
          mergeLoop fileName ds ((files.write fileName
            (copyLoop contents ((files fileName).getD []))).unlink d.genFileNameTemp)

/-- `merge_file`. Which names can be opened for writing is up to the file
system. -/
def mergeFile (canOpen : Bytes → Bool) (vec : List HttpMultiThreadsDownloader)
    (threadCount : UInt64) (files : Files) : Except Crash Files :=
  if 1 = threadCount then .ok files
  else if vec.length ≠ threadCount.toNat then .ok files
  else
    match vec with
    | [] => .error .outOfRange
    | d :: _ =>
        if canOpen d.getDestFileName then
          mergeLoop d.getDestFileName vec (files.write d.getDestFileName [])
        else .error .nullDereference

end Daobell
