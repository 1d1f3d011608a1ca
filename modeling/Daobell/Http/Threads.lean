import Daobell.Http.Capture
import Daobell.Http.ProgressBar
import Daobell.Lib.Runs

/-!
The download of a file by several threads at once, `download_file` in
`http_downloader.cpp` with `print_progress` in `progress_bar.h`. The threads save
what they receive and count it; the main thread adds their counts up, again and
again, until they reach the size of the file, and then merges the files without
waiting for the threads. A thread is cut where another one can see what it does.
What it writes goes into the buffer of its `std::fstream`, and any part of that may
come to the disk at any time.
-/

namespace Daobell

open Lib

/-! ### A thread -/

/-- Where `download_it` is: before it opens its file; before its first call of
`recv`; behind the first call of `file.write`, with the size to be noted; before a
call of `recv` in its loop; behind `downloaded_size_ += rt`, with the bytes to be
written; behind the loop; at its end. -/
inductive HttpPlace
  | opening
  | header
  | wrote (size : UInt64)
  | body
  | counted (bytes : Bytes)
  | closing
  | finished
  deriving DecidableEq

/-- A thread with the connection that its request has been sent on: the name of its
temporary file, `downloaded_size_`, whether the file is there under its name and whether
its stream is open, what the file holds on the disk, and what is in the buffer. -/
structure HttpThread where
  name : Bytes
  sock : Socket
  place : HttpPlace
  downloadedSize : UInt64
  linked : Bool
  opened : Bool
  file : Bytes
  buffered : Bytes

def HttpThread.start (name : Bytes) (sock : Socket) : HttpThread :=
  ⟨name, sock, .opening, 0, false, false, [], []⟩

/-- The buffer behind `file.write`: a stream that is not open takes nothing. -/
def HttpThread.write (th : HttpThread) (bytes : Bytes) : Bytes :=
  if th.opened then th.buffered ++ bytes else th.buffered

section

-- which names can be opened for writing
variable (canOpen : Bytes → Bool)

/-- The thread goes on. Nothing in it asks whether the stream is open. -/
def HttpThread.step (th : HttpThread) : Except Crash HttpThread :=
  match th.place with
  | .opening =>
      if canOpen th.name then
        .ok { th with place := .header, linked := true, opened := true, file := [] }
      else .ok { th with place := .header }
  | .header =>
      match recv th.sock 1023 with
      | (none, sock) => .ok { th with sock := sock, place := .closing }
      | (some bytes, sock) =>
          match findBytes headerEnd (cStr (bytes ++ List.replicate (1024 - bytes.length) 0)) with
          -- What `strstr` returns is not looked at. Here the run stops; the program reckons
          -- with the null pointer, leaves the file empty and goes on with a wrong size.
          | none => .error .nullDereference
          | some str =>
              let body := bytes.drop (str + 4)
              .ok { th with
                sock := sock
                place := .wrote (UInt64.ofNat body.length)
                buffered := th.write body }
  | .wrote size => .ok { th with place := .body, downloadedSize := size }
  | .body =>
      match recv th.sock 1023 with
      | (none, sock) => .ok { th with sock := sock, place := .closing }
      | (some bytes, sock) =>
          if bytes ≠ [] then .ok { th with
            sock := sock
            place := .counted bytes
            downloadedSize := th.downloadedSize + UInt64.ofNat bytes.length }
          else .ok { th with sock := sock, place := .closing }
  | .counted bytes => .ok { th with place := .body, buffered := th.write bytes }
  | .closing => .ok { th with place := .finished, file := th.file ++ th.buffered, buffered := [] }
  | .finished => .ok th

end

def HttpThread.flush (th : HttpThread) (k : ℕ) : HttpThread :=
  { th with file := th.file ++ th.buffered.take k, buffered := th.buffered.drop k }

/-! ### The main thread -/

/-- Where `download_file` is: at thread `i` with the sum of the sizes of those before;
before `merge_file`; in its loop, before it opens the file of thread `i` and while it
copies it from an offset on; at its end. -/
inductive MainPlace
  | reading (i : ℕ) (n : UInt64)
  | merging
  | opening (i : ℕ)
  | copying (i offset : ℕ)
  | finished
  deriving DecidableEq

/-- The threads, with `total_` and `prev` of `print_progress`, the name of the merged file,
and the file itself once it has been opened. Its name is not that of a temporary file. -/
structure HttpDownload where
  name : Bytes
  threads : List HttpThread
  main : MainPlace
  total : UInt64
  prev : UInt64
  dest : Option Bytes

def destFileName (vec : List HttpMultiThreadsDownloader) : Bytes :=
  (vec.head?.map HttpMultiThreadsDownloader.getDestFileName).getD []

def HttpDownload.start (total : UInt64) (conns : List (HttpMultiThreadsDownloader × Socket)) :
    HttpDownload :=
  ⟨destFileName (conns.map Prod.fst), conns.map fun c => .start c.1.genFileNameTemp c.2,
    .reading 0 0, total, 0, none⟩

/-- The end of a round of `print_progress`: whether the sizes have changed, whether a
second has passed since the beginning, and whether they come to the total. -/
def HttpDownload.judge (s : HttpDownload) (n : UInt64) (elapsed : Bool) : HttpDownload :=
  if n = s.prev then { s with main := .reading 0 0 }
  else if ¬ elapsed then { s with main := .reading 0 0 }
  -- the bar of a download of nothing is infinite, and is drawn for ever
  else if s.total = 0 then s
  else if barComplete n s.total then { s with main := .merging }
  else { s with main := .reading 0 0, prev := n }

section

variable (canOpen : Bytes → Bool)

def HttpDownload.goOn (s : HttpDownload) (elapsed : Bool) : Except Crash HttpDownload :=
  match s.main with
  | .reading i n =>
      match s.threads[i]? with
      | some th => .ok { s with main := .reading (i + 1) (n + th.downloadedSize) }
      | none => .ok (s.judge n elapsed)
  | .merging =>
      if s.threads.length = 1 then .ok { s with main := .finished }
      -- the test `< 0` lets a null pointer through, here and below
      else if canOpen s.name then .ok { s with main := .opening 0, dest := some [] }
      else .error .nullDereference
  | .opening i =>
      match s.threads[i]? with
      | none => .ok { s with main := .finished }
      | some th =>
          if th.linked then .ok { s with main := .copying i 0 } else .error .nullDereference
  | .copying i offset =>
      match s.threads[i]? with
      | none => .error .nullDereference
      | some th =>
          let buff := (th.file.drop offset).take 1024
          if buff ≠ [] then .ok { s with
            main := .copying i (offset + buff.length)
            dest := s.dest.map (· ++ buff) }
          else .ok { s with
            main := .opening (i + 1)
            threads := s.threads.set i { th with linked := false } }
  | .finished => .ok s

/-- What can happen next: a thread goes on, `k` bytes of its buffer come to the disk,
or the main thread goes on. -/
inductive HttpAct
  | thread (i : ℕ)
  | flush (i k : ℕ)
  | main (elapsed : Bool)

def httpStep (s : HttpDownload) : HttpAct → Except Crash HttpDownload
  | .thread i =>
      match s.threads[i]? with
      | none => .ok s
      | some th => th.step canOpen >>= fun th => .ok { s with threads := s.threads.set i th }
  | .flush i k =>
      match s.threads[i]? with
      | none => .ok s
      | some th => .ok { s with threads := s.threads.set i (th.flush k) }
  | .main elapsed => s.goOn canOpen elapsed

end

inductive MainStep (elapsed : Bool) (s : HttpDownload) : HttpDownload → Prop
  | read {i : ℕ} {n : UInt64} {th : HttpThread} (hmain : s.main = .reading i n)
      (hth : s.threads[i]? = some th) :
      MainStep elapsed s { s with main := .reading (i + 1) (n + th.downloadedSize) }
  | judge {i : ℕ} {n : UInt64} (hmain : s.main = .reading i n) (hnone : s.threads[i]? = none) :
      MainStep elapsed s (s.judge n elapsed)
  | single (hmain : s.main = .merging) (hone : s.threads.length = 1) :
      MainStep elapsed s { s with main := .finished }
  | create (hmain : s.main = .merging) (hone : s.threads.length ≠ 1) :
      MainStep elapsed s { s with main := .opening 0, dest := some [] }
  | enter {i : ℕ} {th : HttpThread} (hmain : s.main = .opening i)
      (hth : s.threads[i]? = some th) (hlinked : th.linked = true) :
      MainStep elapsed s { s with main := .copying i 0 }
  | leave {i : ℕ} (hmain : s.main = .opening i) (hnone : s.threads[i]? = none) :
      MainStep elapsed s { s with main := .finished }
  | copy {i offset : ℕ} {th : HttpThread} (hmain : s.main = .copying i offset)
      (hth : s.threads[i]? = some th) (hmore : (th.file.drop offset).take 1024 ≠ []) :
      MainStep elapsed s
        { s with
          main := .copying i (offset + ((th.file.drop offset).take 1024).length)
          dest := s.dest.map (· ++ (th.file.drop offset).take 1024) }
  | remove {i offset : ℕ} {th : HttpThread} (hmain : s.main = .copying i offset)
      (hth : s.threads[i]? = some th) (hend : (th.file.drop offset).take 1024 = []) :
      MainStep elapsed s
        { s with
          main := .opening (i + 1)
          threads := s.threads.set i { th with linked := false } }
  | rest (hmain : s.main = .finished) : MainStep elapsed s s

theorem goOn_cases {canOpen : Bytes → Bool} {elapsed : Bool} {s s' : HttpDownload}
    (h : s.goOn canOpen elapsed = .ok s') : MainStep elapsed s s' := by
  rw [HttpDownload.goOn] at h
  cases hmain : s.main with
  | reading i n =>
      rw [hmain] at h
      dsimp only at h
      split at h
      · cases h
        exact .read hmain ‹_›
      · cases h
        exact .judge hmain ‹_›
  | merging =>
      rw [hmain] at h
      dsimp only at h
      split at h
      · cases h
        exact .single hmain ‹_›
      split at h
      · cases h
        exact .create hmain ‹_›
      · cases h
  | opening i =>
      rw [hmain] at h
      dsimp only at h
      split at h
      · cases h
        exact .leave hmain ‹_›
      split at h
      · cases h
        exact .enter hmain ‹_› ‹_›
      · cases h
  | copying i offset =>
      rw [hmain] at h
      dsimp only at h
      split at h
      · cases h
      split at h
      · cases h
        exact .copy hmain ‹_› ‹_›
      · cases h
        exact .remove hmain ‹_› (not_not.mp ‹_›)
  | finished =>
      rw [hmain] at h
      cases h
      exact .rest hmain

inductive HttpMove (canOpen : Bytes → Bool) (s : HttpDownload) : HttpAct → HttpDownload → Prop
  | thread {i : ℕ} {th th' : HttpThread} (hth : s.threads[i]? = some th)
      (hstep : th.step canOpen = .ok th') :
      HttpMove canOpen s (.thread i) { s with threads := s.threads.set i th' }
  | noThread {i : ℕ} (hnone : s.threads[i]? = none) : HttpMove canOpen s (.thread i) s
  | flush {i k : ℕ} {th : HttpThread} (hth : s.threads[i]? = some th) :
      HttpMove canOpen s (.flush i k) { s with threads := s.threads.set i (th.flush k) }
  | noFlush {i k : ℕ} (hnone : s.threads[i]? = none) : HttpMove canOpen s (.flush i k) s
  | main {elapsed : Bool} {s' : HttpDownload} (hstep : MainStep elapsed s s') :
      HttpMove canOpen s (.main elapsed) s'

theorem httpStep_cases {canOpen : Bytes → Bool} {s s' : HttpDownload}
    {a : HttpAct} (h : httpStep canOpen s a = .ok s') : HttpMove canOpen s a s' := by
  cases a with
  | thread i =>
      rw [httpStep] at h
      split at h
      · cases h
        exact .noThread ‹_›
      · obtain ⟨th', hstep, heq⟩ := bind_eq_ok.mp h
        cases heq
        exact .thread ‹_› hstep
  | flush i k =>
      rw [httpStep] at h
      split at h
      · cases h
        exact .noFlush ‹_›
      · cases h
        exact .flush ‹_›
  | main elapsed => exact .main (goOn_cases h)

/-! ### What a thread has received -/

/-- The bytes that have been counted and are yet to be written. -/
def HttpPlace.pending : HttpPlace → Bytes
  | .counted bytes => bytes
  | _ => []

def HttpThread.received (th : HttpThread) : Bytes := th.file ++ (th.buffered ++ th.place.pending)

/-- What comes is a response with this body, whose header is all in the first
chunk. -/
def Socket.Answers (sock : Socket) (body : Bytes) : Prop :=
  ∃ r : HttpResponse, r.body = body ∧ sock.inp = r.text ∧ 0 ∉ r.header ∧
    ∀ bytes sock', recv sock 1023 = (some bytes, sock') →
      r.header.length + headerEnd.length ≤ bytes.length

/-- The thread is receiving the body: what it has is the beginning of it, and counted
but for a moment behind the first call of `file.write`. -/
def HttpThread.Saves (body : Bytes) (th : HttpThread) : Prop :=
  match th.place with
  | .opening | .header => th.sock.Answers body ∧ th.received = [] ∧ th.downloadedSize = 0
  | .wrote size => th.received ++ th.sock.inp = body ∧ size = UInt64.ofNat th.received.length ∧
      th.downloadedSize = 0
  | .body | .counted _ => th.received ++ th.sock.inp = body ∧
      th.downloadedSize = UInt64.ofNat th.received.length
  | .closing => th.received <+: body ∧ th.downloadedSize = UInt64.ofNat th.received.length
  | .finished => th.received <+: body ∧ th.downloadedSize = UInt64.ofNat th.received.length ∧
      th.buffered = []

structure HttpThread.Grows (th th' : HttpThread) : Prop where
  size : th.downloadedSize.toNat ≤ th'.downloadedSize.toNat
  file : th.place ≠ .opening → th.file <+: th'.file
  linked : th.place ≠ .opening → th'.linked = th.linked
  begun : th.place ≠ .opening → th'.place ≠ .opening

structure HttpThread.Ready (canOpen : Bytes → Bool) (th : HttpThread) : Prop where
  opens : canOpen th.name = true
  opened : th.place ≠ .opening → th.opened = true

section

variable {canOpen : Bytes → Bool} {body : Bytes} {th th' : HttpThread}

theorem HttpThread.Saves.received_prefix (h : th.Saves body) : th.received <+: body := by
  obtain ⟨name, sock, place, size, linked, opened, file, buffered⟩ := th
  cases place with
  | opening =>
      rw [h.2.1]
      exact List.nil_prefix
  | header =>
      rw [h.2.1]
      exact List.nil_prefix
  | wrote size => exact ⟨_, h.1⟩
  | body => exact ⟨_, h.1⟩
  | counted bytes => exact ⟨_, h.1⟩
  | closing => exact h.1
  | finished => exact h.1

theorem HttpThread.Saves.size_le (h : th.Saves body) (hbody : body.length < 2 ^ 64) :
    th.downloadedSize.toNat ≤ body.length := by
  have hle := h.received_prefix.length_le
  have hreceived : (UInt64.ofNat th.received.length).toNat = th.received.length :=
    UInt64.toNat_ofNat_of_lt' (hle.trans_lt hbody)
  obtain ⟨name, sock, place, size, linked, opened, file, buffered⟩ := th
  cases place with
  | opening =>
      rw [h.2.2]
      exact Nat.zero_le _
  | header =>
      rw [h.2.2]
      exact Nat.zero_le _
  | wrote size =>
      rw [h.2.2]
      exact Nat.zero_le _
  | body => rwa [h.2, hreceived]
  | counted bytes => rwa [h.2, hreceived]
  | closing => rwa [h.2, hreceived]
  | finished => rwa [h.2.1, hreceived]

/-- A thread that has counted all of the body has all of it. -/
theorem HttpThread.Saves.received_of_size (h : th.Saves body) (hbody : body.length < 2 ^ 64)
    (hpos : 0 < body.length) (hsize : th.downloadedSize.toNat = body.length) :
    th.received = body ∧ th.place ≠ .opening := by
  have hle := h.received_prefix.length_le
  have hreceived : (UInt64.ofNat th.received.length).toNat = th.received.length :=
    UInt64.toNat_ofNat_of_lt' (hle.trans_lt hbody)
  have hcounted : th.downloadedSize = UInt64.ofNat th.received.length → th.received = body := by
    intro heq
    rw [heq, hreceived] at hsize
    exact h.received_prefix.eq_of_length hsize
  have hzero : th.downloadedSize ≠ 0 := by
    intro heq
    rw [heq] at hsize
    exact hpos.ne hsize
  obtain ⟨name, sock, place, size, linked, opened, file, buffered⟩ := th
  cases place with
  | opening => exact absurd h.2.2 hzero
  | header => exact absurd h.2.2 hzero
  | wrote size => exact absurd h.2.2 hzero
  | body => exact ⟨hcounted h.2, by simp⟩
  | counted bytes => exact ⟨hcounted h.2, by simp⟩
  | closing => exact ⟨hcounted h.2, by simp⟩
  | finished => exact ⟨hcounted h.2.1, by simp⟩

theorem saves_start {sock : Socket} (h : sock.Answers body) (name : Bytes) :
    (HttpThread.start name sock).Saves body :=
  ⟨h, rfl, rfl⟩

theorem ready_start {name : Bytes} (h : canOpen name = true) (sock : Socket) :
    (HttpThread.start name sock).Ready canOpen :=
  ⟨h, fun hplace => absurd rfl hplace⟩

theorem HttpThread.Grows.refl (th : HttpThread) : th.Grows th :=
  ⟨le_rfl, fun _ => List.prefix_rfl, fun _ => rfl, id⟩

/-! ### The steps of a thread -/

/-- The end of the header is found, and what is behind it is the beginning of the
body. -/
theorem Socket.Answers.found {sock sock' : Socket} (h : sock.Answers body) {bytes : Bytes}
    (hrecv : recv sock 1023 = (some bytes, sock')) :
    ∃ str, findBytes headerEnd (cStr (bytes ++ List.replicate (1024 - bytes.length) 0)) = some str ∧
      bytes.drop (str + 4) ++ sock'.inp = body := by
  obtain ⟨r, rfl, hinp, hzero, hlong⟩ := h
  have hheader := hlong bytes sock' hrecv
  obtain ⟨_, hnone, -⟩ | ⟨_, _, hsome, hstep, -⟩ := recv_cases sock 1023
  · cases hrecv.symm.trans hnone
  cases hrecv.symm.trans hsome
  have hinp' := hstep.inp
  rw [hinp, HttpResponse.text] at hinp'
  obtain ⟨begun, rfl⟩ : r.header ++ headerEnd <+: bytes := by
    refine List.prefix_of_prefix_length_le (List.prefix_append _ r.body) ?_ ?_
    · rw [hinp']
      exact List.prefix_append _ _
    · rwa [List.length_append]
  rw [List.append_assoc _ begun, List.append_cancel_left_eq] at hinp'
  have hzero' : 0 ∉ r.header ++ headerEnd := by
    rw [List.mem_append, not_or]
    exact ⟨hzero, by decide⟩
  refine ⟨r.header.length, ?_, ?_⟩
  · rw [cStr_append_replicate, cStr_append hzero', HttpResponse.findBytes_text]
  · have hdrop : (r.header ++ headerEnd ++ begun).drop (r.header.length + 4) = begun :=
      List.drop_left' (List.length_append.trans rfl)
    rw [hdrop, hinp']

/-- **A step of a thread.** Nothing stops it, and it goes on receiving the body. -/
theorem HttpThread.Saves.step (h : th.Saves body) (hready : th.Ready canOpen)
    (hbody : body.length < 2 ^ 64) :
    ∃ th', th.step canOpen = .ok th' ∧ (th'.Saves body ∧ th'.Ready canOpen) ∧ th.Grows th' := by
  obtain ⟨name, sock, place, size, linked, opened, file, buffered⟩ := th
  obtain ⟨hopen, hopened⟩ := hready
  have hready' : ∀ th' : HttpThread, th'.name = name → th'.opened = true → th'.Ready canOpen := by
    rintro th' rfl hth'
    exact ⟨hopen, fun _ => hth'⟩
  dsimp only at hopen hopened
  cases place with
  | opening =>
      obtain ⟨hanswers, hnone, hsize⟩ := h
      obtain ⟨rfl, rfl⟩ : file = [] ∧ buffered = [] := by
        simpa [HttpThread.received, HttpPlace.pending] using hnone
      refine ⟨_, if_pos hopen, ⟨⟨hanswers, rfl, hsize⟩, hready' _ rfl rfl⟩,
        ⟨le_rfl, by simp, by simp, by simp⟩⟩
  | header =>
      obtain ⟨hanswers, hnone, rfl⟩ := h
      obtain rfl : opened = true := hopened (by simp)
      obtain ⟨rfl, rfl⟩ : file = [] ∧ buffered = [] := by
        simpa [HttpThread.received, HttpPlace.pending] using hnone
      rw [HttpThread.step]
      rcases hrecv : recv sock 1023 with ⟨_ | bytes, sock'⟩
      · exact ⟨_, rfl, ⟨⟨List.nil_prefix, rfl⟩, hready' _ rfl rfl⟩,
          ⟨le_rfl, fun _ => List.prefix_rfl, fun _ => rfl, by simp⟩⟩
      · obtain ⟨str, hfound, hrest⟩ := hanswers.found hrecv
        simp only [hfound]
        refine ⟨_, rfl, ⟨⟨?_, ?_, rfl⟩, hready' _ rfl rfl⟩,
          ⟨le_rfl, fun _ => List.prefix_rfl, fun _ => rfl, by simp⟩⟩
        · simpa [HttpThread.received, HttpThread.write, HttpPlace.pending] using hrest
        · simp [HttpThread.received, HttpThread.write, HttpPlace.pending]
  | wrote size' =>
      obtain ⟨hrest, hsize, hzero⟩ := h
      refine ⟨_, rfl, ⟨⟨hrest, hsize⟩, hready' _ rfl (hopened (by simp))⟩,
        ⟨?_, fun _ => List.prefix_rfl, fun _ => rfl, by simp⟩⟩
      rw [hzero]
      exact Nat.zero_le _
  | body =>
      obtain rfl : opened = true := hopened (by simp)
      have hclosing :
          ∀ sock', HttpThread.Saves body ⟨name, sock', .closing, size, linked, true, file, buffered⟩ :=
        fun sock' => ⟨⟨_, h.1⟩, h.2⟩
      simp only [HttpThread.Saves, HttpThread.received, HttpPlace.pending, List.append_nil] at h
      obtain ⟨hrest, rfl⟩ := h
      rw [HttpThread.step]
      obtain ⟨sock', hrecv, -⟩ | ⟨bytes, sock', hrecv, hstep, -⟩ := recv_cases sock 1023
      · rw [hrecv]
        exact ⟨_, rfl, ⟨hclosing sock', hready' _ rfl rfl⟩,
          ⟨le_rfl, fun _ => List.prefix_rfl, fun _ => rfl, by simp⟩⟩
      · rw [hrecv]
        dsimp only
        split
        · have hcounted : UInt64.ofNat (file ++ buffered).length + UInt64.ofNat bytes.length =
              UInt64.ofNat (file ++ (buffered ++ bytes)).length := by
            simp only [List.length_append, UInt64.ofNat_add, UInt64.add_assoc]
          have hrest' : file ++ (buffered ++ bytes) ++ sock'.inp = body := by
            rw [← hrest, hstep.inp]
            simp
          have hlen := congrArg List.length hrest'
          simp only [List.length_append] at hlen
          refine ⟨_, rfl, ⟨⟨hrest', hcounted⟩, hready' _ rfl rfl⟩,
            ⟨?_, fun _ => List.prefix_rfl, fun _ => rfl, by simp⟩⟩
          dsimp only
          rw [hcounted, UInt64.toNat_ofNat_of_lt', UInt64.toNat_ofNat_of_lt']
          · simp only [List.length_append]
            omega
          · simp only [List.length_append]
            exact lt_of_le_of_lt (by omega) hbody
          · simp only [List.length_append]
            exact lt_of_le_of_lt (by omega) hbody
        · exact ⟨_, rfl, ⟨hclosing sock', hready' _ rfl rfl⟩,
            ⟨le_rfl, fun _ => List.prefix_rfl, fun _ => rfl, by simp⟩⟩
  | counted bytes =>
      obtain ⟨hrest, hsize⟩ := h
      obtain rfl : opened = true := hopened (by simp)
      refine ⟨_, rfl, ⟨⟨?_, ?_⟩, hready' _ rfl rfl⟩,
        ⟨le_rfl, fun _ => List.prefix_rfl, fun _ => rfl, by simp⟩⟩
      · simpa [HttpThread.received, HttpThread.write, HttpPlace.pending] using hrest
      · simpa [HttpThread.received, HttpThread.write, HttpPlace.pending] using hsize
  | closing =>
      obtain ⟨hbegins, hsize⟩ := h
      refine ⟨_, rfl, ⟨⟨?_, ?_, rfl⟩, hready' _ rfl (hopened (by simp))⟩,
        ⟨le_rfl, fun _ => ⟨_, rfl⟩, fun _ => rfl, by simp⟩⟩
      · simpa [HttpThread.received, HttpPlace.pending] using hbegins
      · simpa [HttpThread.received, HttpPlace.pending] using hsize
  | finished => exact ⟨_, rfl, ⟨h, hready' _ rfl (hopened (by simp))⟩, .refl _⟩

theorem HttpThread.received_flush (th : HttpThread) (k : ℕ) :
    (th.flush k).received = th.received := by
  rw [HttpThread.received, HttpThread.received, HttpThread.flush, List.append_assoc,
    ← List.append_assoc (th.buffered.take k), List.take_append_drop]

theorem HttpThread.Saves.flush (h : th.Saves body) (k : ℕ) :
    (th.flush k).Saves body ∧ th.Grows (th.flush k) := by
  refine ⟨?_, ⟨le_rfl, fun _ => ⟨_, rfl⟩, fun _ => rfl, id⟩⟩
  have hreceived := th.received_flush k
  obtain ⟨name, sock, place, size, linked, opened, file, buffered⟩ := th
  cases place with
  | finished =>
      obtain ⟨hbegins, hsize, rfl⟩ := h
      exact ⟨hreceived ▸ hbegins, hreceived ▸ hsize, List.drop_nil⟩
  | _ =>
      simp only [HttpThread.Saves, HttpThread.flush] at h hreceived ⊢
      rw [hreceived]
      exact h

end

/-! ### A thread on its own -/

def HttpThread.steps (canOpen : Bytes → Bool) (th : HttpThread) : ℕ → Except Crash HttpThread
  | 0 => .ok th
  | n + 1 => th.step canOpen >>= fun th => th.steps canOpen n

section

variable {canOpen : Bytes → Bool} {name : Bytes}

theorem HttpThread.steps_succ {th th' : HttpThread} (h : th.step canOpen = .ok th') (n : ℕ) :
    th.steps canOpen (n + 1) = th'.steps canOpen n := by
  rw [HttpThread.steps, h, ok_bind]

/-- The steps of the loop, with a part of the file still in the buffer. -/
theorem steps_downloadLoop {fuel : ℕ} {sock sock' : Socket} {d d' : Download} {linked : Bool}
    {file buffered : Bytes} (hfile : d.file = file ++ buffered)
    (h : downloadLoop fuel sock d = .ok (d', sock')) :
    ∃ n, HttpThread.steps canOpen
        ⟨name, sock, .body, d.downloadedSize, linked, true, file, buffered⟩ n =
      .ok ⟨name, sock', .finished, d'.downloadedSize, linked, true, d'.file, []⟩ := by
  induction fuel generalizing sock d buffered with
  | zero => cases h
  | succ fuel ih =>
      rw [downloadLoop] at h
      have hend : ∀ sock₁ : Socket, d = d' → sock₁ = sock' →
          HttpThread.step canOpen
              ⟨name, sock, .body, d.downloadedSize, linked, true, file, buffered⟩ =
            .ok ⟨name, sock₁, .closing, d.downloadedSize, linked, true, file, buffered⟩ →
          ∃ n, HttpThread.steps canOpen
        ⟨name, sock, .body, d.downloadedSize, linked, true, file, buffered⟩ n =
            .ok ⟨name, sock', .finished, d'.downloadedSize, linked, true, d'.file, []⟩ := by
        rintro sock₁ rfl rfl hstep
        refine ⟨2, ?_⟩
        rw [HttpThread.steps_succ hstep, HttpThread.steps_succ rfl, hfile]
        rfl
      rcases hrecv : recv sock 1023 with ⟨_ | bytes, sock₁⟩
      · rw [hrecv] at h
        obtain ⟨rfl, rfl⟩ := Prod.mk.inj (Except.ok.inj h)
        refine hend sock₁ rfl rfl ?_
        rw [HttpThread.step]
        simp only [hrecv]
      · rw [hrecv] at h
        dsimp only at h
        split at h
        · rename_i hne
          have hfile' : (d.write bytes).file = file ++ (buffered ++ bytes) := by
            simp only [Download.write, hfile, List.append_assoc]
          obtain ⟨n, hn⟩ := ih hfile' h
          refine ⟨n + 2, ?_⟩
          have hstep : HttpThread.step canOpen
              ⟨name, sock, .body, d.downloadedSize, linked, true, file, buffered⟩ =
              .ok ⟨name, sock₁, .counted bytes, (d.write bytes).downloadedSize, linked, true, file,
                buffered⟩ := by
            rw [HttpThread.step]
            simp only [hrecv, if_pos hne]
            rfl
          rw [HttpThread.steps_succ hstep, HttpThread.steps_succ rfl]
          exact hn
        · rename_i hnil
          obtain ⟨rfl, rfl⟩ := Prod.mk.inj (Except.ok.inj h)
          refine hend sock₁ rfl rfl ?_
          rw [HttpThread.step]
          simp only [hrecv, if_neg hnil]

theorem steps_downloadIt {sock sock' : Socket} {d : Download}
    (h : downloadIt sock = .ok (some d, sock')) (hopen : canOpen name = true) :
    ∃ n, (HttpThread.start name sock).steps canOpen n =
      .ok ⟨name, sock', .finished, d.downloadedSize, true, true, d.file, []⟩ := by
  rw [downloadIt] at h
  rcases hrecv : recv sock 1023 with ⟨_ | bytes, sock₁⟩
  · rw [hrecv] at h
    cases h
  rw [hrecv] at h
  dsimp only at h
  cases hfound : findBytes headerEnd (cStr (bytes ++ List.replicate (1024 - bytes.length) 0)) with
  | none =>
      rw [hfound] at h
      cases h
  | some str =>
      rw [hfound] at h
      obtain ⟨⟨d', sock''⟩, hloop, heq⟩ := bind_eq_ok.mp h
      cases heq
      have hfile : (Download.write ⟨[], 0⟩ (bytes.drop (str + 4))).file =
          [] ++ bytes.drop (str + 4) := rfl
      obtain ⟨n, hn⟩ := steps_downloadLoop hfile hloop
      refine ⟨n + 3, ?_⟩
      have hstep : HttpThread.step canOpen ⟨name, sock, .header, 0, true, true, [], []⟩ =
          .ok ⟨name, sock₁, .wrote (UInt64.ofNat (bytes.drop (str + 4)).length), 0, true, true, [],
            bytes.drop (str + 4)⟩ := by
        rw [HttpThread.step]
        simp only [hrecv, hfound, HttpThread.write, if_true, List.nil_append]
      have hbegin : (HttpThread.start name sock).step canOpen =
          .ok ⟨name, sock, .header, 0, true, true, [], []⟩ := if_pos hopen
      rw [HttpThread.steps_succ hbegin, HttpThread.steps_succ hstep,
        HttpThread.steps_succ rfl]
      simpa [Download.write] using hn

end

end Daobell
