import Daobell.Http.Downloader
import Daobell.Peer.Socket

/-!
What a thread saves of the answer to its request, the end of `download_it` in
`http_multi_threads_downloader.cpp`. The header is looked for in what the first call
of `recv` brings; the rest is written as it comes.
-/

namespace Daobell

open Lib

def headerEnd : Bytes := bytesOf "\r\n\r\n"

/-- What has been written to the temporary file, and `downloaded_size_`. -/
structure Download where
  file : Bytes
  downloadedSize : UInt64
  deriving DecidableEq

def Download.write (d : Download) (bytes : Bytes) : Download :=
  ⟨d.file ++ bytes, d.downloadedSize + UInt64.ofNat bytes.length⟩

/-- The loop of `download_it`. Every round but the last takes a byte off the stream. -/
def downloadLoop : ℕ → Socket → Download → Except Crash (Download × Socket)
  | 0, _, _ => .error .hang
  | fuel + 1, sock, d =>
      match recv sock 1023 with
      | (none, sock) => .ok (d, sock)
      | (some bytes, sock) =>
          if bytes ≠ [] then downloadLoop fuel sock (d.write bytes) else .ok (d, sock)

/-- `download_it` from its first call of `recv` on; `none` where it returns -1. The
buffer is zero behind what the call has brought. -/
def downloadIt (sock : Socket) : Except Crash (Option Download × Socket) :=
  match recv sock 1023 with
  | (none, sock) => .ok (none, sock)
  | (some bytes, sock) =>
      let buff := bytes ++ List.replicate (1024 - bytes.length) 0
      match findBytes headerEnd (cStr buff) with
      -- What `strstr` returns is not looked at. Here the run stops; the program reckons
      -- with the null pointer, leaves the file empty and goes on with a wrong size.
      | none => .error .nullDereference
      | some str =>
          downloadLoop (sock.inp.length + 1) sock
              (Download.write ⟨[], 0⟩ (bytes.drop (str + 4))) >>=
            fun (d, sock) => .ok (some d, sock)

/-! ### Responses -/

/-- A response, whose header is ended by the first empty line. -/
structure HttpResponse where
  header : Bytes
  body : Bytes
  header_ends : findBytes headerEnd (header ++ headerEnd) = some header.length

namespace HttpResponse

variable (r : HttpResponse)

def text : Bytes := r.header ++ headerEnd ++ r.body

def Captured (sock : Socket) : Prop :=
  ∃ sock', downloadIt sock = .ok (some ⟨r.body, UInt64.ofNat r.body.length⟩, sock')

end HttpResponse

def firstChunk (sock : Socket) : Bytes := (recv sock 1023).1.getD []

/-! ### The loop -/

theorem Download.write_write (d : Download) (a b : Bytes) :
    (d.write a).write b = d.write (a ++ b) := by
  simp only [Download.write, List.append_assoc, List.length_append, UInt64.ofNat_add,
    UInt64.add_assoc]

theorem Download.write_nil (d : Download) : d.write [] = d := by
  simp [Download.write]

/-- The loop writes all that is still to come. -/
theorem downloadLoop_spec {fuel : ℕ} {sock : Socket} (hsock : sock.RecvReliable)
    (hfuel : sock.inp.length < fuel) (d : Download) :
    ∃ sock', downloadLoop fuel sock d = .ok (d.write sock.inp, sock') := by
  induction fuel generalizing sock d with
  | zero => omega
  | succ fuel ih =>
      obtain ⟨-, -, -, hfail⟩ | ⟨bytes, sock₁, hrecv, hstep, -, hend⟩ := recv_cases sock 1023
      · exact absurd hsock hfail
      rw [downloadLoop, hrecv]
      simp only
      split
      · rename_i hne
        have hshorter := hstep.length_lt hne
        obtain ⟨sock', hloop⟩ := ih (hstep.reliable hsock) (by omega) (d.write bytes)
        exact ⟨sock', by rw [hloop, Download.write_write, ← hstep.inp]⟩
      · rename_i hempty
        have hinp : sock.inp = [] := by simpa using hend (not_not.mp hempty)
        exact ⟨sock₁, by rw [hinp, Download.write_nil]⟩

/-! ### The header -/

theorem headerEnd_ne_nil : headerEnd ≠ [] := by decide

/-- The string in the buffer is the first chunk up to a zero byte. -/
theorem cStr_append_replicate (bytes : Bytes) (n : ℕ) :
    cStr (bytes ++ List.replicate n 0) = cStr bytes := by
  by_cases h : 0 ∈ bytes
  · exact cStr_append_of_mem h _
  · have hzeros : cStr (List.replicate n 0) = [] := by
      cases n <;> rfl
    rw [cStr_append h, hzeros, List.append_nil, cStr_eq_self h]

theorem recv_firstChunk {sock : Socket} (hsock : sock.RecvReliable) :
    ∃ sock', recv sock 1023 = (some (firstChunk sock), sock') ∧
      RecvStep sock sock' (firstChunk sock) := by
  obtain ⟨-, -, -, hfail⟩ | ⟨bytes, sock₁, hrecv, hstep, -⟩ := recv_cases sock 1023
  · exact absurd hsock hfail
  · have hchunk : firstChunk sock = bytes := by rw [firstChunk, hrecv, Option.getD_some]
    rw [hchunk]
    exact ⟨sock₁, hrecv, hstep⟩

namespace HttpResponse

variable {r : HttpResponse} {sock : Socket}

theorem findBytes_text (body : Bytes) :
    findBytes headerEnd (r.header ++ headerEnd ++ body) = some r.header.length :=
  findBytes_append headerEnd_ne_nil r.header_ends body

/-- A header that is all in the first chunk, without a zero byte, is found. -/
theorem captured_of_le (hinp : sock.inp = r.text) (hsock : sock.RecvReliable)
    (hheader : r.header.length + headerEnd.length ≤ (firstChunk sock).length)
    (hzero : 0 ∉ r.header) : r.Captured sock := by
  obtain ⟨sock₁, hrecv, hstep⟩ := recv_firstChunk hsock
  have hinp' := hstep.inp
  rw [hinp, text] at hinp'
  have hprefix : r.header ++ headerEnd <+: firstChunk sock := by
    refine List.prefix_of_prefix_length_le (List.prefix_append _ r.body) ?_ ?_
    · rw [hinp']
      exact List.prefix_append _ _
    · rwa [List.length_append]
  obtain ⟨begun, hbegun⟩ := hprefix
  have hbody : r.body = begun ++ sock₁.inp := by
    rw [← hbegun, List.append_assoc _ begun] at hinp'
    exact List.append_cancel_left hinp'
  have hzero' : 0 ∉ r.header ++ headerEnd := by
    rw [List.mem_append, not_or]
    exact ⟨hzero, by decide⟩
  have hfind : findBytes headerEnd (cStr (firstChunk sock ++
      List.replicate (1024 - (firstChunk sock).length) 0)) = some r.header.length := by
    rw [cStr_append_replicate, ← hbegun, cStr_append hzero', findBytes_text]
  have hdrop : (firstChunk sock).drop (r.header.length + 4) = begun := by
    rw [← hbegun]
    exact List.drop_left' (List.length_append.trans rfl)
  obtain ⟨sock', hloop⟩ := downloadLoop_spec (hstep.reliable hsock) (Nat.lt_succ_self _)
    (Download.write ⟨[], 0⟩ begun)
  refine ⟨sock', ?_⟩
  rw [downloadIt, hrecv]
  simp only [hfind, hdrop, hloop, Download.write_write, ← hbody]
  simp [Download.write]

theorem le_of_captured (hinp : sock.inp = r.text) (hsock : sock.RecvReliable)
    (h : r.Captured sock) :
    r.header.length + headerEnd.length ≤ (firstChunk sock).length ∧ 0 ∉ r.header := by
  obtain ⟨sock₁, hrecv, hstep⟩ := recv_firstChunk hsock
  have hchunk : cStr (firstChunk sock) <+: firstChunk sock := List.takeWhile_prefix _
  have htext : cStr (firstChunk sock) <+: r.text := by
    rw [← hinp, hstep.inp]
    exact hchunk.trans (List.prefix_append _ _)
  obtain ⟨sock', h⟩ := h
  rw [downloadIt, hrecv] at h
  simp only [cStr_append_replicate] at h
  cases hfind : findBytes headerEnd (cStr (firstChunk sock)) with
  | none =>
      rw [hfind] at h
      cases h
  | some str =>
      obtain ⟨rest, hrest⟩ := htext
      -- the first place in the text is the first place in the string
      have hfound := findBytes_append headerEnd_ne_nil hfind rest
      rw [hrest, text, findBytes_text, Option.some.injEq] at hfound
      have hlength := ((findBytes_eq_some_iff headerEnd_ne_nil).mp hfind).1.length_le
      rw [List.length_drop, ← hfound] at hlength
      have hpos : 0 < headerEnd.length := by decide
      refine ⟨?_, fun hzero => ?_⟩
      · have hle := hchunk.length_le
        omega
      · have hheader : r.header <+: cStr (firstChunk sock) := by
          refine List.prefix_of_prefix_length_le ?_ ⟨rest, hrest⟩ (by omega)
          rw [text, List.append_assoc]
          exact List.prefix_append _ _
        have hne := List.mem_takeWhile_imp (hheader.subset hzero)
        simp at hne

end HttpResponse

/-- **A body is captured**, however the response arrives, just when all of the header
is in the first chunk and has no zero byte. -/
theorem captured_iff (r : HttpResponse) (sock : Socket) (hinp : sock.inp = r.text)
    (hsock : sock.RecvReliable) :
    r.Captured sock ↔
      r.header.length + headerEnd.length ≤ (firstChunk sock).length ∧ 0 ∉ r.header :=
  ⟨HttpResponse.le_of_captured hinp hsock,
    fun h => HttpResponse.captured_of_le hinp hsock h.1 h.2⟩

def threeBytes : HttpResponse := ⟨bytesOf "HTTP/1.1 200 OK", [0, 13, 10], by decide⟩

theorem captured_iff_threeBytes :
    threeBytes.Captured ⟨threeBytes.text, [.transfers 19, .transfers 0], [], []⟩ ↔
      threeBytes.header.length + headerEnd.length ≤
          (firstChunk ⟨threeBytes.text, [.transfers 19, .transfers 0], [], []⟩).length ∧
        0 ∉ threeBytes.header :=
  captured_iff threeBytes ⟨threeBytes.text, [.transfers 19, .transfers 0], [], []⟩ rfl
    (by simp [Socket.RecvReliable])

/-- The header comes in two chunks, cut in the middle of its end. -/
theorem not_captured_split :
    ¬ threeBytes.Captured ⟨threeBytes.text, [.transfers 16], [], []⟩ := by
  rintro ⟨sock', h⟩
  have hcrash : (downloadIt ⟨threeBytes.text, [.transfers 16], [], []⟩).map Prod.fst =
      .error .nullDereference := by decide +kernel
  rw [h] at hcrash
  cases hcrash

end Daobell
