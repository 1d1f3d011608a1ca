import Daobell.Http.Progress
import Daobell.Http.Ranges
import Daobell.Http.Session
import Daobell.Tracker.Request

/-!
A file that is downloaded from a server, from the URL to the merged file: the size is read
off the header of a first answer, each thread asks for its range, and what comes is put
together again.
-/

namespace Daobell

open Lib

/-! ### The server -/

def requestHost (request : Bytes) : Bytes :=
  (((request.dropWhile (· ≠ 10)).drop 1).drop 6).takeWhile (· ≠ 13)

/-- The length is spelled as it is looked for, and nowhere else. -/
def ResponseHeader.Plain (h : ResponseHeader) : Prop :=
  h.field.name = bytesOf "Content-Length" ∧
    ∀ line ∈ headerLines h.status (h.front ++ h.back), ∀ e ∈ colonEntry line,
      ¬ bytesOf "Content-Length" <:+: e.1

/-- A server with the files that it has, by their hosts and paths, and the headers of its
answers. -/
structure HttpServer where
  files : Bytes → Bytes → Option Bytes
  header : Bytes → ResponseHeader
  plain : ∀ request, (header request).Plain
  length_eq : ∀ request, ∀ content ∈ files (requestHost request) (requestTarget request),
    (header request).length = (rangeReply content request).length

def HttpServer.answer (server : HttpServer) (request : Bytes) : Bytes :=
  (server.header request).text ++
    ((server.files (requestHost request) (requestTarget request)).map
      (rangeReply · request)).getD []

/-! ### Headers -/

section

variable {lines : List Bytes}

theorem headerText_cons (line : Bytes) (lines : List Bytes) :
    headerText (line :: lines) = (line ++ bytesOf "\r") ++ '\n'.toUInt8 :: headerText lines := by
  rw [headerText, headerText, List.flatMap_cons, List.append_assoc, List.append_assoc,
    List.append_assoc]
  rfl

/-- The loop goes over the lines of a header, and does not look behind it. -/
theorem parseLoop_headerText {fuel : ℕ} (hfuel : lines.length < fuel)
    (hlines : ∀ line ∈ lines, line ≠ [] ∧ '\n'.toUInt8 ∉ line) (more : Bytes) (m : HeaderMap) :
    parseLoop fuel (headerText lines ++ more) m =
      (lines.map (· ++ bytesOf "\r")).foldlM parseLine m := by
  induction lines generalizing fuel m with
  | nil =>
      obtain ⟨fuel, rfl⟩ := Nat.exists_eq_succ_of_ne_zero (Nat.ne_zero_of_lt hfuel)
      have hend : headerText [] ++ more = bytesOf "\r" ++ '\n'.toUInt8 :: more := rfl
      rw [hend, parseLoop, getline_append_cons (by decide)]
      rfl
  | cons line lines ih =>
      obtain ⟨⟨hne, hfree⟩, hrest⟩ := List.forall_mem_cons.mp hlines
      obtain ⟨fuel, rfl⟩ := Nat.exists_eq_succ_of_ne_zero (Nat.ne_zero_of_lt hfuel)
      have hcr : '\n'.toUInt8 ∉ line ++ bytesOf "\r" := by
        rw [List.mem_append, not_or]
        exact ⟨hfree, by decide⟩
      have hend : line ++ bytesOf "\r" ≠ bytesOf "\r" := fun h =>
        hne (List.append_cancel_right (h.trans (List.nil_append _).symm))
      rw [headerText_cons, List.append_assoc, List.cons_append, parseLoop, getline_append_cons hcr]
      simp only [if_neg hend, List.map_cons, List.foldlM_cons]
      exact bind_congr fun m => ih (Nat.lt_of_succ_lt_succ hfuel) hrest m

theorem headerEnd_prefix_drop {s : Bytes} {i : ℕ} (h : headerEnd <+: s.drop i) :
    s[i]? = some 13 ∧ s[i + 1]? = some 10 ∧ s[i + 2]? = some 13 ∧ s[i + 3]? = some 10 := by
  obtain ⟨t, ht⟩ := h
  have hget (k : ℕ) : s[i + k]? = (headerEnd ++ t)[k]? := by rw [ht, List.getElem?_drop]
  exact ⟨hget 0, hget 1, hget 2, hget 3⟩

theorem headerText_cons' (line : Bytes) (lines : List Bytes) :
    headerText (line :: lines) = line ++ 13 :: 10 :: headerText lines := by
  rw [headerText_cons, List.append_assoc]
  rfl

/-- A header does not begin with the end of a line, if there is a line in it. -/
theorem eq_nil_of_getElem? (hlines : ∀ line ∈ lines, line ≠ [] ∧ '\n'.toUInt8 ∉ line)
    (h : (headerText lines)[1]? = some 10) : lines = [] := by
  cases lines with
  | nil => rfl
  | cons line lines =>
      obtain ⟨hne, hfree⟩ := hlines line List.mem_cons_self
      rw [headerText_cons'] at h
      match line with
      | [] => exact absurd rfl hne
      | [_] => cases h
      | _ :: b :: _ =>
          obtain rfl := Option.some.inj h
          exact absurd (List.mem_cons_of_mem _ List.mem_cons_self) hfree

theorem eq_of_headerEnd_prefix (hlines : ∀ line ∈ lines, line ≠ [] ∧ '\n'.toUInt8 ∉ line) {i : ℕ}
    (h : headerEnd <+: (headerText lines).drop i) : i + 4 = (headerText lines).length := by
  induction lines generalizing i with
  | nil =>
      have hlen := h.length_le
      have htwo : (headerText []).length = 2 := rfl
      have hfour : headerEnd.length = 4 := rfl
      rw [List.length_drop] at hlen
      omega
  | cons line lines ih =>
      obtain ⟨⟨-, hfree⟩, hrest⟩ := List.forall_mem_cons.mp hlines
      obtain ⟨hcr, hlf, -, hlf'⟩ := headerEnd_prefix_drop h
      rw [headerText_cons'] at h hcr hlf hlf' ⊢
      rcases Nat.lt_trichotomy i line.length with hlt | rfl | hgt
      · -- the newline would stand in the line, or where its carriage return is
        rcases Nat.lt_or_eq_of_le (Nat.succ_le_of_lt hlt) with hlt' | heq
        · rw [List.getElem?_append_left hlt'] at hlf
          exact absurd (List.mem_of_getElem? hlf) hfree
        · rw [Nat.succ_eq_add_one] at heq
          rw [heq, List.getElem?_append_right le_rfl, Nat.sub_self] at hlf
          cases hlf
      · rw [List.getElem?_append_right (Nat.le_add_right _ _), Nat.add_sub_cancel_left] at hlf'
        rw [eq_nil_of_getElem? hrest hlf']
        rw [List.length_append]
        rfl
      · obtain ⟨k, rfl⟩ := Nat.exists_eq_add_of_lt hgt
        cases k with
        | zero =>
            rw [List.getElem?_append_right (by omega), Nat.add_zero, Nat.add_sub_cancel_left] at hcr
            cases hcr
        | succ k =>
            have hdrop : (line ++ 13 :: 10 :: headerText lines).drop (line.length + (k + 1) + 1) =
                (headerText lines).drop k := by
              rw [Nat.add_assoc, List.drop_length_add_append]
              rfl
            rw [hdrop] at h
            have hrec := ih hrest h
            simp only [List.length_append, List.length_cons]
            omega

theorem exists_headerEnd (hne : lines ≠ []) : ∃ header, header ++ headerEnd = headerText lines := by
  induction lines with
  | nil => exact absurd rfl hne
  | cons line lines ih =>
      rw [headerText_cons']
      by_cases hnil : lines = []
      · subst hnil
        exact ⟨line, rfl⟩
      · obtain ⟨header, hheader⟩ := ih hnil
        exact ⟨line ++ 13 :: 10 :: header, by simp [hheader]⟩

end

namespace ResponseHeader

variable (h : ResponseHeader)

theorem line_of_mem {line : Bytes} (hline : line ∈ h.lines) : line ≠ [] ∧ '\n'.toUInt8 ∉ line :=
  ⟨h.line_ne_nil hline, h.line_notMem (by decide) hline⟩

theorem httpHeaderParser_append (more : Bytes) :
    httpHeaderParser (h.text ++ more) = httpHeaderParser h.text := by
  have hloop (fuel : ℕ) (hfuel : h.text.length < fuel) (more : Bytes) :
      parseLoop fuel (h.text ++ more) [] = (h.lines.map (· ++ bytesOf "\r")).foldlM parseLine [] :=
    parseLoop_headerText ((length_le_headerText h.lines).trans_lt hfuel)
      (fun _ => h.line_of_mem) more []
  rw [httpHeaderParser, httpHeaderParser, cStr_append h.zero_notMem_text,
    cStr_eq_self h.zero_notMem_text, hloop _ (by rw [List.length_append]; omega) (cStr more)]
  have hself := hloop (h.text.length + 1) (Nat.lt_succ_self _) []
  rw [List.append_nil] at hself
  exact hself.symm

theorem exists_response (body : Bytes) :
    ∃ r : HttpResponse, r.text = h.text ++ body ∧ r.body = body ∧
      r.header.length + headerEnd.length = h.text.length ∧ 0 ∉ r.header := by
  obtain ⟨header, hheader⟩ := exists_headerEnd (show h.lines ≠ [] from List.cons_ne_nil _ _)
  have htext : header ++ headerEnd = h.text := hheader
  have hends : findBytes headerEnd (header ++ headerEnd) = some header.length := by
    refine (findBytes_eq_some_iff headerEnd_ne_nil).mpr ⟨?_, fun j hj hprefix => ?_⟩
    · rw [List.drop_left]
    · rw [hheader] at hprefix
      have heq := eq_of_headerEnd_prefix (fun _ => h.line_of_mem) hprefix
      rw [← hheader, List.length_append, show headerEnd.length = 4 from rfl] at heq
      omega
  refine ⟨⟨header, body, hends⟩, by rw [HttpResponse.text, htext], rfl, ?_, fun hzero => ?_⟩
  · rw [← htext, List.length_append]
  · exact h.zero_notMem_text (htext ▸ List.mem_append_left _ hzero)

end ResponseHeader

/-! ### Requests -/

structure HttpUrlParser.Asks (hup : HttpUrlParser) (request : Bytes) : Prop where
  host : requestHost request = hup.domain
  target : requestTarget request = hup.path

/-- The host and the path do not end the line in which they stand, nor the target. -/
structure HttpUrlParser.OneLine (hup : HttpUrlParser) : Prop where
  path : 32 ∉ hup.path ∧ 10 ∉ hup.path
  domain : 13 ∉ hup.domain

theorem HttpUrlParser.OneLine.asks {hup : HttpUrlParser} (h : hup.OneLine) (more : Bytes) :
    hup.Asks (bytesOf "GET " ++ hup.path ++ bytesOf " HTTP/1.1\r\nHost: " ++
      (hup.domain ++ 13 :: more)) where
  host := by
    have htext : bytesOf "GET " ++ hup.path ++ bytesOf " HTTP/1.1\r\nHost: " ++
        (hup.domain ++ 13 :: more) = (bytesOf "GET " ++ hup.path ++ bytesOf " HTTP/1.1\r") ++
          10 :: (bytesOf "Host: " ++ (hup.domain ++ 13 :: more)) := by
      simp only [List.append_assoc]
      rfl
    have hline : 10 ∉ bytesOf "GET " ++ hup.path ++ bytesOf " HTTP/1.1\r" := by
      simp only [List.mem_append, not_or]
      exact ⟨⟨by decide, h.path.2⟩, by decide⟩
    rw [requestHost, htext, dropWhile_append_cons hline, List.drop_one, List.tail_cons]
    exact takeWhile_append_cons h.domain more
  target := by
    have htext : bytesOf "GET " ++ hup.path ++ bytesOf " HTTP/1.1\r\nHost: " ++
        (hup.domain ++ 13 :: more) = bytesOf "GET " ++ (hup.path ++
          32 :: (bytesOf "HTTP/1.1\r\nHost: " ++ (hup.domain ++ 13 :: more))) := by
      simp only [List.append_assoc]
      rfl
    rw [htext, requestTarget_append h.path.1]

section

variable {d : HttpMultiThreadsDownloader} {request : Bytes}

theorem asks_genRequestHeader (h : d.hup.OneLine) (hrequest : d.genRequestHeader = some request) :
    d.hup.Asks request := by
  rw [HttpMultiThreadsDownloader.genRequestHeader] at hrequest
  split at hrequest
  · obtain rfl := Option.some.inj hrequest
    rw [List.append_assoc _ d.hup.domain]
    exact h.asks _
  · cases hrequest

theorem asks_genRangeHeader (h : d.hup.OneLine) (hrequest : d.genRangeHeader = some request) :
    d.hup.Asks request := by
  rw [HttpMultiThreadsDownloader.genRangeHeader] at hrequest
  split at hrequest
  · have htext : request = bytesOf "GET " ++ d.hup.path ++ bytesOf " HTTP/1.1\r\nHost: " ++
        (d.hup.domain ++ 13 :: (bytesOf "\nConnection: Close\r\nRange: bytes=" ++
          decimal d.threadOffsetBeg.toNat ++ bytesOf "-" ++ decimal d.threadOffsetEnd.toNat ++
          bytesOf "\r\n\r\n")) := by
      rw [← Option.some.inj hrequest]
      simp only [List.append_assoc]
      rfl
    rw [htext]
    exact h.asks _
  · cases hrequest

theorem rangeReply_genRequestHeader (content : Bytes)
    (hrequest : d.genRequestHeader = some request) : rangeReply content request = content := by
  rw [HttpMultiThreadsDownloader.genRequestHeader] at hrequest
  split at hrequest
  · have htext : request = (bytesOf "GET " ++ d.hup.path ++ bytesOf " HTTP/1.1\r\nHost: " ++
        d.hup.domain ++ bytesOf "\r") ++ [10] ++ bytesOf "Connection: Close" ++
        bytesOf "\r\n\r\n" := by
      rw [← Option.some.inj hrequest]
      simp only [List.append_assoc]
      rfl
    have hnone : byteRange (bytesOf "Connection: Close") = none := by decide
    rw [rangeReply, htext, lastField_append (by decide), hnone]
  · cases hrequest

end

theorem oneLine_httpUrlParser {url : Bytes} (hvalid : (httpUrlParser url).valid = true)
    (hline : 10 ∉ url ∧ 13 ∉ url) : (httpUrlParser url).OneLine := by
  obtain ⟨u, hu⟩ := exists_parts_of_valid hvalid
  have htext {b : UInt8} (hb : b ∈ u.text) : b ∈ url :=
    (List.takeWhile_prefix _).subset (hu ▸ hb)
  rw [u.httpUrlParser_text hu]
  refine ⟨⟨fun h => u.path_free 32 h (by decide), fun h => hline.1 (htext ?_)⟩,
    fun h => hline.2 (htext ?_)⟩
  · simp only [UrlParts.text, List.mem_append]
    tauto
  · simp only [UrlParts.text, List.mem_append]
    tauto

/-! ### A connection -/

def Reply.Moves (n : ℕ) : Reply → Prop
  | .transfers k => n ≤ k + 1
  | .error => False

instance (n : ℕ) : DecidablePred (Reply.Moves n)
  | .transfers k => inferInstanceAs (Decidable (n ≤ k + 1))
  | .error => inferInstanceAs (Decidable False)

/-- The socket is connected; the request is sent at once, and the header of the answer comes
at once. -/
structure HttpAttempt.Prompt (a : HttpAttempt) (server : HttpServer) (request : Bytes) : Prop where
  socket : ∃ sock, a.socket = some (sock + 1)
  connect : a.connect = true
  sends : ∀ r ∈ a.sends.head?, r.Moves request.length
  recvs : ∀ r ∈ a.recvs.head?, r.Moves (server.header request).text.length
  header : (server.header request).text.length ≤ 1023

def HttpNet.Leads (net : HttpNet) (name : Bytes) (server : HttpServer) : Prop :=
  ∃ addr, net.gethostbyname (cStr name) = some addr ∧ net.answer addr = server.answer

section

variable {inp out buff : Bytes} {recvs sends : List Reply} {n : ℕ}

theorem send_moves (h : ∀ r ∈ sends.head?, r.Moves buff.length) :
    send ⟨inp, recvs, out, sends⟩ buff =
      (some buff.length, ⟨inp, recvs, out ++ buff, sends.tail⟩) := by
  rcases sends with _ | ⟨k | _, sends⟩
  · rfl
  · have hle : buff.length ≤ k + 1 := h _ rfl
    show (some (min (k + 1) buff.length), Socket.mk inp recvs (out ++ buff.take (k + 1)) sends) = _
    rw [List.take_of_length_le hle, Nat.min_eq_right hle]
    rfl
  · exact (h _ rfl).elim

theorem recv_moves {sock : Socket} (h : ∀ r ∈ sock.recvs.head?, r.Moves n) (hn : n ≤ 1023)
    (hinp : n ≤ sock.inp.length) :
    ∃ bytes sock', recv sock 1023 = (some bytes, sock') ∧ n ≤ bytes.length ∧
      bytes <+: sock.inp := by
  obtain ⟨inp, recvs, out, sends⟩ := sock
  rcases recvs with _ | ⟨k | _, recvs⟩
  · refine ⟨_, _, rfl, ?_, List.take_prefix _ _⟩
    rw [List.length_take]
    exact le_min hn hinp
  · refine ⟨_, _, rfl, ?_, List.take_prefix _ _⟩
    rw [List.length_take]
    exact le_min (le_min (h _ rfl) hn) hinp
  · exact (h _ rfl).elim

end

/-! ### A thread before it receives -/

section

variable {net : HttpNet} {server : HttpServer} {a : HttpAttempt} {c : HttpClient}
  {request content : Bytes}

structure HttpClient.Connected (net : HttpNet) (server : HttpServer) (a : HttpAttempt)
    (c : HttpClient) : Prop where
  sock : c.sock ≠ some 0
  answer : net.answer c.addr = server.answer
  stream : c.stream = ⟨[], a.recvs, [], a.sends⟩

theorem HttpClient.init_spec (ha : a.Prompt server request)
    (hleads : net.Leads (httpUrlParser c.url).domain server) :
    ∃ c', c.init net a = .ok (true, c') ∧ c'.Connected net server a ∧ c'.url = c.url ∧
      c'.d = { c.d with hup := (httpUrlParser c.url).toHttpUrlParser } := by
  obtain ⟨sock, hsock⟩ := ha.socket
  obtain ⟨addr, hname, hanswer⟩ := hleads
  rw [HttpClient.init, HttpClient.connectServer, hsock]
  simp only [hname, ha.connect, if_true]
  exact ⟨_, rfl, ⟨by simp, hanswer, rfl⟩, rfl, rfl⟩

theorem HttpClient.sendRequest_spec (hc : c.Connected net server a)
    (ha : a.Prompt server request) :
    ∃ c', c.sendRequest net request = (true, c') ∧
      c'.stream = ⟨server.answer request, a.recvs, request, a.sends.tail⟩ ∧ c'.url = c.url ∧
      c'.d = c.d := by
  rw [HttpClient.sendRequest, hc.stream, send_moves ha.sends]
  refine ⟨_, rfl, ?_, rfl, rfl⟩
  rw [List.nil_append, List.nil_append, hc.answer]

theorem HttpServer.answer_eq {hup : HttpUrlParser} (hasks : hup.Asks request)
    (hfile : server.files hup.domain hup.path = some content) :
    server.answer request = (server.header request).text ++ rangeReply content request := by
  rw [HttpServer.answer, hasks.host, hasks.target, hfile]
  rfl

theorem HttpServer.length_found {hup : HttpUrlParser} (hasks : hup.Asks request)
    (hfile : server.files hup.domain hup.path = some content) (more : Bytes) :
    ∃ m, httpHeaderParser ((server.header request).text ++ more) = .ok m ∧
      getContentLength m = (rangeReply content request).length := by
  obtain ⟨m, hm, hlength⟩ := (server.header request).found_of_plain (server.plain request).1
    (server.plain request).2
  refine ⟨m, ((server.header request).httpHeaderParser_append more).trans hm, hlength.trans ?_⟩
  refine server.length_eq request content ?_
  rw [hasks.host, hasks.target, hfile]
  rfl

theorem HttpClient.query_spec (hc : c.Connected net server a)
    (hrequest : c.d.genRequestHeader = some request) (ha : a.Prompt server request)
    (hone : c.d.hup.OneLine)
    (hfile : server.files c.d.hup.domain c.d.hup.path = some content) :
    ∃ c', c.sendRequestQueryHttpHeader net = .ok c' ∧ c'.url = c.url ∧
      c'.d = { c.d with fileSize := UInt64.ofNat content.length } := by
  have hasks := asks_genRequestHeader hone hrequest
  obtain ⟨c₁, hsend, hstream, hurl, hd⟩ := HttpClient.sendRequest_spec hc ha
  have hanswer := HttpServer.answer_eq hasks hfile
  have hinp : c₁.stream.inp = (server.header request).text ++ rangeReply content request := by
    rw [hstream, hanswer]
  obtain ⟨buff, stream, hrecv, hle, hprefix⟩ :
      ∃ buff stream, recv c₁.stream 1023 = (some buff, stream) ∧
        (server.header request).text.length ≤ buff.length ∧ buff <+: c₁.stream.inp := by
    refine recv_moves ?_ ha.header ?_
    · rw [hstream]
      exact ha.recvs
    · rw [hinp, List.length_append]
      exact Nat.le_add_right _ _
  obtain ⟨more, rfl⟩ : (server.header request).text <+: buff :=
    List.prefix_of_prefix_length_le (hinp ▸ List.prefix_append _ _) hprefix hle
  obtain ⟨m, hm, hlength⟩ := HttpServer.length_found hasks hfile more
  rw [rangeReply_genRequestHeader content hrequest] at hlength
  rw [HttpClient.sendRequestQueryHttpHeader, if_neg hc.sock, hrequest]
  simp only [hsend, hrecv, hm, ok_bind]
  exact ⟨_, rfl, hurl, by rw [hd, hlength]⟩

theorem answers_of_prompt {hup : HttpUrlParser} (hasks : hup.Asks request)
    (hfile : server.files hup.domain hup.path = some content) (ha : a.Prompt server request)
    {sock : Socket} (hinp : sock.inp = server.answer request) (hrecvs : sock.recvs = a.recvs) :
    sock.Answers (rangeReply content request) := by
  rw [HttpServer.answer_eq hasks hfile] at hinp
  obtain ⟨r, htext, hbody, hlength, hzero⟩ :=
    (server.header request).exists_response (rangeReply content request)
  refine ⟨r, hbody, hinp.trans htext.symm, hzero, fun bytes sock' hrecv => ?_⟩
  obtain ⟨bytes', sock₁, hrecv', hle, -⟩ :
      ∃ bytes' sock₁, recv sock 1023 = (some bytes', sock₁) ∧
        (server.header request).text.length ≤ bytes'.length ∧ bytes' <+: sock.inp := by
    refine recv_moves ?_ ha.header ?_
    · rw [hrecvs]
      exact ha.recvs
    · rw [hinp, List.length_append]
      exact Nat.le_add_right _ _
  cases hrecv.symm.trans hrecv'
  rwa [hlength]

end

structure Served (net : HttpNet) (server : HttpServer) (url content : Bytes) : Prop where
  valid : (httpUrlParser url).valid = true
  oneLine : 10 ∉ url ∧ 13 ∉ url
  leads : net.Leads (httpUrlParser url).domain server
  file : server.files (httpUrlParser url).domain (httpUrlParser url).path = some content

section

variable {net : HttpNet} {server : HttpServer} {url content : Bytes} {c : HttpClient}

def HttpClient.sized (c : HttpClient) (content : Bytes) : HttpMultiThreadsDownloader :=
  { c.d with
    hup := (httpUrlParser c.url).toHttpUrlParser
    fileSize := UInt64.ofNat content.length }

theorem Served.genRequestHeader (h : Served net server c.url content) :
    ∃ request, (c.sized content).genRequestHeader = some request := ⟨_, if_pos h.valid⟩

theorem Served.genRangeHeader (h : Served net server c.url content) :
    ∃ request, (c.sized content).genRangeHeader = some request := ⟨_, if_pos h.valid⟩

theorem Served.query (h : Served net server c.url content) {a : HttpAttempt}
    (ha : ∀ request ∈ (c.sized content).genRequestHeader, a.Prompt server request) :
    ∃ c₁ c₂, c.init net a = .ok (true, c₁) ∧ c₁.sendRequestQueryHttpHeader net = .ok c₂ ∧
      c₂.url = c.url ∧ c₂.d = c.sized content := by
  obtain ⟨request, hrequest⟩ := h.genRequestHeader
  have ha := ha request hrequest
  have hone := oneLine_httpUrlParser h.valid h.oneLine
  obtain ⟨c₁, hinit, hc₁, hurl, hd⟩ := HttpClient.init_spec ha h.leads
  have hfile : server.files c₁.d.hup.domain c₁.d.hup.path = some content := hd ▸ h.file
  obtain ⟨c₂, hquery, hurl', hd'⟩ :=
    HttpClient.query_spec hc₁ (hd ▸ hrequest) ha (hd ▸ hone) hfile
  exact ⟨c₁, c₂, hinit, hquery, hurl'.trans hurl, by rw [hd', hd]; rfl⟩

theorem Served.getFileSize (h : Served net server c.url content) {a : HttpAttempt}
    (ha : ∀ request ∈ (c.sized content).genRequestHeader, a.Prompt server request) :
    ∃ c', c.getFileSize net a = .ok (UInt64.ofNat content.length, c') ∧ c'.url = c.url ∧
      c'.d = c.sized content := by
  obtain ⟨c₁, c₂, hinit, hquery, hurl, hd⟩ := h.query ha
  refine ⟨c₂, ?_, hurl, hd⟩
  rw [HttpClient.getFileSize, hinit]
  simp only [ok_bind, if_true, hquery, hd]
  rfl

theorem Served.downloadItStart (h : Served net server c.url content) {first second : HttpAttempt}
    (hfirst : ∀ request ∈ (c.sized content).genRequestHeader, first.Prompt server request)
    (hsecond : ∀ request ∈ (c.sized content).genRangeHeader, second.Prompt server request) :
    ∃ c', c.downloadItStart net first second = .ok (true, c') ∧ c'.d = c.sized content ∧
      ∃ request, (c.sized content).genRangeHeader = some request ∧
        c'.stream.Answers (rangeReply content request) := by
  obtain ⟨c₁, c₂, hinit, hquery, hurl, hd⟩ := h.query hfirst
  obtain ⟨request, hrequest⟩ := h.genRangeHeader
  have hsecond := hsecond request hrequest
  have hasks := asks_genRangeHeader (oneLine_httpUrlParser h.valid h.oneLine) hrequest
  obtain ⟨c₃, hinit', hc₃, -, hd'⟩ := HttpClient.init_spec hsecond (c := c₂) (hurl ▸ h.leads)
  obtain ⟨c₄, hsend, hstream, -, hd''⟩ := HttpClient.sendRequest_spec hc₃ hsecond
  refine ⟨c₄, ?_, ?_, request, hrequest, ?_⟩
  · rw [HttpClient.downloadItStart, hinit]
    simp only [ok_bind, if_true, hquery, HttpClient.sendRangeRequest, hinit', hd, hrequest,
      Option.getD_some, hsend]
  · rw [hd'', hd', hd, hurl]
    rfl
  · exact answers_of_prompt hasks h.file hsecond (by rw [hstream]) (by rw [hstream])

end

theorem exists_mapM {ι β : Type} {f : ι → Except Crash β} {P : β → ι → Prop} {is : List ι}
    (h : ∀ i ∈ is, ∃ b, f i = .ok b ∧ P b i) :
    ∃ bs, is.mapM f = .ok bs ∧ List.Forall₂ P bs is := by
  induction is with
  | nil => exact ⟨[], rfl, .nil⟩
  | cons i is ih =>
      obtain ⟨⟨b, hb, hP⟩, hrest⟩ := List.forall_mem_cons.mp h
      obtain ⟨bs, hbs, hall⟩ := ih hrest
      refine ⟨b :: bs, ?_, .cons hP hall⟩
      rw [List.mapM_cons, hb, hbs]
      rfl

section

variable {net : HttpNet} {server : HttpServer} {url content : Bytes} {threadCount : UInt64}
  {query : HttpAttempt} {env : ℕ → HttpEnv}

abbrev fetchHmtd (url content : Bytes) (threadCount : UInt64) (i : ℕ) :
    HttpMultiThreadsDownloader :=
  hmtd (httpUrlParser url).toHttpUrlParser (UInt64.ofNat content.length) threadCount i

structure AllPrompt (server : HttpServer) (url content : Bytes) (threadCount : UInt64)
    (query : HttpAttempt) (env : ℕ → HttpEnv) : Prop where
  query : ∀ request ∈ (fetchHmtd url content threadCount 0).genRequestHeader,
    query.Prompt server request
  first : ∀ i < threadCount.toNat,
    ∀ request ∈ (fetchHmtd url content threadCount i).genRequestHeader,
      (env i).first.Prompt server request
  second : ∀ i < threadCount.toNat,
    ∀ request ∈ (fetchHmtd url content threadCount i).genRangeHeader,
      (env i).second.Prompt server request

/-- A client that has asked for its range, which is what comes. -/
structure HttpClient.Receives (url content : Bytes) (threadCount : UInt64) (c : HttpClient)
    (i : ℕ) : Prop where
  d : c.d = fetchHmtd url content threadCount i
  answers : ∃ request, c.d.genRangeHeader = some request ∧
    c.stream.Answers (rangeReply content request)

theorem downloadFileStart_spec (h : Served net server url content)
    (hprompt : AllPrompt server url content threadCount query env) (hcount : threadCount ≠ 0) :
    ∃ clients, downloadFileStart net url threadCount query env =
        .ok (clients, .start (UInt64.ofNat content.length) (clients.map fun c => (c.d, c.stream))) ∧
      List.Forall₂ (HttpClient.Receives url content threadCount) clients
        (List.range threadCount.toNat) := by
  have hnew (i : ℕ) : (newClient url threadCount env i).sized content =
      fetchHmtd url content threadCount i := rfl
  obtain ⟨c, hc, hurl, hd⟩ := Served.getFileSize (c := newClient url threadCount env 0) h
    (hnew 0 ▸ hprompt.query)
  have hclient (i : ℕ) : (if i = 0 then c else newClient url threadCount env i).url = url ∧
      (if i = 0 then c else newClient url threadCount env i).sized content =
        fetchHmtd url content threadCount i := by
    split
    · rename_i hzero
      subst hzero
      refine ⟨hurl, ?_⟩
      rw [HttpClient.sized, hd, hurl]
      rfl
    · exact ⟨rfl, hnew i⟩
  have hthread : ∀ i ∈ List.range threadCount.toNat, ∃ b,
      (if i = 0 then c else newClient url threadCount env i).downloadItStart net (env i).first
        (env i).second = .ok b ∧ b.1 = true ∧ b.2.Receives url content threadCount i := by
    intro i hi
    have hi := List.mem_range.mp hi
    obtain ⟨hurl', hsized⟩ := hclient i
    obtain ⟨c', hstart, hd', hanswers⟩ := Served.downloadItStart (hurl'.symm ▸ h)
      (hsized.symm ▸ hprompt.first i hi) (hsized.symm ▸ hprompt.second i hi)
    rw [hsized] at hd' hanswers
    exact ⟨_, hstart, rfl, hd', by rwa [hd']⟩
  obtain ⟨begun, hbegun, hall⟩ := exists_mapM hthread
  have htrue := ((List.forall₂_and_left _ _).mp hall).1
  have hthreads : begun.map (fun b => b.2.thread b.1) =
      ((begun.map Prod.snd).map fun c => (c.d, c.stream)).map
        fun c => .start c.1.genFileNameTemp c.2 := by
    rw [List.map_map, List.map_map]
    apply List.map_congr_left
    intro b hb
    rw [HttpClient.thread, if_pos (htrue b hb)]
    rfl
  refine ⟨begun.map Prod.snd, ?_, List.forall₂_map_left_iff.mpr (hall.imp fun _ _ hb => hb.2)⟩
  rw [downloadFileStart, if_neg hcount]
  simp only [hc, ok_bind, hbegun, hthreads, HttpDownload.start, List.map_map]
  rfl

theorem map_d_of_receives {clients : List HttpClient}
    (hall : List.Forall₂ (HttpClient.Receives url content threadCount) clients
      (List.range threadCount.toNat)) :
    clients.map HttpClient.d = vecHmtd (httpUrlParser url).toHttpUrlParser
      (UInt64.ofNat content.length) threadCount := by
  have hd : List.Forall₂ (· = ·) (clients.map HttpClient.d)
      ((List.range threadCount.toNat).map (fetchHmtd url content threadCount)) :=
    List.forall₂_map_left_iff.mpr (List.forall₂_map_right_iff.mpr (hall.imp fun _ _ h => h.d))
  rwa [List.forall₂_eq_eq_eq] at hd

def rangeBody (content : Bytes) (d : HttpMultiThreadsDownloader) : Bytes :=
  rangeReply content (d.genRangeHeader.getD [])

theorem answers_of_receives {clients : List HttpClient} {is : List ℕ}
    (hall : List.Forall₂ (HttpClient.Receives url content threadCount) clients is) :
    ∀ c ∈ clients.map (fun c => (c.d, c.stream)), c.2.Answers (rangeBody content c.1) := by
  intro p hp
  obtain ⟨c, hc, rfl⟩ := List.mem_map.mp hp
  obtain ⟨k, hk⟩ := List.mem_iff_getElem?.mp hc
  obtain ⟨i, -, hreceives⟩ := exists_of_forall₂ hall.flip hk
  obtain ⟨request, hrequest, hanswers⟩ := hreceives.answers
  rwa [rangeBody, hrequest]

/-- **A file is fetched.** When the URL leads to a server that has the file, and every
connection is prompt: the size is read off the first answer, and each thread asks for its
part and is sent it. Nothing stops the program, however the threads and the main thread go
on; and if the threads end before the merge, what has been merged in the end is the file of
the server, and the temporary files are gone. -/
theorem run_downloadFile_served (h : Served net server url content)
    (hprompt : AllPrompt server url content threadCount query env) (hcount : 1 < threadCount)
    (hle : threadCount.toNat ≤ content.length) (hsmall : content.length ≤ 2 ^ 53)
    {canOpen : Bytes → Bool}
    (hopen : canOpen (destFileName (vecHmtd (httpUrlParser url).toHttpUrlParser
      (UInt64.ofNat content.length) threadCount)) = true)
    (htemp : ∀ d ∈ vecHmtd (httpUrlParser url).toHttpUrlParser (UInt64.ofNat content.length)
      threadCount, canOpen d.genFileNameTemp = true) :
    ∃ clients start, downloadFileStart net url threadCount query env = .ok (clients, start) ∧
      clients.map HttpClient.d = vecHmtd (httpUrlParser url).toHttpUrlParser
        (UInt64.ofNat content.length) threadCount ∧
      (∀ acts, ∃ s, run (httpStep canOpen) start acts = .ok s) ∧
      ∀ before after m s, run (httpStep canOpen) start before = .ok m → m.Unmerged →
        (∀ th ∈ m.threads, th.place = .finished) → run (httpStep canOpen) m after = .ok s →
        s.main = .finished → s.dest = some content ∧ ∀ th ∈ s.threads, th.linked = false := by
  have hpos : 0 < threadCount := UInt64.lt_trans (by decide) hcount
  have hsize : (UInt64.ofNat content.length).toNat = content.length :=
    UInt64.toNat_ofNat_of_lt' (hsmall.trans_lt (by decide))
  have hle' : threadCount ≤ UInt64.ofNat content.length := by
    rwa [UInt64.le_iff_toNat_le, hsize]
  obtain ⟨clients, hstart, hall⟩ := downloadFileStart_spec h hprompt (UInt64.ne_of_lt hpos).symm
  have hd := map_d_of_receives hall
  have hbody : ∀ d ∈ vecHmtd (httpUrlParser url).toHttpUrlParser (UInt64.ofNat content.length)
      threadCount, ∃ header, d.genRangeHeader = some header ∧
        rangeBody content d = rangeReply content header := by
    intro d hmem
    obtain ⟨i, -, rfl⟩ := List.mem_map.mp hmem
    obtain ⟨header, hheader⟩ : ∃ header, (newHttpMultiThreadsDownloader
        (httpUrlParser url).toHttpUrlParser (UInt64.ofNat content.length) threadCount
        (UInt64.ofNat i)).genRangeHeader = some header := ⟨_, if_pos h.valid⟩
    refine ⟨header, hheader, ?_⟩
    rw [rangeBody, hheader]
    rfl
  obtain ⟨hsized, hsum⟩ := sized_replies hsize hsmall hpos hle' hbody
  have hconns : (clients.map fun c => (c.d, c.stream)).map Prod.fst =
      vecHmtd (httpUrlParser url).toHttpUrlParser (UInt64.ofNat content.length) threadCount := by
    rw [List.map_map, ← hd]
    rfl
  have hsound := sound_downloadStart hconns hsum hopen htemp (answers_of_receives hall)
  have hlen : ((vecHmtd (httpUrlParser url).toHttpUrlParser (UInt64.ofNat content.length)
      threadCount).map (rangeBody content)).length ≠ 1 := by
    rw [List.length_map, length_vecHmtd]
    exact (show 1 < threadCount.toNat from hcount).ne'
  have hflat := flatMap_replies hsize hpos hle' hbody
  rw [List.flatMap_def] at hflat
  refine ⟨clients, _, hstart, hd, fun acts => ?_, fun before after m s hm hun hended hs hfin => ?_⟩
  · obtain ⟨s, hs, -⟩ := run_httpStep_sound hsound hsized acts
    exact ⟨s, hs⟩
  · have hend := hsound.run_ended hsized hlen hm hun hended hs hfin
    rwa [hflat] at hend

end

theorem length_rangeReply_le (content request : Bytes) :
    (rangeReply content request).length ≤ content.length := by
  rw [rangeReply]
  split
  · exact le_rfl
  · dsimp only
    split_ifs
    · exact Nat.zero_le _
    · exact le_rfl
    · rw [List.length_drop, List.length_take]
      omega

theorem free_contentLength :
    ∀ b ∈ bytesOf "Content-Length", b ∉ [':'.toUInt8, '\n'.toUInt8, 0] := by
  decide +kernel

theorem free_ok : ∀ b ∈ bytesOf "1.1 200 OK", b ∉ ['\n'.toUInt8, 0] := by
  decide +kernel

def digitField (n : Fin 6) : HeaderField where
  name := bytesOf "Content-Length"
  value := [32, digitByte n]
  name_free := free_contentLength
  value_free := by
    revert n
    decide +kernel

def digitHeader (n : Fin 6) : ResponseHeader where
  status := bytesOf "1.1 200 OK"
  front := []
  field := digitField n
  back := []
  length := n
  status_free := free_ok
  isContentLength := by
    revert n
    decide +kernel
  unique := by simp
  value_eq := by
    refine ⟨[32], [digitByte n], [], rfl, ?_, List.cons_ne_nil _ _, ?_, ?_⟩
    · decide +kernel
    · revert n
      decide +kernel
    · revert n
      decide +kernel
  length_lt := n.isLt.trans (by decide)
  text_lt := by
    revert n
    decide +kernel

theorem plain_digitHeader (n : Fin 6) : (digitHeader n).Plain := by
  refine ⟨rfl, ?_⟩
  show ∀ line ∈ headerLines (bytesOf "1.1 200 OK") [], ∀ e ∈ colonEntry line,
    ¬ bytesOf "Content-Length" <:+: e.1
  decide

theorem length_digitHeader (n : Fin 6) : (digitHeader n).text.length = 38 := by
  revert n
  decide +kernel

/-- A server with the file `/dir/name` of five bytes. -/
def fiveServer : HttpServer where
  files host path :=
    if host = bytesOf "host" ∧ path = bytesOf "/dir/name" then some [1, 2, 3, 4, 5] else none
  header request := digitHeader (Fin.ofNat 6 (rangeReply [1, 2, 3, 4, 5] request).length)
  plain _ := plain_digitHeader _
  length_eq request content hcontent := by
    split at hcontent
    · obtain rfl := Option.some.inj hcontent
      exact Nat.mod_eq_of_lt (Nat.lt_succ_of_le (length_rangeReply_le _ _))
    · cases hcontent

def fiveNet : HttpNet where
  gethostbyname name := if name = bytesOf "host" then some 0x7f000001 else none
  answer _ := fiveServer.answer

def promptAttempt (sock : ℕ) : HttpAttempt := ⟨some (sock + 1), true, [.transfers 50], []⟩

def promptEnv (i : ℕ) : HttpEnv := ⟨0, promptAttempt (2 * i), promptAttempt (2 * i + 1)⟩

theorem prompt_promptAttempt (sock : ℕ) (request : Bytes) :
    (promptAttempt sock).Prompt fiveServer request := by
  have hheader : (fiveServer.header request).text.length = 38 := length_digitHeader _
  refine ⟨⟨sock, rfl⟩, rfl, fun r hr => ?_, fun r hr => ?_, ?_⟩
  · cases hr
  · obtain rfl := Option.some.inj hr
    rw [hheader]
    decide
  · rw [hheader]
    decide

theorem allPrompt_promptEnv (url content : Bytes) (threadCount : UInt64) :
    AllPrompt fiveServer url content threadCount (promptAttempt 0) promptEnv :=
  ⟨fun _ _ => prompt_promptAttempt _ _, fun _ _ _ _ => prompt_promptAttempt _ _,
    fun _ _ _ _ => prompt_promptAttempt _ _⟩

theorem served_fiveServer :
    Served fiveNet fiveServer (bytesOf "http://host/dir/name") [1, 2, 3, 4, 5] where
  valid := by decide +kernel
  oneLine := by decide
  leads := ⟨0x7f000001, by decide +kernel, rfl⟩
  file := by decide +kernel

def fetchActs : List HttpAct :=
  List.replicate 6 (.thread 0) ++ List.replicate 6 (.thread 1)

theorem run_downloadFile_served_five :
    ∃ clients start, downloadFileStart fiveNet (bytesOf "http://host/dir/name") 2
        (promptAttempt 0) promptEnv = .ok (clients, start) ∧
      ∃ s, run (httpStep named) start
          (fetchActs ++ List.replicate 11 (.main true)) = .ok s ∧
        s.dest = some [1, 2, 3, 4, 5] := by
  have hle : (2 : UInt64).toNat ≤ [(1 : UInt8), 2, 3, 4, 5].length := by decide
  have hsmall : [(1 : UInt8), 2, 3, 4, 5].length ≤ 2 ^ 53 := by decide
  have hopen : named (destFileName (vecHmtd
      (httpUrlParser (bytesOf "http://host/dir/name")).toHttpUrlParser 5 2)) = true := by
    decide +kernel
  have htemp : ∀ d ∈ vecHmtd (httpUrlParser (bytesOf "http://host/dir/name")).toHttpUrlParser 5 2,
      named d.genFileNameTemp = true := by
    decide +kernel
  obtain ⟨clients, start, hstart, -, hruns, hend⟩ := run_downloadFile_served served_fiveServer
    (allPrompt_promptEnv _ _ 2) (by decide) hle hsmall hopen htemp
  refine ⟨clients, start, hstart, ?_⟩
  obtain ⟨m, hm⟩ := hruns fetchActs
  obtain ⟨s, hs⟩ := hruns (fetchActs ++ List.replicate 11 (.main true))
  have hmid : ∃ p, downloadFileStart fiveNet (bytesOf "http://host/dir/name") 2
      (promptAttempt 0) promptEnv = .ok p ∧
        ∃ m, run (httpStep named) p.2 fetchActs = .ok m ∧ m.main = .reading 0 0 ∧
          ∀ th ∈ m.threads, th.place = .finished := by decide +kernel
  have hlast : ∃ p, downloadFileStart fiveNet (bytesOf "http://host/dir/name") 2
      (promptAttempt 0) promptEnv = .ok p ∧
        ∃ s, run (httpStep named) p.2
          (fetchActs ++ List.replicate 11 (.main true)) = .ok s ∧ s.main = .finished := by
    decide +kernel
  obtain ⟨p, hp, m', hm', hmain, hended⟩ := hmid
  cases hstart.symm.trans hp
  cases hm.symm.trans hm'
  obtain ⟨p, hp, s', hs', hfinished⟩ := hlast
  cases hstart.symm.trans hp
  cases hs.symm.trans hs'
  obtain ⟨m', hm', hrest⟩ := (run_append_eq_ok _).mp hs
  cases hm.symm.trans hm'
  exact ⟨s, hs, (hend _ _ m s hm (.inl ⟨0, 0, hmain⟩) hended hrest hfinished).1⟩

end Daobell
