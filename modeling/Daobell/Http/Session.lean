import Daobell.Http.ContentLength
import Daobell.Http.Threads
import Daobell.Http.Url

/-!
The connections of an `http_multi_threads_downloader`, the beginning of `download_it` and
`get_file_size` in `http_multi_threads_downloader.cpp`: one on which it asks for the whole
file, to read its size off the header, and one on which it asks for its range. With them
`download_file` of `http_downloader.cpp` up to the threads.
-/

namespace Daobell

open Lib

inductive HttpCall
  | socket (rt : Option ℕ)
  | bind (sock : ℕ)
  | connect (sock : ℕ) (rt : Bool)
  | send (sock : ℕ)
  | recv (sock : ℕ)
  | close (sock : ℕ)
  deriving DecidableEq

/-- What is behind the names of hosts: their addresses, and what the server at an address
answers to a request. -/
structure HttpNet where
  gethostbyname : Bytes → Option UInt32
  answer : UInt32 → Bytes → Bytes

/-- What the system brings to a call of `connect_server`, and to the calls on the socket. -/
structure HttpAttempt where
  socket : Option ℕ
  connect : Bool
  recvs : List Reply
  sends : List Reply

def Socket.unconnected : Socket := ⟨[], [.error], [], [.error]⟩

/-- An `http_multi_threads_downloader`. `sock_` is `none` for -1, and stays what it is when
the socket is closed; `stream` is the connection behind it. -/
structure HttpClient where
  url : Bytes
  d : HttpMultiThreadsDownloader
  sock : Option ℕ
  addr : UInt32
  stream : Socket
  calls : List HttpCall

/-- `gen_request_header`; `none` where it returns -1. -/
def HttpMultiThreadsDownloader.genRequestHeader (d : HttpMultiThreadsDownloader) : Option Bytes :=
  if d.hup.valid then
    some (bytesOf "GET " ++ d.hup.path ++ bytesOf " HTTP/1.1\r\nHost: " ++ d.hup.domain ++
      bytesOf "\r\nConnection: Close\r\n\r\n")
  else none

namespace HttpClient

/-- The constructor, which leaves `file_size_` as it finds it. -/
def new (url : Bytes) (fileSize threadCount threadIndex : UInt64) : HttpClient where
  url := url
  d := newHttpMultiThreadsDownloader ⟨[], []⟩ fileSize threadCount threadIndex
  sock := none
  addr := 0
  stream := .unconnected
  calls := []

variable (net : HttpNet) (c : HttpClient)

/-- `connect_server`: whether it returns 0. -/
def connectServer (a : HttpAttempt) : Except Crash (Bool × HttpClient) :=
  match a.socket with
  | none => .ok (false, { c with
      sock := none
      stream := .unconnected
      calls := c.calls ++ [.socket none] })
  | some sock =>
      match net.gethostbyname (cStr c.d.hup.domain) with
      -- it is `sock_` that is looked at, not the result
      | none => .error .nullDereference
      | some addr => .ok (a.connect, { c with
          sock := some sock
          addr := addr
          stream := if a.connect then ⟨[], a.recvs, [], a.sends⟩ else .unconnected
          calls := c.calls ++ [.socket (some sock), .bind sock, .connect sock a.connect] })

def init (a : HttpAttempt) : Except Crash (Bool × HttpClient) :=
  connectServer net { c with d := { c.d with hup := (httpUrlParser c.url).toHttpUrlParser } } a

/-- `send`, and what the server answers to what has been sent. -/
def sendRequest (header : Bytes) : Bool × HttpClient :=
  let calls := c.calls ++ c.sock.toList.map .send
  match send c.stream header with
  | (none, stream) => (false, { c with stream := stream, calls := calls })
  | (some _, stream) => (true, { c with
      stream := { stream with inp := stream.inp ++ net.answer c.addr stream.out }
      calls := calls })

/-- `send_request_query_http_header`. What it returns is not looked at. -/
def sendRequestQueryHttpHeader : Except Crash HttpClient :=
  if c.sock = some 0 then .ok c
  else
    match c.d.genRequestHeader with
    | none => .ok c
    | some header =>
        match c.sendRequest net header with
        | (false, c) => .ok c
        | (true, c) =>
            let calls := c.calls ++ c.sock.toList.map .recv
            match recv c.stream 1023 with
            | (none, stream) => .ok { c with stream := stream, calls := calls }
            | (some buff, _) => do
                let hhp ← httpHeaderParser buff
                .ok { c with
                  d := { c.d with fileSize := UInt64.ofNat (getContentLength hhp) }
                  stream := .unconnected
                  calls := calls ++ c.sock.toList.map .close }

/-- `send_range_request`. What it returns is not looked at. -/
def sendRangeRequest (a : HttpAttempt) (header : Bytes) : Except Crash HttpClient := do
  let (ok, c) ← c.init net a
  if ok then .ok (c.sendRequest net header).2 else .ok c

def getFileSize (a : HttpAttempt) : Except Crash (UInt64 × HttpClient) := do
  let (ok, c) ← c.init net a
  if ok then do
    let c ← c.sendRequestQueryHttpHeader net
    .ok (c.d.fileSize, c)
  else .ok (-1, c)

/-- `download_it` up to the temporary file: whether it comes there. -/
def downloadItStart (first second : HttpAttempt) : Except Crash (Bool × HttpClient) := do
  let (ok, c) ← c.init net first
  if ok then do
    let c ← c.sendRequestQueryHttpHeader net
    let c ← c.sendRangeRequest net second (c.d.genRangeHeader.getD [])
    .ok (true, c)
  else .ok (false, c)

/-- The thread that goes on behind `downloadItStart`, or has come to its end there. -/
def thread (ok : Bool) : HttpThread :=
  if ok then .start c.d.genFileNameTemp c.stream
  else { HttpThread.start c.d.genFileNameTemp c.stream with place := .finished }

end HttpClient

/-- What a thread finds: `file_size_` before it is set, and what the system brings to its
two connections. -/
structure HttpEnv where
  fileSize : UInt64
  first : HttpAttempt
  second : HttpAttempt

def newClient (url : Bytes) (threadCount : UInt64) (env : ℕ → HttpEnv) (i : ℕ) : HttpClient :=
  .new url (env i).fileSize threadCount (UInt64.ofNat i)

/-- `download_file` up to the point where all threads have sent their requests; the first
element of `vec_sp_hmtd_` has asked for the size before. The main thread goes on meanwhile,
but finds nothing counted. -/
def downloadFileStart (net : HttpNet) (url : Bytes) (threadCount : UInt64) (query : HttpAttempt)
    (env : ℕ → HttpEnv) : Except Crash (List HttpClient × HttpDownload) :=
  if threadCount = 0 then .error .outOfRange
  else do
    let (total, c) ← (newClient url threadCount env 0).getFileSize net query
    let begun ← (List.range threadCount.toNat).mapM fun i =>
      (if i = 0 then c else newClient url threadCount env i).downloadItStart net (env i).first
        (env i).second
    .ok (begun.map Prod.snd,
      ⟨destFileName (begun.map fun b => b.2.d), begun.map fun b => b.2.thread b.1, .reading 0 0,
        total, 0, none⟩)

end Daobell
