import Daobell.CString
import Daobell.Peer.Socket

/-!
Receiving the response of a tracker, `tracker_announce.cpp`. It is read into a
buffer of 1024 bytes, as much as fits. The header is cut into lines where it
stands, up to a line of one character, the carriage return of an empty line.
-/

namespace Daobell

def newline : UInt8 := 10

def http10 : Bytes := bytesOf "HTTP/1.0 200 OK"

def http11 : Bytes := bytesOf "HTTP/1.1 200 OK"

def transferEncoding : Bytes := bytesOf "Transfer-Encoding: chuncked"

def contentLengthName : Bytes := bytesOf "Content-Length:"

/-- The variables of the loop of `content_from_tracker_resp`. `line` is what the last
round has found. -/
structure HeaderScan where
  buff : Bytes
  saveptr : ℕ
  line : ℕ
  chuncked : Bool
  contentLength : UInt32

/-- The length that the header at `line` declares: what is behind its first colon,
up to another one. It is cut off to an `unsigned`. -/
def declaredLength (buff : Bytes) (line : ℕ) : Except Crash (UInt32 × Bytes) :=
  strtokR buff ':'.toUInt8 line >>= fun (_, buff, saveptrtoken) =>
  strtokR buff ':'.toUInt8 saveptrtoken >>= fun (token, buff, _) =>
  match token with
  | none => .error .nullDereference
  | some token => .ok (UInt32.ofNat (strtoul (cStr (buff.drop token))), buff)

/-- One round of the loop. The line that `strtok_r` does not find is compared all
the same. -/
def headerRound (s : HeaderScan) : Except Crash HeaderScan :=
  strtokR s.buff newline s.saveptr >>= fun (line, buff, saveptr) =>
  match line with
  | none => .error .nullDereference
  | some line =>
      let chuncked :=
        s.chuncked || strncmpEq (buff.drop line) transferEncoding transferEncoding.length
      if strncmpEq (buff.drop line) contentLengthName contentLengthName.length then
        declaredLength buff line >>= fun (contentLength, buff) =>
        .ok ⟨buff, saveptr, line, chuncked, contentLength⟩
      else .ok ⟨buff, saveptr, line, chuncked, s.contentLength⟩

/-- The loop, which goes on until a line has one character. A round takes a line, so
there are no more of them than there are bytes. -/
def headerLoop : ℕ → HeaderScan → Except Crash HeaderScan
  | 0, _ => .error .hang
  | fuel + 1, s =>
      headerRound s >>= fun s =>
      if strlen s.buff s.line ≠ 1 then headerLoop fuel s else .ok s

/-- A string made of the bytes of the buffer from `off` on. -/
structure Content where
  off : ℕ
  bytes : Bytes
  deriving DecidableEq

def copyContent (buff : Bytes) (off len : ℕ) : Except Crash Content :=
  if off + len ≤ buff.length then .ok ⟨off, (buff.drop off).take len⟩ else .error .outOfRange

/-- `content_from_tracker_resp`: `none` where it returns -1, and otherwise what
`out_str` is set to, if it is. -/
def contentFromTrackerResp (buff : Bytes) : Except Crash (Option (Option Content)) :=
  strtokR buff newline 0 >>= fun (line, buff, saveptr) =>
  match line with
  | none => .error .nullDereference
  | some line =>
      if ¬ strncmpEq (buff.drop line) http10 http10.length ∧
          ¬ strncmpEq (buff.drop line) http11 http11.length then .ok none
      else
        headerLoop (buff.length + 1) ⟨buff, saveptr, line, false, 0⟩ >>= fun s =>
        if s.chuncked then .ok (some none)
        else
          copyContent s.buff (s.line + strlen s.buff s.line + 1) s.contentLength.toNat >>= fun c =>
          .ok (some (some c))

def respBuffSize : ℕ := 1024

/-- The loop of `tracker_recv_resp`, with the bytes that have been received; `none`
where `recv` has failed. Every round but the last takes a byte off the stream. -/
def respLoop : ℕ → Socket → Bytes → Except Crash (Option Bytes × Socket)
  | 0, _, _ => .error .hang
  | fuel + 1, sock, received =>
      match recv sock (respBuffSize - received.length) with
      | (none, sock) => .ok (none, sock)
      | (some bytes, sock) =>
          if bytes ≠ [] then respLoop fuel sock (received ++ bytes) else .ok (some received, sock)

/-- What a call of `tracker_recv_resp` that returns 0 has received and what it has
set `out_str` to. -/
structure RespReceived where
  total : ℕ
  content : Option Content
  deriving DecidableEq

/-- `tracker_recv_resp`, `none` where it returns -1. The buffer is zero behind what
has been received. -/
def trackerRecvResp (sock : Socket) : Except Crash (Option RespReceived × Socket) :=
  respLoop (sock.inp.length + 1) sock [] >>= fun (received, sock) =>
  match received with
  | none => .ok (none, sock)
  | some received =>
      contentFromTrackerResp
        (received ++ List.replicate (respBuffSize - received.length) 0) >>= fun content =>
      .ok (content.map (⟨received.length, ·⟩), sock)

end Daobell
