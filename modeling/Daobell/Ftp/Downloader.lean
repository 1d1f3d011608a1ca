import Daobell.CString
import Daobell.Ftp.Url
import Daobell.Http.Header

/-!
The download of a file by FTP, `ftp_downloader.cpp`: one command after the other on the
control connection, with one `recv` for each reply, and the file on a second connection to
the port that the server has named. The operating system and the server are a parameter:
what a call brings may depend on all calls before it.
-/

namespace Daobell

/-- A call that the program makes, with what it brings. A failed `recv`, `send` or `socket`
brings `none`, the end of a stream no bytes. -/
inductive FtpCall
  | socket (rt : Option ℕ)
  | gethostbyname (name : Bytes) (p : Option UInt32)
  | connect (sock : ℕ) (addr : UInt32) (port : UInt16) (rt : Bool)
  | recv (sock : ℕ) (rt : Option Bytes)
  | send (sock : ℕ) (buf : Bytes) (rt : Option ℕ)
  | close (sock : ℕ)
  | fopen (rt : Bool)
  | fwrite (buf : Bytes)
  | fclose
  deriving DecidableEq

inductive Handle
  | sock (fd : ℕ)
  | file
  deriving DecidableEq

namespace FtpCall

/-- What there is to be closed later once the call has been made. -/
def acquires : FtpCall → Option Handle
  | socket rt => rt.map .sock
  | fopen true => some .file
  | _ => none

def uses : FtpCall → Option Handle
  | connect sock _ _ _ | recv sock _ | send sock _ _ | close sock => some (.sock sock)
  | fwrite _ | fclose => some .file
  | _ => none

def releases : FtpCall → Option Handle
  | close sock => some (.sock sock)
  | fclose => some .file
  | _ => none

end FtpCall

/-- What the calls to come bring, by the calls that have been made. The system gives no
descriptor that has not been closed, and `recv` no more bytes than there is room for. -/
structure FtpSystem where
  socket : List FtpCall → Option ℕ
  gethostbyname : List FtpCall → Bytes → Option UInt32
  connect : List FtpCall → ℕ → UInt32 → UInt16 → Bool
  recv : List FtpCall → ℕ → Option Bytes
  send : List FtpCall → ℕ → Bytes → Option ℕ
  fopen : List FtpCall → Bool
  socket_fresh : ∀ calls fd, socket calls = some fd →
    calls.countP (fun c => c.acquires = some (.sock fd)) ≤
      calls.countP fun c => c.releases = some (.sock fd)
  recv_le : ∀ calls sock bytes, recv calls sock = some bytes → bytes.length ≤ 1023

structure FtpState where
  calls : List FtpCall
  readBuf : Bytes

/-- How `download_it` ends other than behind its last statement. -/
inductive FtpEnding
  | returned (rt : ℤ)
  | stopped (s : Stop)
  deriving DecidableEq

abbrev FtpM := EStateM FtpEnding FtpState

namespace FtpDownloader

def call (c : FtpCall) : FtpM Unit :=
  modifyGet fun s => (PUnit.unit, { s with calls := s.calls ++ [c] })

/-- What stands behind the call that has failed: `close`, and -1. -/
def fail {α : Type} (socks : List ℕ) : FtpM α := do
  socks.forM fun sock => call (.close sock)
  throw (.returned (-1))

def crash {α : Type} (c : Crash) : FtpM α := throw (.stopped (.crash c))

variable (sys : FtpSystem)

def socket (socks : List ℕ) : FtpM ℕ := do
  let s ← get
  call (.socket (sys.socket s.calls))
  match sys.socket s.calls with
  | some sock => pure sock
  | none => fail socks

def gethostbyname (name : Bytes) (socks : List ℕ) : FtpM UInt32 := do
  let s ← get
  call (.gethostbyname name (sys.gethostbyname s.calls name))
  match sys.gethostbyname s.calls name with
  | some addr => pure addr
  | none => fail socks

def connect (sock : ℕ) (addr : UInt32) (port : UInt16) (socks : List ℕ) : FtpM Unit := do
  let s ← get
  call (.connect sock addr port (sys.connect s.calls sock addr port))
  if sys.connect s.calls sock addr port then pure () else fail socks

def recv (sock : ℕ) : FtpM (Option Bytes) := do
  let s ← get
  call (.recv sock (sys.recv s.calls sock))
  pure (sys.recv s.calls sock)

/-- `recv` into `read_buf`, which keeps what it held behind the bytes that have come. -/
def fillReadBuf (bytes : Bytes) : FtpM Unit :=
  modifyGet fun s => (PUnit.unit, { s with readBuf := bytes ++ s.readBuf.drop bytes.length })

/-- The welcome message, which goes into `temp_buf`. -/
def recvWelcome (sock : ℕ) (socks : List ℕ) : FtpM Unit := do
  match ← recv sys sock with
  | some _ => pure ()
  | none => fail socks

def recvReply (sock : ℕ) (socks : List ℕ) : FtpM Unit := do
  match ← recv sys sock with
  | some bytes => fillReadBuf bytes
  | none => fail socks

/-- `sprintf` into `send_buf`, and `send`. -/
def sendCommand (sock : ℕ) (command : Bytes) (socks : List ℕ) : FtpM Unit := do
  if 1024 ≤ command.length then crash .outOfRange
  else do
    let s ← get
    call (.send sock command (sys.send s.calls sock command))
    match sys.send s.calls sock command with
    | some _ => pure ()
    | none => fail socks

end FtpDownloader

/-! ### The port -/

/-- The loop of `strtok` over `ip_port`, with the bytes of it in `buff`. -/
def splitLoop : ℕ → Bytes → ℕ → Except Stop (List ℕ)
  | 0, _, _ => .error .outOfFuel
  | fuel + 1, buff, s =>
      match strtokR buff ','.toUInt8 s with
      | .error c => .error (.crash c)
      | .ok (none, _, _) => .ok []
      | .ok (some splitP, buff, s) => do
          let vecIpPort ← splitLoop fuel buff s
          return (extractSize (cStr (buff.drop splitP))).getD 0 :: vecIpPort

def vecAt (vec : List ℕ) (i : ℕ) : Except Stop ℕ :=
  match vec[i]? with
  | some n => .ok n
  | none => .error (.crash .outOfRange)

/-- The port that a reply to `PASV` names, 0 if it begins in another way. -/
def passivePort (str : Bytes) : Except Stop ℕ :=
  if findBytes (bytesOf "227 Entering Passive Mode") str = some 0 then
    let pos1 := (findFirstOf ['('.toUInt8] str).getD npos
    let pos2 := (findFirstOf [')'.toUInt8] str).getD npos
    match substr str ((pos1 + 1) % 2 ^ 64) (subSize (subSize pos2 pos1) 1) with
    | .error c => .error (.crash c)
    | .ok ipPort => do
        let vecIpPort ← splitLoop (ipPort.length + 1) (ipPort ++ [0]) 0
        let high ← vecAt vecIpPort 4
        let low ← vecAt vecIpPort 5
        return (high * 256 + low) % 2 ^ 64
  else .ok 0

/-! ### The download -/

namespace FtpDownloader

def passive : FtpM ℕ := do
  let s ← get
  match passivePort (cStr s.readBuf) with
  | .ok port => pure port
  | .error stop => throw (.stopped stop)

variable (sys : FtpSystem)

/-- The loop that downloads. It does not tell a `recv` that has failed from the end of the
file. -/
def downloadLoop (dataSock : ℕ) (file : Bool) : ℕ → FtpM Unit
  | 0 => throw (.stopped .outOfFuel)
  | fuel + 1 => do
      match ← recv sys dataSock with
      | none | some [] => pure ()
      | some bytes => do
          fillReadBuf bytes
          if file then do
            call (.fwrite bytes)
            downloadLoop dataSock file fuel
          else crash .nullDereference

def closeFile (file : Bool) : FtpM Unit :=
  if file then call .fclose else crash .nullDereference

def openFile : FtpM Bool := do
  let s ← get
  call (.fopen (sys.fopen s.calls))
  pure (sys.fopen s.calls)

def parseUrl (url : Bytes) : FtpM FtpUrl :=
  match ftpUrlParser url with
  | .ok fup => pure fup
  | .error c => crash c

def userCommand (fup : FtpUrl) : Bytes := bytesOf "USER " ++ cStr fup.user ++ bytesOf "\r\n"
def passCommand (fup : FtpUrl) : Bytes := bytesOf "PASS " ++ cStr fup.password ++ bytesOf "\r\n"
def pasvCommand : Bytes := bytesOf "PASV\r\n"
def cwdCommand (fup : FtpUrl) : Bytes := bytesOf "CWD " ++ cStr fup.path ++ bytesOf "\r\n"
def sizeCommand (fup : FtpUrl) : Bytes := bytesOf "SIZE " ++ cStr fup.file ++ bytesOf "\r\n"
def retrCommand (fup : FtpUrl) : Bytes := bytesOf "RETR " ++ cStr fup.file ++ bytesOf "\r\n"
def quitCommand : Bytes := bytesOf "QUIT\r\n"

def login (fup : FtpUrl) : FtpM (ℕ × UInt32) := do
  let ctrlSock ← socket sys []
  let addr ← gethostbyname sys (cStr fup.domain) [ctrlSock]
  connect sys ctrlSock addr (UInt16.ofNat ((extractSize fup.port).getD 0)) [ctrlSock]
  recvWelcome sys ctrlSock [ctrlSock]
  sendCommand sys ctrlSock (userCommand fup) [ctrlSock]
  recvReply sys ctrlSock [ctrlSock]
  sendCommand sys ctrlSock (passCommand fup) [ctrlSock]
  recvReply sys ctrlSock [ctrlSock]
  pure (ctrlSock, addr)

/-- From `PASV` to the connection for the data. -/
def openData (ctrlSock : ℕ) (addr : UInt32) : FtpM ℕ := do
  sendCommand sys ctrlSock pasvCommand [ctrlSock]
  recvReply sys ctrlSock [ctrlSock]
  let port ← passive
  let dataSock ← socket sys [ctrlSock]
  connect sys dataSock addr (UInt16.ofNat port) [ctrlSock, dataSock]
  pure dataSock

/-- From `CWD` to the file. -/
def retrieve (fuel : ℕ) (fup : FtpUrl) (ctrlSock dataSock : ℕ) : FtpM Unit := do
  sendCommand sys ctrlSock (cwdCommand fup) [ctrlSock, dataSock]
  recvReply sys ctrlSock [ctrlSock, dataSock]
  sendCommand sys ctrlSock (sizeCommand fup) [ctrlSock, dataSock]
  recvReply sys ctrlSock [ctrlSock, dataSock]
  sendCommand sys ctrlSock (retrCommand fup) [ctrlSock, dataSock]
  recvReply sys ctrlSock [ctrlSock, dataSock]
  let file ← openFile sys
  downloadLoop sys dataSock file fuel
  closeFile file
  call (.close dataSock)

/-- From the reply to the file that has come to `QUIT`. -/
def quit (ctrlSock : ℕ) : FtpM Unit := do
  recvReply sys ctrlSock [ctrlSock]
  sendCommand sys ctrlSock quitCommand [ctrlSock]
  recvReply sys ctrlSock [ctrlSock]
  call (.close ctrlSock)

/-- `download_it`. The loop that downloads is followed for `fuel` rounds. -/
def downloadIt (fuel : ℕ) (url : Bytes) : FtpM ℤ := do
  if url = [] then throw (.returned (-1))
  else do
    let fup ← parseUrl url
    let (ctrlSock, addr) ← login sys fup
    let dataSock ← openData sys ctrlSock addr
    retrieve sys fuel fup ctrlSock dataSock
    quit sys ctrlSock
    pure 0

def runDownloadIt (fuel : ℕ) (url : Bytes) : FtpEnding × FtpState :=
  match downloadIt sys fuel url ⟨[], List.replicate 1024 0⟩ with
  | .ok rt s => (.returned rt, s)
  | .error e s => (e, s)

end FtpDownloader

end Daobell
