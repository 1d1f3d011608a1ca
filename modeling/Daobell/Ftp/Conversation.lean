import Daobell.Ftp.Passive
import Daobell.Lib.Ledger
import Daobell.Lib.Triple

/-!
What the FTP client may do, call by call, without a program: the control connection goes by
turns, a command of the script against a reply, the connection for the data goes to where
the server's replies say, what comes over it goes into the file, and after a call that has
failed there is nothing left but to close what is open. Every run of `download_it` is such a
conversation, and the way it ends is read off the conversation.
-/

namespace Daobell

open Lib FtpDownloader

def FtpCall.custody : Custody FtpCall Handle := ⟨FtpCall.acquires, FtpCall.uses, FtpCall.releases⟩

/-- A buffer that replies have come into, one after the other. -/
def readBufOf (replies : List Bytes) : Bytes :=
  replies.foldl (fun buf reply => reply ++ buf.drop reply.length) (List.replicate 1024 0)

/-- The port that the replies name, the first of which welcomes the client. -/
def portNamed (replies : List Bytes) : Except Stop ℕ :=
  passivePort (cStr (readBufOf replies.tail))

/-- Where a conversation stands: the commands that are still to be sent, what has been heard
and whose turn it is on the control connection, the sockets, the server's address, the bytes
that have come for the file and are not in it, the bytes that are, and whether the stream of
them has ended, the file could not be opened, or a call has failed. -/
structure Conversation where
  script : List Bytes
  replies : List Bytes
  serversTurn : Bool
  ctrlSock : Option ℕ
  dataSock : Option ℕ
  addr : Option UInt32
  pending : Bytes
  file : List Bytes
  ended : Bool
  noFile : Bool
  failed : Bool
  deriving DecidableEq

namespace Conversation

def scriptOf (fup : FtpUrl) : List Bytes :=
  [userCommand fup, passCommand fup, pasvCommand, cwdCommand fup, sizeCommand fup,
    retrCommand fup, quitCommand]

def start (fup : FtpUrl) : Conversation where
  script := scriptOf fup
  replies := []
  serversTurn := true
  ctrlSock := none
  dataSock := none
  addr := none
  pending := []
  file := []
  ended := false
  noFile := false
  failed := false

variable (c : Conversation)

def hear (rt : Option Bytes) : Conversation :=
  { c with replies := c.replies ++ rt.toList, serversTurn := false, failed := rt.isNone }

def say (rt : Option ℕ) : Conversation :=
  { c with script := c.script.tail, serversTurn := true, failed := rt.isNone }

def fetch (rt : Option Bytes) : Conversation :=
  { c with pending := rt.getD [], ended := decide (rt.getD [] = []) }

def openSocket (rt : Option ℕ) : Conversation :=
  if c.ctrlSock = none then { c with ctrlSock := rt, failed := rt.isNone }
  else { c with dataSock := rt, failed := rt.isNone }

/-- Where a socket is connected to: always the address of the server, and for the data the
port that the replies name. -/
def Dials (sock : ℕ) (addr : UInt32) (port : UInt16) : Prop :=
  c.addr = some addr ∧
    (c.ctrlSock = some sock ∨
      c.dataSock = some sock ∧ c.replies.length = 4 ∧
        (portNamed c.replies).map UInt16.ofNat = .ok port)

instance (sock : ℕ) (addr : UInt32) (port : UInt16) : Decidable (c.Dials sock addr port) :=
  inferInstanceAs (Decidable (_ ∧ _))

/-- What a call makes of a conversation, as long as none has failed. The server answers
`RETR` a second time when the file has come. -/
def converseCall : FtpCall → Except Unit Conversation
  | .socket rt => if c.dataSock = none then .ok (c.openSocket rt) else .error ()
  | .gethostbyname _ p =>
      if c.addr = none then .ok { c with addr := p, failed := p.isNone } else .error ()
  | .connect sock addr port rt =>
      if c.Dials sock addr port then .ok { c with failed := !rt } else .error ()
  | .recv sock rt =>
      if c.ctrlSock = some sock then
        if c.serversTurn then .ok (c.hear rt) else .error ()
      else if c.dataSock = some sock ∧ c.script = [quitCommand] ∧ c.serversTurn = false ∧
          c.pending = [] ∧ c.ended = false then .ok (c.fetch rt)
      else .error ()
  | .send sock buf rt =>
      if c.ctrlSock = some sock ∧ c.serversTurn = false ∧ c.script.head? = some buf then
        .ok (c.say rt)
      else .error ()
  | .fopen rt => .ok { c with noFile := !rt }
  | .fwrite buf =>
      if c.noFile = false ∧ c.pending = buf then
        .ok { c with file := c.file ++ [buf], pending := [] }
      else .error ()
  | .fclose =>
      if c.pending = [] ∧ c.ended = true then .ok { c with serversTurn := true } else .error ()
  | .close _ => .ok c

/-- One call of a conversation. What comes behind one that has failed is a `close`. -/
def converse (call : FtpCall) : Except Unit Conversation :=
  if c.failed = true ∧ call.releases = none then .error () else c.converseCall call

end Conversation

theorem portNamed_eq_error_iff {replies : List Bytes} {stop : Stop} :
    portNamed replies = .error stop ↔
      stop = .crash .outOfRange ∧
        bytesOf "227 Entering Passive Mode" <+: cStr (readBufOf replies.tail) ∧
        (partsOf (ipPortOf (cStr (readBufOf replies.tail)))).length < 6 :=
  passivePort_eq_error_iff zero_notMem_cStr

/-! ### The program between its calls -/

/-- What `read_buf` is at any time: a string that ends in it. -/
structure Terminated (buf : Bytes) : Prop where
  length_eq : buf.length = 1024
  getLast_eq : buf.getLast? = some 0

/-- The calls so far make up a ledger and a conversation, and `read_buf` meets a condition. -/
structure At (fup : FtpUrl) (held : List Handle) (c : Conversation) (F : Bytes → Prop)
    (s : FtpState) : Prop where
  ledger : run (account FtpCall.custody) [] s.calls = .ok held
  conversation : run Conversation.converse (Conversation.start fup) s.calls = .ok c
  terminated : Terminated s.readBuf
  buffer : F s.readBuf

structure Conversation.Finished (c : Conversation) : Prop where
  script : c.script = []
  turn : c.serversTurn = false
  pending : c.pending = []
  ended : c.ended = true
  noFile : c.noFile = false
  failed : c.failed = false

/-- What the program leaves in each way to end: the conversation is finished, or a call has
failed, and all is closed; or `send_buf` cannot hold the next command, the reply to `PASV` does
not name a port, the file could not be opened, or the bound on the rounds was too small. -/
inductive Outcome (fuel : ℕ) (held : List Handle) (c : Conversation) : FtpEnding → Prop
  | finished : c.Finished → held = [] → Outcome fuel held c (.returned 0)
  | failed : c.failed = true → held = [] → Outcome fuel held c (.returned (-1))
  | command (command : Bytes) : c.failed = false → c.serversTurn = false →
      c.script.head? = some command → 1024 ≤ command.length →
      Outcome fuel held c (.stopped (.crash .outOfRange))
  | passive : c.failed = false → c.replies.length = 4 →
      portNamed c.replies = .error (.crash .outOfRange) →
      Outcome fuel held c (.stopped (.crash .outOfRange))
  | noFile : c.failed = false → c.noFile = true →
      Outcome fuel held c (.stopped (.crash .nullDereference))
  | outOfFuel : c.failed = false → c.file.length = fuel →
      Outcome fuel held c (.stopped .outOfFuel)

def Ended (fup : FtpUrl) (fuel : ℕ) (e : FtpEnding) (s : FtpState) : Prop :=
  ∃ held c, At fup held c (fun _ => True) s ∧ Outcome fuel held c e

theorem At.mono {fup : FtpUrl} {held : List Handle} {c : Conversation} {F F' : Bytes → Prop}
    {s : FtpState} (h : At fup held c F s) (hF : ∀ buf, F buf → F' buf) : At fup held c F' s :=
  ⟨h.ledger, h.conversation, h.terminated, hF _ h.buffer⟩

/-! ### One call -/

section

variable {fup : FtpUrl} {fuel : ℕ} {held held' : List Handle} {c c' : Conversation}
  {F G : Bytes → Prop} {α : Type} {Q : α → FtpState → Prop}

theorem triple_leave {stop : Stop} (h : Outcome fuel held c (.stopped stop)) :
    Triple (At fup held c F) (throw (.stopped stop)) Q (Ended fup fuel) :=
  Triple.throw fun _ hs => ⟨held, c, hs.mono fun _ _ => trivial, h⟩

theorem triple_call {call : FtpCall} (hledger : account FtpCall.custody held call = .ok held')
    (hconverse : c.converse call = .ok c') :
    Triple (At fup held c F) (FtpDownloader.call call) (fun _ => At fup held' c' F)
      (Ended fup fuel) := by
  refine Triple.modify fun s hs => ⟨?_, ?_, hs.terminated, hs.buffer⟩
  · exact (run_append_eq_ok _).mpr ⟨held, hs.ledger, (run_cons_of_ok _ hledger _).trans rfl⟩
  · exact (run_append_eq_ok _).mpr ⟨c, hs.conversation, (run_cons_of_ok _ hconverse _).trans rfl⟩

theorem terminated_append {bytes buf : Bytes} (hbytes : bytes.length ≤ 1023)
    (h : Terminated buf) : Terminated (bytes ++ buf.drop bytes.length) := by
  have hlength := h.length_eq
  refine ⟨by rw [List.length_append, List.length_drop]; omega, ?_⟩
  rw [List.getLast?_append, List.getLast?_drop, if_neg (by omega), h.getLast_eq]
  rfl

/-- Bytes that come into `read_buf` leave its last one as it is. -/
theorem triple_fillReadBuf (bytes : Bytes) (hbytes : bytes.length ≤ 1023)
    (h : ∀ buf, F buf → G (bytes ++ buf.drop bytes.length)) :
    Triple (At fup held c F) (fillReadBuf bytes) (fun _ => At fup held c G) (Ended fup fuel) :=
  Triple.modify fun _ hs =>
    ⟨hs.ledger, hs.conversation, terminated_append hbytes hs.terminated, h _ hs.buffer⟩

theorem account_uses {call : FtpCall} {r : Handle} (huses : call.uses = some r) (hr : r ∈ held)
    (hacq : call.acquires = none) (hrel : call.releases = none) :
    account FtpCall.custody held call = .ok held := by
  refine account_eq_ok.mpr ⟨⟨?_, ?_, ?_⟩, ?_⟩ <;> simp [FtpCall.custody, huses, hr, hacq, hrel]

theorem account_release {call : FtpCall} {r : Handle} (huses : call.uses = some r) (hr : r ∈ held)
    (hacq : call.acquires = none) (hrel : call.releases = some r) :
    account FtpCall.custody held call = .ok (held.erase r) := by
  refine account_eq_ok.mpr ⟨⟨?_, ?_, ?_⟩, ?_⟩ <;> simp [FtpCall.custody, huses, hr, hacq, hrel]

theorem account_acquire {call : FtpCall} (huses : call.uses = none)
    (hrel : call.releases = none) (hfresh : ∀ r ∈ call.acquires, r ∉ held) :
    account FtpCall.custody held call = .ok (held ++ call.acquires.toList) :=
  account_eq_ok.mpr ⟨⟨by simp [FtpCall.custody, huses], by simp [FtpCall.custody, hrel], hfresh⟩,
    by simp [FtpCall.custody, hrel]⟩

theorem triple_close {sock : ℕ} (hsock : .sock sock ∈ held) :
    Triple (At fup held c F) (FtpDownloader.call (.close sock))
      (fun _ => At fup (held.erase (.sock sock)) c F) (Ended fup fuel) := by
  refine triple_call (account_release rfl hsock rfl rfl) ?_
  rw [Conversation.converse, if_neg (by simp [FtpCall.releases])]
  rfl

theorem triple_fail (socks : List ℕ) (hfailed : c.failed = true) :
    Triple (At fup (socks.map .sock) c F) (fail socks : FtpM α) Q (Ended fup fuel) := by
  refine Triple.seq (Q := At fup [] c F) ?_ ?_
  · refine Triple.forM (I := fun socks => At fup (socks.map .sock) c F) (fun sock socks => ?_) socks
    refine (triple_close List.mem_cons_self).weaken fun _ s hs => ?_
    rwa [List.erase_cons_head] at hs
  · exact Triple.throw fun s hs =>
      ⟨[], c, hs.mono fun _ _ => trivial, .failed hfailed rfl⟩

theorem converse_of_not_failed (hfailed : c.failed = false) (call : FtpCall) :
    c.converse call = c.converseCall call := by
  rw [Conversation.converse, if_neg (by simp [hfailed])]

/-- A new socket is none of those that are open. -/
theorem fresh_socket {sys : FtpSystem} {s : FtpState} (hs : At fup held c F s) {sock : ℕ}
    (h : sys.socket s.calls = some sock) : .sock sock ∉ held := by
  intro hmem
  have hcount : held.count (.sock sock) +
      s.calls.countP (fun c => c.releases = some (.sock sock)) =
        [].count (Handle.sock sock) + s.calls.countP fun c => c.acquires = some (.sock sock) :=
    count_run hs.ledger
  have hfresh := sys.socket_fresh s.calls sock h
  have hpos := List.count_pos_iff.mpr hmem
  rw [List.count_nil] at hcount
  omega

variable (sys : FtpSystem)

/-- The state that a call is made in, and what is known of it. -/
theorem triple_get :
    Triple (At fup held c F) get (fun s₀ s => At fup held c F s₀ ∧ At fup held c F s)
      (Ended fup fuel) :=
  Triple.get fun _ hs => ⟨hs, hs⟩

theorem triple_socket (socks : List ℕ) (hfailed : c.failed = false) (hdata : c.dataSock = none) :
    Triple (At fup (socks.map .sock) c F) (socket sys socks)
      (fun sock s => sock ∉ socks ∧
        At fup ((socks ++ [sock]).map .sock) (c.openSocket (some sock)) F s)
      (Ended fup fuel) := by
  refine triple_get.bind fun s₀ => Triple.assume fun hs₀ => ?_
  have hconverse : ∀ rt, c.converse (.socket rt) = .ok (c.openSocket rt) := by
    intro rt
    rw [converse_of_not_failed hfailed]
    exact if_pos hdata
  have hfresh : ∀ r ∈ (FtpCall.socket (sys.socket s₀.calls)).acquires, r ∉ socks.map .sock := by
    intro r hr
    obtain ⟨sock, hsock, rfl⟩ := Option.map_eq_some_iff.mp hr
    exact fresh_socket hs₀ hsock
  refine (triple_call (account_acquire rfl rfl hfresh) (hconverse _)).seq ?_
  cases h : sys.socket s₀.calls with
  | none =>
      have hheld : socks.map Handle.sock ++ (FtpCall.socket none).acquires.toList =
          socks.map Handle.sock := List.append_nil _
      rw [hheld]
      refine triple_fail socks ?_
      rw [Conversation.openSocket]
      split <;> rfl
  | some sock =>
      refine Triple.pure fun s hs => ⟨?_, ?_⟩
      · exact fun hmem => fresh_socket hs₀ h (List.mem_map_of_mem hmem)
      · rw [List.map_append]
        exact hs

theorem triple_gethostbyname (name : Bytes) (socks : List ℕ) (hfailed : c.failed = false)
    (haddr : c.addr = none) :
    Triple (At fup (socks.map .sock) c F) (gethostbyname sys name socks)
      (fun addr => At fup (socks.map .sock) { c with addr := some addr, failed := false } F)
      (Ended fup fuel) := by
  refine triple_get.bind fun s₀ => Triple.assume fun _ => ?_
  have hledger : ∀ p, account FtpCall.custody (socks.map Handle.sock) (.gethostbyname name p) =
      .ok (socks.map .sock) := by
    intro p
    exact (account_acquire rfl rfl fun r hr => by cases hr).trans
      (congrArg _ (List.append_nil _))
  have hconverse : ∀ p, c.converse (.gethostbyname name p) =
      .ok { c with addr := p, failed := p.isNone } := by
    intro p
    rw [converse_of_not_failed hfailed]
    exact if_pos haddr
  refine (triple_call (hledger _) (hconverse _)).seq ?_
  cases sys.gethostbyname s₀.calls name with
  | none => exact triple_fail socks rfl
  | some addr => exact Triple.pure fun _ => id

theorem triple_connect {sock : ℕ} {addr : UInt32} {port : UInt16} {socks : List ℕ}
    (hsock : sock ∈ socks) (hfailed : c.failed = false) (hdials : c.Dials sock addr port) :
    Triple (At fup (socks.map .sock) c F) (connect sys sock addr port socks)
      (fun _ => At fup (socks.map .sock) { c with failed := false } F) (Ended fup fuel) := by
  refine triple_get.bind fun s₀ => Triple.assume fun _ => ?_
  have hconverse : ∀ rt, c.converse (.connect sock addr port rt) =
      .ok { c with failed := !rt } := by
    intro rt
    rw [converse_of_not_failed hfailed]
    exact if_pos hdials
  refine (triple_call (account_uses rfl (List.mem_map_of_mem hsock) rfl rfl) (hconverse _)).seq ?_
  cases sys.connect s₀.calls sock addr port with
  | false => exact triple_fail socks rfl
  | true => exact Triple.pure fun _ => id

theorem triple_recv {sock : ℕ} {next : Option Bytes → Conversation} (hsock : .sock sock ∈ held)
    (hconverse : ∀ rt, c.converse (.recv sock rt) = .ok (next rt)) :
    Triple (At fup held c F) (recv sys sock)
      (fun rt s => (∀ bytes ∈ rt, bytes.length ≤ 1023) ∧ At fup held (next rt) F s)
      (Ended fup fuel) := by
  refine triple_get.bind fun s₀ => Triple.assume fun _ => ?_
  refine (triple_call (account_uses rfl hsock rfl rfl) (hconverse _)).seq ?_
  exact Triple.pure fun _ hs => ⟨fun bytes h => sys.recv_le _ _ bytes h, hs⟩

structure Conversation.Hears (c : Conversation) (sock : ℕ) : Prop where
  failed : c.failed = false
  ctrlSock : c.ctrlSock = some sock
  turn : c.serversTurn = true

structure Conversation.Says (c : Conversation) (sock : ℕ) (command : Bytes) : Prop where
  failed : c.failed = false
  ctrlSock : c.ctrlSock = some sock
  turn : c.serversTurn = false
  head : c.script.head? = some command

theorem Conversation.Hears.converse_recv {sock : ℕ} (h : c.Hears sock) (rt : Option Bytes) :
    c.converse (.recv sock rt) = .ok (c.hear rt) := by
  rw [converse_of_not_failed h.failed]
  exact (if_pos h.ctrlSock).trans (if_pos h.turn)

theorem triple_recvWelcome {sock : ℕ} {socks : List ℕ} (hsock : sock ∈ socks)
    (hhears : c.Hears sock) :
    Triple (At fup (socks.map .sock) c F) (recvWelcome sys sock socks)
      (fun _ s => ∃ bytes, At fup (socks.map .sock) (c.hear (some bytes)) F s)
      (Ended fup fuel) := by
  refine (triple_recv sys (List.mem_map_of_mem hsock) hhears.converse_recv).bind fun rt =>
    Triple.assume fun _ => ?_
  cases rt with
  | none => exact triple_fail socks rfl
  | some bytes => exact Triple.pure fun _ hs => ⟨bytes, hs⟩

/-- A reply goes into `read_buf`, over what the ones before it have left there. -/
theorem triple_recvReply {sock : ℕ} {socks : List ℕ} {G : Bytes → Bytes → Prop}
    (hsock : sock ∈ socks) (hhears : c.Hears sock)
    (hF : ∀ bytes buf, F buf → G bytes (bytes ++ buf.drop bytes.length)) :
    Triple (At fup (socks.map .sock) c F) (recvReply sys sock socks)
      (fun _ s => ∃ bytes, At fup (socks.map .sock) (c.hear (some bytes)) (G bytes) s)
      (Ended fup fuel) := by
  refine (triple_recv sys (List.mem_map_of_mem hsock) hhears.converse_recv).bind fun rt =>
    Triple.assume fun hle => ?_
  cases rt with
  | none => exact triple_fail socks rfl
  | some bytes =>
      exact (triple_fillReadBuf bytes (hle bytes rfl) (hF bytes)).weaken fun _ _ hs => ⟨bytes, hs⟩

theorem triple_sendCommand {sock : ℕ} {command : Bytes} {socks : List ℕ} (hsock : sock ∈ socks)
    (hspoken : c.Says sock command) :
    Triple (At fup (socks.map .sock) c F) (sendCommand sys sock command socks)
      (fun _ => At fup (socks.map .sock) (c.say (some 0)) F) (Ended fup fuel) := by
  refine Triple.ite (fun hlong => triple_leave (.command command hspoken.failed hspoken.turn
    hspoken.head hlong)) fun _ => ?_
  refine triple_get.bind fun s₀ => Triple.assume fun _ => ?_
  have hconverse : ∀ rt, c.converse (.send sock command rt) = .ok (c.say rt) := by
    intro rt
    rw [converse_of_not_failed hspoken.failed]
    exact if_pos ⟨hspoken.ctrlSock, hspoken.turn, hspoken.head⟩
  refine (triple_call (account_uses rfl (List.mem_map_of_mem hsock) rfl rfl) (hconverse _)).seq ?_
  cases sys.send s₀.calls sock command with
  | none => exact triple_fail socks rfl
  | some n => exact Triple.pure fun _ => id

/-- Behind the reply to `PASV`, which is the last thing in `read_buf`. -/
theorem triple_passive (hfailed : c.failed = false) (hreplies : c.replies.length = 4)
    (hF : ∀ buf, F buf → buf = readBufOf c.replies.tail) :
    Triple (At fup held c F) passive
      (fun port s => portNamed c.replies = .ok port ∧ At fup held c F s) (Ended fup fuel) := by
  refine triple_get.bind fun s₀ => Triple.assume fun hs₀ => ?_
  have hport : passivePort (cStr s₀.readBuf) = portNamed c.replies := by
    rw [hF _ hs₀.buffer]
    rfl
  rw [hport]
  cases h : portNamed c.replies with
  | ok port => exact Triple.pure fun _ hs => ⟨rfl, hs⟩
  | error stop =>
      obtain rfl := (portNamed_eq_error_iff.mp h).1
      exact triple_leave (.passive hfailed hreplies h)

/-! ### The file -/

structure Conversation.Fetches (c : Conversation) (sock : ℕ) (file : Bool) : Prop where
  failed : c.failed = false
  ctrlSock : c.ctrlSock ≠ some sock
  dataSock : c.dataSock = some sock
  script : c.script = [quitCommand]
  turn : c.serversTurn = false
  pending : c.pending = []
  ended : c.ended = false
  noFile : c.noFile = !file

theorem Conversation.Fetches.converse_recv {sock : ℕ} {file : Bool} (h : c.Fetches sock file)
    (rt : Option Bytes) : c.converse (.recv sock rt) = .ok (c.fetch rt) := by
  rw [converse_of_not_failed h.failed]
  exact (if_neg h.ctrlSock).trans
    (if_pos ⟨h.dataSock, h.script, h.turn, h.pending, h.ended⟩)

theorem Conversation.Fetches.fetch_end {sock : ℕ} {file : Bool} (h : c.Fetches sock file)
    {rt : Option Bytes} (hrt : rt.getD [] = []) : c.fetch rt = { c with ended := true } := by
  rw [Conversation.fetch, hrt, Conversation.mk.injEq]
  simp [h.pending]

/-- A round of the loop: bytes that have come are written. -/
theorem Conversation.Fetches.converse_fwrite {sock : ℕ} (h : c.Fetches sock true) {bytes : Bytes}
    (hne : bytes ≠ []) :
    (c.fetch (some bytes)).converse (.fwrite bytes) =
      .ok { c with file := c.file ++ [bytes] } := by
  rw [converse_of_not_failed (show (c.fetch (some bytes)).failed = false from h.failed)]
  refine (if_pos ⟨h.noFile, rfl⟩).trans (congrArg _ ?_)
  rw [Conversation.fetch, Conversation.mk.injEq]
  simp [h.pending, h.ended, hne]

/-- What the loop leaves: its rounds, and the end of the stream. -/
theorem triple_downloadLoop {sock : ℕ} {file : Bool} {n : ℕ} (hsock : .sock sock ∈ held)
    (hfile : file = true → .file ∈ held) (hfetches : c.Fetches sock file)
    (hn : c.file.length + n = fuel) :
    Triple (At fup held c fun _ => True) (downloadLoop sys sock file n)
      (fun _ s =>
        ∃ written, At fup held { c with file := written, ended := true } (fun _ => True) s)
      (Ended fup fuel) := by
  induction n generalizing c with
  | zero => exact triple_leave (.outOfFuel hfetches.failed hn)
  | succ n ih =>
      refine (triple_recv sys hsock hfetches.converse_recv).bind fun rt =>
        Triple.assume fun hle => ?_
      match rt, hle with
      | none, _ =>
          rw [hfetches.fetch_end (show Option.getD none ([] : Bytes) = [] from rfl)]
          exact Triple.pure fun _ hs => ⟨c.file, hs⟩
      | some [], _ =>
          rw [hfetches.fetch_end (show Option.getD (some []) ([] : Bytes) = [] from rfl)]
          exact Triple.pure fun _ hs => ⟨c.file, hs⟩
      | some (b :: bs), hle =>
          refine (triple_fillReadBuf (b :: bs) (hle _ rfl) (G := fun _ => True)
            fun _ _ => trivial).seq ?_
          cases file with
          | false => exact triple_leave (.noFile hfetches.failed hfetches.noFile)
          | true =>
              refine (triple_call (account_uses rfl (hfile rfl) rfl rfl)
                (hfetches.converse_fwrite (List.cons_ne_nil b bs))).seq ?_
              refine ih ⟨hfetches.failed, hfetches.ctrlSock, hfetches.dataSock, hfetches.script,
                hfetches.turn, hfetches.pending, hfetches.ended, hfetches.noFile⟩ ?_
              rw [List.length_append, List.length_singleton]
              omega

/-! ### The whole download -/

theorem readBufOf_append (replies : List Bytes) (reply : Bytes) :
    readBufOf (replies ++ [reply]) = reply ++ (readBufOf replies).drop reply.length := by
  rw [readBufOf, List.foldl_append]
  rfl

def Conversation.loggedIn (fup : FtpUrl) (ctrlSock : ℕ) (addr : UInt32) (replies : List Bytes) :
    Conversation :=
  { start fup with
    script := (scriptOf fup).drop 2
    replies := replies
    serversTurn := false
    ctrlSock := some ctrlSock
    addr := some addr }

def Conversation.dataOpen (fup : FtpUrl) (ctrlSock dataSock : ℕ) (addr : UInt32)
    (replies : List Bytes) : Conversation :=
  { loggedIn fup ctrlSock addr replies with
    script := (scriptOf fup).drop 3
    dataSock := some dataSock }

def Conversation.retrieved (fup : FtpUrl) (ctrlSock dataSock : ℕ) (addr : UInt32)
    (replies file : List Bytes) : Conversation :=
  { dataOpen fup ctrlSock dataSock addr replies with
    script := [quitCommand]
    serversTurn := true
    file := file
    ended := true }

theorem triple_login :
    Triple (At fup [] (.start fup) (· = readBufOf [])) (login sys fup)
      (fun p s => ∃ replies : List Bytes, replies.length = 3 ∧
        At fup [.sock p.1] (.loggedIn fup p.1 p.2 replies) (· = readBufOf replies.tail) s)
      (Ended fup fuel) := by
  refine (triple_socket sys [] rfl rfl).bind fun ctrlSock => Triple.assume fun _ => ?_
  have hmem : ctrlSock ∈ [ctrlSock] := List.mem_singleton_self ctrlSock
  refine (triple_gethostbyname sys _ [ctrlSock] rfl rfl).bind fun addr => ?_
  refine (triple_connect sys hmem rfl ⟨rfl, .inl rfl⟩).seq ?_
  refine (triple_recvWelcome sys hmem ⟨rfl, rfl, rfl⟩).seq (Triple.exists_pre fun welcome => ?_)
  refine (triple_sendCommand sys hmem ⟨rfl, rfl, rfl, rfl⟩).seq ?_
  refine (triple_recvReply sys hmem ⟨rfl, rfl, rfl⟩
    (G := fun reply buf => buf = readBufOf [reply]) ?_).seq (Triple.exists_pre fun user => ?_)
  · rintro reply _ rfl
    exact (readBufOf_append [] reply).symm
  refine (triple_sendCommand sys hmem ⟨rfl, rfl, rfl, rfl⟩).seq ?_
  refine (triple_recvReply sys hmem ⟨rfl, rfl, rfl⟩
    (G := fun reply buf => buf = readBufOf [user, reply]) ?_).seq
      (Triple.exists_pre fun pass => ?_)
  · rintro reply _ rfl
    exact (readBufOf_append [user] reply).symm
  exact Triple.pure fun s hs => ⟨[welcome, user, pass], rfl, hs⟩

theorem triple_openData {ctrlSock : ℕ} {addr : UInt32} {replies : List Bytes}
    (hreplies : replies.length = 3) :
    Triple (At fup [.sock ctrlSock] (.loggedIn fup ctrlSock addr replies)
        (· = readBufOf replies.tail)) (openData sys ctrlSock addr)
      (fun dataSock s => ∃ replies : List Bytes, replies.length = 4 ∧ ctrlSock ≠ dataSock ∧
        At fup [.sock ctrlSock, .sock dataSock] (.dataOpen fup ctrlSock dataSock addr replies)
          (fun _ => True) s) (Ended fup fuel) := by
  obtain ⟨welcome, replies, rfl⟩ := List.exists_cons_of_length_eq_add_one hreplies
  have hmem : ctrlSock ∈ [ctrlSock] := List.mem_singleton_self ctrlSock
  refine (triple_sendCommand sys hmem ⟨rfl, rfl, rfl, rfl⟩).seq ?_
  refine (triple_recvReply sys hmem ⟨rfl, rfl, rfl⟩
    (G := fun reply buf => buf = readBufOf (replies ++ [reply])) ?_).seq
      (Triple.exists_pre fun pasv => ?_)
  · rintro reply _ rfl
    exact (readBufOf_append replies reply).symm
  have hlength : (welcome :: replies ++ [pasv]).length = 4 := by
    rw [List.length_append, hreplies]
    rfl
  refine (triple_passive rfl hlength fun _ => id).bind fun port => Triple.assume fun hport => ?_
  refine (triple_socket sys [ctrlSock] rfl rfl).bind fun dataSock => Triple.assume fun hfresh => ?_
  have hdials : (portNamed (welcome :: replies ++ [pasv])).map UInt16.ofNat =
      .ok (UInt16.ofNat port) := by
    rw [show portNamed (welcome :: replies ++ [pasv]) = .ok port from hport]
    rfl
  refine (triple_connect sys
    (List.mem_cons_of_mem _ (List.mem_singleton_self _)) rfl
    ⟨rfl, .inr ⟨rfl, hlength, hdials⟩⟩).seq ?_
  refine Triple.pure fun s hs =>
    ⟨welcome :: replies ++ [pasv], hlength, fun h => hfresh ?_, hs.mono fun _ _ => trivial⟩
  rw [h]
  exact List.mem_singleton_self _

theorem triple_recvReply' {sock : ℕ} {socks : List ℕ} (hsock : sock ∈ socks)
    (hhears : c.Hears sock) :
    Triple (At fup (socks.map .sock) c fun _ => True) (recvReply sys sock socks)
      (fun _ s => ∃ bytes, At fup (socks.map .sock) (c.hear (some bytes)) (fun _ => True) s)
      (Ended fup fuel) :=
  triple_recvReply sys (G := fun _ _ => True) hsock hhears fun _ _ _ => trivial

theorem triple_openFile (hfailed : c.failed = false) (hheld : .file ∉ held) :
    Triple (At fup held c F) (openFile sys)
      (fun file => At fup (held ++ if file then [.file] else []) { c with noFile := !file } F)
      (Ended fup fuel) := by
  refine triple_get.bind fun s₀ => Triple.assume fun _ => ?_
  have hledger : ∀ rt, account FtpCall.custody held (.fopen rt) =
      .ok (held ++ if rt then [.file] else []) := by
    intro rt
    cases rt with
    | false => exact account_acquire rfl rfl fun r hr => by cases hr
    | true =>
        refine account_acquire rfl rfl fun r hr => ?_
        obtain rfl := Option.some.inj hr
        exact hheld
  refine (triple_call (hledger _) (converse_of_not_failed hfailed _)).seq ?_
  exact Triple.pure fun _ => id

theorem triple_closeFile {file : Bool} (hfailed : c.failed = false) (hended : c.ended = true)
    (hpending : c.pending = []) (hheld : .file ∉ held) (hfile : c.noFile = !file) :
    Triple (At fup (held ++ if file then [.file] else []) c F) (closeFile file)
      (fun _ s => file = true ∧ At fup held { c with serversTurn := true } F s)
      (Ended fup fuel) := by
  cases file with
  | false => exact triple_leave (.noFile hfailed hfile)
  | true =>
      have hconverse : c.converse .fclose = .ok { c with serversTurn := true } := by
        rw [converse_of_not_failed hfailed]
        exact if_pos ⟨hpending, hended⟩
      refine (triple_call (account_release rfl ?_ rfl rfl) hconverse).weaken fun _ s hs => ?_
      · exact List.mem_append_right _ (List.mem_singleton_self _)
      · rw [if_pos rfl, List.erase_append_right _ hheld, List.erase_cons_head,
          List.append_nil] at hs
        exact ⟨rfl, hs⟩

theorem triple_retrieve {ctrlSock dataSock : ℕ} {addr : UInt32} {replies : List Bytes}
    (hne : ctrlSock ≠ dataSock) :
    Triple (At fup [.sock ctrlSock, .sock dataSock] (.dataOpen fup ctrlSock dataSock addr replies)
        fun _ => True) (retrieve sys fuel fup ctrlSock dataSock)
      (fun _ s => ∃ replies file : List Bytes,
        At fup [.sock ctrlSock] (.retrieved fup ctrlSock dataSock addr replies file)
          (fun _ => True) s) (Ended fup fuel) := by
  have hctrl : ctrlSock ∈ [ctrlSock, dataSock] := List.mem_cons_self
  refine (triple_sendCommand sys hctrl ⟨rfl, rfl, rfl, rfl⟩).seq ?_
  refine (triple_recvReply' sys hctrl ⟨rfl, rfl, rfl⟩).seq (Triple.exists_pre fun cwd => ?_)
  refine (triple_sendCommand sys hctrl ⟨rfl, rfl, rfl, rfl⟩).seq ?_
  refine (triple_recvReply' sys hctrl ⟨rfl, rfl, rfl⟩).seq (Triple.exists_pre fun size => ?_)
  refine (triple_sendCommand sys hctrl ⟨rfl, rfl, rfl, rfl⟩).seq ?_
  refine (triple_recvReply' sys hctrl ⟨rfl, rfl, rfl⟩).seq (Triple.exists_pre fun retr => ?_)
  refine (triple_openFile sys rfl (by simp)).bind fun file => ?_
  refine (triple_downloadLoop sys (List.mem_append_left _ (by simp)) ?_
    ⟨rfl, fun h => hne (Option.some.inj h), rfl, rfl, rfl, rfl, rfl, rfl⟩ (Nat.zero_add _)).seq
      (Triple.exists_pre fun written => ?_)
  · rintro rfl
    exact List.mem_append_right _ (List.mem_singleton_self _)
  refine (triple_closeFile rfl rfl rfl (by simp) rfl).seq (Triple.assume ?_)
  rintro rfl
  refine (triple_close (List.mem_cons_of_mem _ (List.mem_singleton_self _))).weaken
    fun _ s hs => ⟨replies ++ [cwd] ++ [size] ++ [retr], written, ?_⟩
  have hheld :
      [Handle.sock ctrlSock, .sock dataSock].erase (.sock dataSock) = [.sock ctrlSock] := by
    rw [List.erase_cons_tail, List.erase_cons_head]
    simpa using hne
  rwa [hheld] at hs

theorem triple_quit {ctrlSock dataSock : ℕ} {addr : UInt32} {replies file : List Bytes} :
    Triple (At fup [.sock ctrlSock] (.retrieved fup ctrlSock dataSock addr replies file)
        fun _ => True) (quit sys ctrlSock)
      (fun _ s => ∃ c : Conversation, c.Finished ∧ At fup [] c (fun _ => True) s)
      (Ended fup fuel) := by
  have hmem : ctrlSock ∈ [ctrlSock] := List.mem_singleton_self ctrlSock
  refine (triple_recvReply' sys hmem ⟨rfl, rfl, rfl⟩).seq
    (Triple.exists_pre fun retr => ?_)
  refine (triple_sendCommand sys hmem ⟨rfl, rfl, rfl, rfl⟩).seq ?_
  refine (triple_recvReply' sys hmem ⟨rfl, rfl, rfl⟩).seq (Triple.exists_pre fun quit => ?_)
  refine (triple_close (List.mem_singleton_self _)).weaken fun _ s hs => ?_
  rw [List.erase_cons_head] at hs
  exact ⟨_, ⟨rfl, rfl, rfl, rfl, rfl, rfl⟩, hs⟩

theorem triple_downloadIt {url : Bytes} (hurl : url ≠ []) (hparse : ftpUrlParser url = .ok fup) :
    Triple (At fup [] (.start fup) (· = readBufOf [])) (downloadIt sys fuel url)
      (fun rt => Ended fup fuel (.returned rt)) (Ended fup fuel) := by
  have hfup : parseUrl url = pure fup := by
    rw [parseUrl, hparse]
  rw [downloadIt, if_neg hurl, hfup, pure_bind]
  refine (triple_login sys).bind fun ⟨ctrlSock, addr⟩ => Triple.exists_pre fun replies =>
    Triple.assume fun hreplies => ?_
  refine (triple_openData sys hreplies).bind fun dataSock => Triple.exists_pre fun replies =>
    Triple.assume fun _ => Triple.assume fun hne => ?_
  refine (triple_retrieve sys hne).seq (Triple.exists_pre fun replies =>
    Triple.exists_pre fun file => ?_)
  refine (triple_quit sys).seq (Triple.exists_pre fun c => Triple.assume fun hfinished => ?_)
  exact Triple.pure fun s hs => ⟨[], c, hs, .finished hfinished rfl⟩

end

/-! ### A server with a small file -/

def smallReplies : List Bytes :=
  [bytesOf "220 ready", bytesOf "331 password", bytesOf "230 in",
    pasvReply [10, 0, 0, 1, 4, 1] ++ bytesOf ".", bytesOf "250 ok", bytesOf "213 5",
    bytesOf "150 here", bytesOf "226 done", bytesOf "221 bye"]

def smallFile : List Bytes := [bytesOf "he", bytesOf "llo"]

def receivesOn (sock : ℕ) (calls : List FtpCall) : ℕ :=
  calls.countP fun call =>
    match call with
    | .recv sock' _ => sock' = sock
    | _ => false

def smallUrl : Bytes := bytesOf "ftp://h/d/f"

def smallSystem : FtpSystem where
  socket calls :=
    [3, 4].find? fun fd => calls.countP (fun c => c.acquires = some (.sock fd)) ≤
      calls.countP fun c => c.releases = some (.sock fd)
  gethostbyname _ _ := some 1
  connect _ _ _ _ := true
  recv calls sock :=
    ((if sock = 3 then smallReplies else smallFile)[receivesOn sock calls]?).getD []
  send _ _ buf := some buf.length
  fopen _ := true
  socket_fresh calls fd h := by
    simpa using List.find?_some h
  recv_le calls sock bytes h := by
    have hall : ∀ reply ∈ [] :: (smallReplies ++ smallFile), reply.length ≤ 1023 := by
      decide +kernel
    obtain rfl := Option.some.inj h
    refine hall _ (List.mem_cons.mpr ?_)
    cases hget : (if sock = 3 then smallReplies else smallFile)[receivesOn sock calls]? with
    | none => exact .inl rfl
    | some reply =>
        have hmem := List.mem_of_getElem? hget
        split at hmem
        · exact .inr (List.mem_append_left _ hmem)
        · exact .inr (List.mem_append_right _ hmem)

/-- **Every run of `download_it` is a conversation**, and the way it ends is read off it. -/
theorem run_downloadIt_converse (sys : FtpSystem) (fuel : ℕ) {url : Bytes} {fup : FtpUrl}
    (hurl : url ≠ []) (hparse : ftpUrlParser url = .ok fup) :
    Ended fup fuel (runDownloadIt sys fuel url).1 (runDownloadIt sys fuel url).2 := by
  have hstart : At fup [] (.start fup) (· = readBufOf []) ⟨[], List.replicate 1024 0⟩ :=
    ⟨rfl, rfl, ⟨List.length_replicate, List.getLast?_replicate⟩, rfl⟩
  have htriple : Triple (At fup [] (.start fup) (· = readBufOf [])) (downloadIt sys fuel url)
      (fun rt => Ended fup fuel (.returned rt)) (Ended fup fuel) :=
    triple_downloadIt sys hurl hparse
  have h := htriple _ hstart
  rw [runDownloadIt]
  cases hrun : downloadIt sys fuel url ⟨[], List.replicate 1024 0⟩ with
  | ok rt s =>
      rw [hrun] at h
      exact h
  | error e s =>
      rw [hrun] at h
      exact h

theorem run_downloadIt_converse_small :
    Ended ⟨smallUrl, bytesOf "anonymous", bytesOf "anonymous", bytesOf "h", bytesOf "21",
      bytesOf "/d", bytesOf "f"⟩ 5 (runDownloadIt smallSystem 5 smallUrl).1
      (runDownloadIt smallSystem 5 smallUrl).2 :=
  run_downloadIt_converse smallSystem 5 (by decide) (by decide +kernel)

end Daobell
