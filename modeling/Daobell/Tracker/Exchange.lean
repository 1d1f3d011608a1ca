import Daobell.Lib.Ledger
import Daobell.Tracker.Content
import Daobell.Tracker.Request
import Daobell.Tracker.ResponseRoundTrip

/-!
A whole call of `tracker_announce`: the connection to one of the addresses of the tracker,
the request that it gets, and the answer that the program reads. What the tracker reads is
what the program means, and the other way round. No call closes the socket that it has
connected.
-/

namespace Daobell

open Lib BencodeValue

/-- An `addrinfo` of the tracker, with what `socket` and `connect` bring for it. -/
structure TrackerAddr where
  socket : Option ℕ
  connect : Option Socket

inductive TrackerCall
  | socket (rt : Option ℕ)
  | connect (sockfd : ℕ) (rt : Bool)
  | close (sockfd : ℕ)
  | send (sockfd : ℕ)
  | recv (sockfd : ℕ)
  deriving DecidableEq

def TrackerCall.custody : Custody TrackerCall ℕ where
  acquires
    | .socket rt => rt
    | _ => none
  uses
    | .socket _ => none
    | .connect sockfd _ | .close sockfd | .send sockfd | .recv sockfd => some sockfd
  releases
    | .close sockfd => some sockfd
    | _ => none

def connectLoop : List TrackerAddr → List TrackerCall × Option (ℕ × Socket)
  | [] => ([], none)
  | i :: is =>
      match i.socket with
      | none => ((.socket none :: (connectLoop is).1), (connectLoop is).2)
      | some sockfd =>
          match i.connect with
          | none =>
              (.socket (some sockfd) :: .connect sockfd false :: .close sockfd ::
                (connectLoop is).1, (connectLoop is).2)
          | some sock => ([.socket (some sockfd), .connect sockfd true], some (sockfd, sock))

/-- `tracker_connect`, `none` where it returns -1. What `getaddrinfo` brings is given. -/
def trackerConnect (getaddrinfo : Bytes → Bytes → Option (List TrackerAddr)) (url : HttpUrl) :
    List TrackerCall × Option (ℕ × Socket) :=
  match getaddrinfo (cStr url.domain) (cStr url.port) with
  | none => ([], none)
  | some head => connectLoop head

/-- The loop of `tracker_send_all`, with its `unsigned` count of the bytes sent. -/
def sendAllLoop (len : ℕ) : ℕ → Socket → Bytes → ℕ → Except Crash (Bool × Socket)
  | 0, sock, _, _ => .ok (false, sock)
  | fuel + 1, sock, buff, totalSent =>
      if totalSent < len then
        if buff.length < len - totalSent then .error .outOfRange
        else
          match send sock (buff.take (len - totalSent)) with
          | (none, sock) => .ok (false, sock)
          | (some sent, sock) =>
              sendAllLoop len fuel sock (buff.drop sent) ((totalSent + sent) % 2 ^ 32)
      else .ok (true, sock)

/-- `tracker_send_all`: whether it returns 0. -/
def trackerSendAll (sock : Socket) (buff : Bytes) : Except Crash (Bool × Socket) :=
  sendAllLoop buff.length (buff.length + 1) sock buff 0

/-- A call of `tracker_announce`: its calls, and what it returns, with the socket behind it. -/
structure Announcement where
  calls : List TrackerCall
  result : Except Stop (Option TrackerAnnounceResp × Option Socket)

/-- `tracker_announce` once the socket is connected. `tracker_resp_parse` never returns a null
pointer, so that the `close` behind it is not reached. -/
def announceOn (fuel : ℕ) (sockfd : ℕ) (sock : Socket) (reqStr : Bytes) : Announcement :=
  match trackerSendAll sock reqStr with
  | .error c => ⟨[.send sockfd], .error (.crash c)⟩
  | .ok (false, sock) => ⟨[.send sockfd], .ok (none, some sock)⟩
  | .ok (true, sock) =>
      ⟨[.send sockfd, .recv sockfd],
        match trackerRecvResp sock with
        | .error c => .error (.crash c)
        | .ok (none, sock) => .ok (none, some sock)
        | .ok (some received, sock) =>
            (trackerRespParse fuel ((received.content.map Content.bytes).getD [])).map
              fun ret => (some ret, some sock)⟩

def trackerAnnounce (fuel : ℕ) (getaddrinfo : Bytes → Bytes → Option (List TrackerAddr))
    (url : Bytes) (req : Option TrackerRequest) : Announcement :=
  let urlParser := httpUrlParser url
  if urlParser.scheme = bytesOf "https" ∨ urlParser.scheme = bytesOf "udp" then
    ⟨[], .ok (none, none)⟩
  else
    let reqStr := (buildHttpRequest urlParser req).getD []
    match trackerConnect getaddrinfo urlParser with
    | (calls, none) => ⟨calls, .ok (none, none)⟩
    | (calls, some (sockfd, sock)) =>
        let announcement := announceOn fuel sockfd sock reqStr
        ⟨calls ++ announcement.calls, announcement.result⟩

/-! ### The request on its way -/

/-- Below 4 GiB the loop is that of `peer_send_buff`. -/
theorem sendAllLoop_eq {len : ℕ} (hlen32 : len < 2 ^ 32) (fuel : ℕ) (sock : Socket) (buff : Bytes)
    (total : ℕ) (htotal : total + buff.length = len) :
    sendAllLoop len fuel sock buff total = sendLoop len fuel sock buff total := by
  induction fuel generalizing sock buff total with
  | zero => rfl
  | succ fuel ih =>
      rw [sendAllLoop, sendLoop]
      by_cases hbuff : buff = []
      · subst hbuff
        rw [List.length_nil, Nat.add_zero] at htotal
        rw [if_neg htotal.not_lt, if_neg htotal.not_lt, decide_eq_true htotal]
      · have hpos : 0 < buff.length := List.length_pos_iff.mpr hbuff
        have htake : buff.take (len - total) = buff := List.take_of_length_le (by omega)
        have hlt : total < len := by omega
        have hle : ¬ buff.length < len - total := by omega
        simp only [if_pos hlt, if_neg hle, htake]
        obtain ⟨sock₁, hsend, -⟩ | ⟨n, sock₁, hsend, -, -, hle⟩ := send_cases sock hbuff
        · rw [hsend]
        · rw [hsend]
          simp only [Nat.mod_eq_of_lt (show total + n < 2 ^ 32 by omega)]
          exact ih sock₁ _ _ (by rw [List.length_drop]; omega)

theorem trackerSendAll_spec (sock : Socket) {buff : Bytes} (hlen : buff.length < 2 ^ 32) :
    ∃ ok sock' sent, trackerSendAll sock buff = .ok (ok, sock') ∧ SendStep sock sock' sent ∧
      (ok = true → sent = buff) ∧ (sock.SendReliable → ok = true) := by
  rw [trackerSendAll, sendAllLoop_eq hlen _ _ _ _ (Nat.zero_add _)]
  exact peerSendBuff_spec sock hlen

/-! ### The socket -/

def TrackerAddr.Fails (i : TrackerAddr) : Prop := i.socket = none ∨ i.connect = none

def FreshAddrs (held : List ℕ) (head : List TrackerAddr) : Prop :=
  ∀ i ∈ head, ∀ sockfd ∈ i.socket, sockfd ∉ held

instance (held : List ℕ) (head : List TrackerAddr) : Decidable (FreshAddrs held head) :=
  inferInstanceAs (Decidable (∀ i ∈ head, ∀ sockfd ∈ i.socket, sockfd ∉ held))

section

variable {held : List ℕ} {head : List TrackerAddr}

theorem account_socket {sockfd : ℕ} (h : sockfd ∉ held) :
    account TrackerCall.custody held (.socket (some sockfd)) = .ok (held ++ [sockfd]) :=
  account_eq_ok.mpr ⟨⟨by simp [TrackerCall.custody], by simp [TrackerCall.custody],
    fun r hr => by obtain rfl := Option.some.inj hr; exact h⟩, rfl⟩

theorem account_socket_none :
    account TrackerCall.custody held (.socket none) = .ok held :=
  account_eq_ok.mpr ⟨⟨by simp [TrackerCall.custody], by simp [TrackerCall.custody],
    by simp [TrackerCall.custody]⟩, by simp [TrackerCall.custody]⟩

theorem account_use {call : TrackerCall} {sockfd : ℕ}
    (huses : TrackerCall.custody.uses call = some sockfd)
    (hacq : TrackerCall.custody.acquires call = none)
    (hrel : TrackerCall.custody.releases call = none) (h : sockfd ∈ held) :
    account TrackerCall.custody held call = .ok held := by
  refine account_eq_ok.mpr ⟨⟨?_, ?_, ?_⟩, ?_⟩ <;> simp [huses, hacq, hrel, h]

theorem account_closed {sockfd : ℕ} (h : sockfd ∉ held) :
    account TrackerCall.custody (held ++ [sockfd]) (.close sockfd) = .ok held := by
  refine account_eq_ok.mpr ⟨⟨?_, ?_, ?_⟩, ?_⟩
  all_goals simp [TrackerCall.custody, List.erase_append_right, h]

/-- What `tracker_connect` leaves open: the socket that it returns. -/
theorem run_connectLoop (hfresh : FreshAddrs held head) :
    run (account TrackerCall.custody) held (connectLoop head).1 =
      .ok (held ++ ((connectLoop head).2.map Prod.fst).toList) := by
  induction head with
  | nil => simp [connectLoop]
  | cons i is ih =>
      have ih := ih fun j hj => hfresh j (List.mem_cons_of_mem i hj)
      have hi := hfresh i List.mem_cons_self
      rw [connectLoop]
      cases hsocket : i.socket with
      | none => exact (run_cons_of_ok _ account_socket_none _).trans ih
      | some sockfd =>
          have hnot : sockfd ∉ held := hi sockfd hsocket
          have hmem : sockfd ∈ held ++ [sockfd] :=
            List.mem_append_right _ (List.mem_singleton_self _)
          dsimp only
          cases i.connect with
          | none =>
              dsimp only
              rw [run_cons_of_ok _ (account_socket hnot),
                run_cons_of_ok _ (account_use rfl rfl rfl hmem),
                run_cons_of_ok _ (account_closed hnot), ih]
          | some sock =>
              dsimp only
              rw [run_cons_of_ok _ (account_socket hnot),
                run_cons_of_ok _ (account_use rfl rfl rfl hmem)]
              rfl

/-- An address that the program gets through to, behind others that it does not. -/
theorem connectLoop_append {failing rest : List TrackerAddr} {sockfd : ℕ} {sock : Socket}
    (hfailing : ∀ i ∈ failing, i.Fails) :
    (connectLoop (failing ++ ⟨some sockfd, some sock⟩ :: rest)).2 = some (sockfd, sock) := by
  induction failing with
  | nil => rfl
  | cons i is ih =>
      have ih := ih fun j hj => hfailing j (List.mem_cons_of_mem i hj)
      rw [List.cons_append, connectLoop]
      rcases hfailing i List.mem_cons_self with h | h
      · rw [h]
        exact ih
      · rw [h]
        cases i.socket with
        | none => exact ih
        | some _ => exact ih

end

/-- The arguments of a call of `tracker_announce`, and what `getaddrinfo` brings in it. -/
structure AnnounceInput where
  fuel : ℕ
  getaddrinfo : Bytes → Bytes → Option (List TrackerAddr)
  url : Bytes
  req : Option TrackerRequest

namespace AnnounceInput

variable (a : AnnounceInput)

def announcement : Announcement := trackerAnnounce a.fuel a.getaddrinfo a.url a.req

def addrs : List TrackerAddr :=
  (a.getaddrinfo (cStr (httpUrlParser a.url).domain) (cStr (httpUrlParser a.url).port)).getD []

def connected : Option ℕ :=
  if (httpUrlParser a.url).scheme = bytesOf "https" ∨ (httpUrlParser a.url).scheme = bytesOf "udp"
  then none
  else (connectLoop a.addrs).2.map Prod.fst

theorem trackerConnect_eq :
    trackerConnect a.getaddrinfo (httpUrlParser a.url) = connectLoop a.addrs := by
  rw [trackerConnect, addrs]
  cases a.getaddrinfo (cStr (httpUrlParser a.url).domain) (cStr (httpUrlParser a.url).port) <;> rfl

theorem run_announceOn {held : List ℕ} {fuel sockfd : ℕ} {sock : Socket} {reqStr : Bytes}
    (hmem : sockfd ∈ held) :
    run (account TrackerCall.custody) held (announceOn fuel sockfd sock reqStr).calls =
      .ok held := by
  have hsend := run_cons_of_ok (account TrackerCall.custody)
    (show account TrackerCall.custody held (.send sockfd) = _ from account_use rfl rfl rfl hmem)
  have hrecv := run_cons_of_ok (account TrackerCall.custody)
    (show account TrackerCall.custody held (.recv sockfd) = _ from account_use rfl rfl rfl hmem)
  rw [announceOn]
  split
  · exact hsend []
  · exact hsend []
  · exact (hsend _).trans (hrecv [])

/-- Whatever comes of an announce, it leaves open the socket that it has connected. -/
theorem run_calls {held : List ℕ} (hfresh : FreshAddrs held a.addrs) :
    run (account TrackerCall.custody) held a.announcement.calls =
      .ok (held ++ a.connected.toList) := by
  have hconnect := run_connectLoop hfresh
  rw [announcement, trackerAnnounce, connected]
  dsimp only
  split
  · exact congrArg Except.ok (List.append_nil held).symm
  · rw [trackerConnect_eq]
    rcases hloop : connectLoop a.addrs with ⟨calls, _ | ⟨sockfd, sock⟩⟩
    · rw [hloop] at hconnect
      exact hconnect
    · rw [hloop] at hconnect
      refine (run_append_eq_ok _).mpr ⟨_, hconnect, run_announceOn ?_⟩
      simp

end AnnounceInput

/-- At each of the calls the system gives no descriptor that is open. -/
def FreshRun : List ℕ → List AnnounceInput → Prop
  | _, [] => True
  | held, a :: as => FreshAddrs held a.addrs ∧ FreshRun (held ++ a.connected.toList) as

/-- **Every announce that gets through leaves its socket open.** After any number of them, what
is open is what was open before and the one connected socket of each, whatever the trackers
have answered; and no call was made on a socket that was not open. -/
theorem run_announces {held : List ℕ} {as : List AnnounceInput} (h : FreshRun held as) :
    run (account TrackerCall.custody) held (as.flatMap fun a => a.announcement.calls) =
      .ok (held ++ as.filterMap AnnounceInput.connected) := by
  induction as generalizing held with
  | nil => exact congrArg Except.ok (List.append_nil held).symm
  | cons a as ih =>
      rw [List.flatMap_cons]
      refine (run_append_eq_ok _).mpr ⟨_, a.run_calls h.1, (ih h.2).trans (congrArg _ ?_)⟩
      rw [List.append_assoc]
      cases hconnected : a.connected with
      | none => rw [List.filterMap_cons_none hconnected]; rfl
      | some sockfd => rw [List.filterMap_cons_some hconnected]; rfl

def secondAnswers (first second : ℕ) (sock : Socket) : AnnounceInput where
  fuel := 0
  getaddrinfo _ _ := some [⟨some first, none⟩, ⟨some second, some sock⟩]
  url := bytesOf "http://t:80/a"
  req := none

theorem run_announces_twice :
    run (account TrackerCall.custody) [3]
      ([secondAnswers 4 4 ⟨[], [], [], []⟩, secondAnswers 5 6 ⟨[], [.error], [], []⟩].flatMap
        fun a => a.announcement.calls) = .ok [3, 4, 6] :=
  run_announces ⟨by decide +kernel, by decide +kernel, trivial⟩

/-! ### The exchange -/

section

variable {url : Bytes} {req : TrackerRequest} {sock : Socket}

def Supported (url : Bytes) : Prop :=
  (httpUrlParser url).scheme ≠ bytesOf "https" ∧ (httpUrlParser url).scheme ≠ bytesOf "udp"

theorem exists_request (hvalid : (httpUrlParser url).valid = true)
    (hkey : hasFlag req.has requestHasKey = false)
    (htracker : hasFlag req.has requestHasTrackerId = false) :
    ∃ request, buildHttpRequest (httpUrlParser url) (some req) = some request ∧
      readTarget (requestTarget request) = ((httpUrlParser url).path, req.fields) := by
  obtain ⟨u, hu⟩ := exists_parts_of_valid hvalid
  have hpath : (httpUrlParser url).path = u.path := by rw [u.httpUrlParser_text hu]
  rw [hpath]
  exact readTarget_buildHttpRequest u hpath hkey htracker

theorem out_respLoop {fuel : ℕ} {received : Bytes} {reply : Option Bytes} {sock' : Socket}
    (h : respLoop fuel sock received = .ok (reply, sock')) : sock'.out = sock.out := by
  induction fuel generalizing sock received with
  | zero => cases h
  | succ fuel ih =>
      rw [respLoop] at h
      obtain ⟨sock₁, hrecv, hstep, -⟩ | ⟨bytes, sock₁, hrecv, hstep, -⟩ :=
        recv_cases sock (respBuffSize - received.length)
      · rw [hrecv] at h
        obtain ⟨-, rfl⟩ := Prod.mk.inj (Except.ok.inj h)
        exact hstep.out
      · rw [hrecv] at h
        dsimp only at h
        split at h
        · exact (ih h).trans hstep.out
        · obtain ⟨-, rfl⟩ := Prod.mk.inj (Except.ok.inj h)
          exact hstep.out

theorem out_trackerRecvResp {received : Option RespReceived} {sock' : Socket}
    (h : trackerRecvResp sock = .ok (received, sock')) : sock'.out = sock.out := by
  obtain ⟨⟨reply, sock₁⟩, hloop, hrest⟩ := bind_eq_ok.mp h
  cases reply with
  | none =>
      obtain ⟨-, rfl⟩ := Prod.mk.inj (Except.ok.inj hrest)
      exact out_respLoop hloop
  | some _ =>
      obtain ⟨_, -, hrest⟩ := bind_eq_ok.mp hrest
      obtain ⟨-, rfl⟩ := Prod.mk.inj (Except.ok.inj hrest)
      exact out_respLoop hloop

/-- The end of a header is found, and behind it the body that it declares. -/
theorem trackerRecvResp_lines {line body : Bytes} {ls : List Bytes} {c b : UInt8}
    (hline : Token newline line) (hstatus : StatusOk line) (hends : EndsHeader ls c b)
    (hplain : ls.any chunckedLine = false) (hdeclared : (ls.foldl declared 0).toNat = body.length)
    (hinp : sock.inp = line ++ newline :: (linesText ls ++ c :: b :: body))
    (hlength : sock.inp.length ≤ respBuffSize) (hsock : sock.RecvReliable) :
    ∃ total off sock', trackerRecvResp sock = .ok (some ⟨total, some ⟨off, body⟩⟩, sock') := by
  obtain ⟨sock', hfails | heq⟩ := trackerRecvResp_spec sock
  · exact absurd hsock hfails.2
  have hbuff : respBuff sock.inp = [] ++ (line ++ newline :: (linesText ls ++
      c :: b :: (body ++ List.replicate (respBuffSize - sock.inp.length) 0))) := by
    rw [respBuff, List.take_of_length_le hlength]
    conv_lhs => rw [hinp]
    simp only [hinp, List.append_assoc, List.cons_append, List.nil_append]
  rw [heq, hbuff, contentFromTrackerResp_lines _ gap_nil hline hstatus hends, hplain, hdeclared,
    if_neg Bool.false_ne_true, if_pos (by simp), List.take_left]
  exact ⟨_, _, sock', rfl⟩

theorem OkResponse.recv_body (r : OkResponse) (hinp : sock.inp = r.wire)
    (hsock : sock.RecvReliable) :
    ∃ total off sock', trackerRecvResp sock = .ok (some ⟨total, some ⟨off, r.body⟩⟩, sock') := by
  have hwire : sock.inp = withReturn r.status ++
      newline :: (linesText r.lines ++ 13 :: newline :: r.body) := by
    have h := r.wire_append []
    rw [List.append_nil, List.append_nil, List.nil_append] at h
    rw [hinp, h]
  have hstatus : PlainLine r.status ∧ StatusOk (withReturn r.status) := by
    rcases r.status_eq with h | h
    · exact h ▸ ⟨plainLine_of_all rfl, .inl (List.prefix_append _ _)⟩
    · exact h ▸ ⟨plainLine_of_all rfl, .inr (List.prefix_append _ _)⟩
  have hdeclared : (r.lines.foldl declared 0).toNat = r.body.length := by
    rw [r.declared_lines]
    exact UInt32.toNat_ofNat_of_lt' (r.length_body_le.trans_lt (by decide))
  exact trackerRecvResp_lines ⟨by simp [withReturn], plainLine_withReturn hstatus.1⟩ hstatus.2
    r.endsHeader_lines r.any_chunckedLine_lines hdeclared hwire (hinp ▸ r.length_le) hsock

/-- **An announce says and hears what it should.** Whichever address of the tracker is the
first that answers, and however `send` and `recv` cut the streams: the tracker reads the path
and the fields of the request, and the program what the tracker says. -/
theorem trackerAnnounce_exchange (r : OkResponse) (c : RespContent) (others es : DictMap)
    {getaddrinfo : Bytes → Bytes → Option (List TrackerAddr)} {failing rest : List TrackerAddr}
    {sockfd : ℕ} (hscheme : Supported url) (hvalid : (httpUrlParser url).valid = true)
    (hkey : hasFlag req.has requestHasKey = false)
    (htracker : hasFlag req.has requestHasTrackerId = false)
    (hlength : ∀ request ∈ buildHttpRequest (httpUrlParser url) (some req),
      request.length < 2 ^ 32)
    (haddrs : getaddrinfo (cStr (httpUrlParser url).domain) (cStr (httpUrlParser url).port) =
      some (failing ++ ⟨some sockfd, some sock⟩ :: rest))
    (hfailing : ∀ i ∈ failing, i.Fails) (hout : sock.out = []) (hsends : sock.SendReliable)
    (hrecvs : sock.RecvReliable) (hinp : sock.inp = r.wire)
    (hbody : (BencodeValue.bencodeDict es).encode = .ok r.body)
    (hperm : es.Perm (c.entries ++ others))
    (hothers : ∀ e ∈ others, ∀ key ∈ respKeys, e.1.bytes ≠ bytesOf key)
    (hes : (BencodeValue.bencodeDict es).WellFormed)
    (hkeys : (BencodeValue.bencodeDict es).KeysNulFree) :
    ∃ ret sock' rounds, ret.Tells c ∧
      readTarget (requestTarget sock'.out) = ((httpUrlParser url).path, req.fields) ∧
      ∀ fuel ≥ rounds,
        (trackerAnnounce fuel getaddrinfo url (some req)).result = .ok (some ret, some sock') := by
  obtain ⟨request, hrequest, hread⟩ := exists_request hvalid hkey htracker
  obtain ⟨ok, sock₁, sent, hsend, hstep, hall, hok⟩ :=
    trackerSendAll_spec sock (hlength request hrequest)
  obtain rfl := hok hsends
  obtain rfl := hall rfl
  have hrecvs₁ : sock₁.RecvReliable := by
    rw [Socket.RecvReliable, hstep.recvs]
    exact hrecvs
  obtain ⟨total, off, sock', hrecv⟩ := r.recv_body (hstep.inp.trans hinp) hrecvs₁
  obtain ⟨encoded, ret, rounds, hencoded, htells, hparse⟩ :=
    trackerRespParse_says c es hes hkeys (says_of_perm hperm hothers)
  obtain rfl := Except.ok.inj (hbody.symm.trans hencoded)
  refine ⟨ret, sock', rounds, htells, ?_, fun fuel hfuel => ?_⟩
  · rw [out_trackerRecvResp hrecv, hstep.out, hout, List.nil_append, hread]
  · have hconnect : (trackerConnect getaddrinfo (httpUrlParser url)).2 = some (sockfd, sock) := by
      rw [trackerConnect, haddrs]
      exact connectLoop_append hfailing
    have hpair : trackerConnect getaddrinfo (httpUrlParser url) =
        ((trackerConnect getaddrinfo (httpUrlParser url)).1, some (sockfd, sock)) :=
      Prod.ext rfl hconnect
    rw [trackerAnnounce]
    dsimp only
    rw [if_neg (not_or.mpr hscheme), hpair, hrequest]
    simp only [Option.getD_some, announceOn, hsend, hrecv, Option.map_some, hparse fuel hfuel]
    rfl

end

def onePeerResponse : OkResponse where
  status := http10
  before := []
  after := [bytesOf "Date: t"]
  body := bytesOf "d8:intervali1800e5:peers6:" ++ [10, 0, 0, 101, 26, 225] ++
    bytesOf "8:retry ini-1ee"
  status_eq := .inl rfl
  others := List.forall_mem_singleton.mpr
    ⟨by decide, plainLine_of_all rfl, by decide, by decide⟩
  length_le := by decide +kernel

def cutSocket : Socket :=
  ⟨onePeerResponse.wire, [.transfers 20, .transfers 0], [], [.transfers 5]⟩

theorem trackerAnnounce_exchange_onePeer :
    ∃ ret sock' rounds, ret.Tells onePeer ∧
      readTarget (requestTarget sock'.out) =
        ((httpUrlParser (bytesOf "http://t:80/a")).path, compactRequest.fields) ∧
      ∀ fuel ≥ rounds,
        (trackerAnnounce fuel (fun _ _ => some [⟨none, none⟩, ⟨some 4, some cutSocket⟩])
          (bytesOf "http://t:80/a") (some compactRequest)).result = .ok (some ret, some sock') := by
  have haddrs : some [⟨none, none⟩, ⟨some 4, some cutSocket⟩] =
      some ([(⟨none, none⟩ : TrackerAddr)] ++ ⟨some 4, some cutSocket⟩ :: []) := rfl
  have hsends : cutSocket.SendReliable := by simp [Socket.SendReliable, cutSocket]
  have hrecvs : cutSocket.RecvReliable := by simp [Socket.RecvReliable, cutSocket]
  have hscheme : Supported (bytesOf "http://t:80/a") := ⟨by decide +kernel, by decide +kernel⟩
  exact trackerAnnounce_exchange onePeerResponse onePeer retryIn (onePeer.entries ++ retryIn)
    hscheme (by decide +kernel) (by decide) (by decide) (by decide +kernel) haddrs
    (List.forall_mem_singleton.mpr (.inl rfl)) rfl hsends hrecvs rfl (by decide +kernel)
    (.refl _) (by decide)
    (.bencodeDict _ (by simp only [DictSorted, MultimapSorted, KeyLt, ByteString.Lt]; decide)
      (List.forall_mem_cons.mpr ⟨.bencodeInt _, List.forall_mem_cons.mpr
        ⟨.bencodeString _, List.forall_mem_cons.mpr ⟨.bencodeInt _, by simp⟩⟩⟩))
    (.bencodeDict _ (by decide) (List.forall_mem_cons.mpr ⟨.bencodeInt _,
      List.forall_mem_cons.mpr ⟨.bencodeString _,
        List.forall_mem_cons.mpr ⟨.bencodeInt _, by simp⟩⟩⟩))

end Daobell
