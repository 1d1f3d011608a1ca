import Daobell.Ftp.Conversation

/-!
What the calls of a run say by themselves: which commands have been sent, what has been heard
on each socket and what has been written. A conversation keeps account of them, so that what
is known of it is known of the calls: the file is what the second connection has brought, and
that connection goes to the port that the server has named.
-/

namespace Daobell

open Lib FtpDownloader

def sentOf (calls : List FtpCall) : List Bytes :=
  calls.filterMap fun call =>
    match call with
    | .send _ buf _ => some buf
    | _ => none

def heardOn (sock : ℕ) (calls : List FtpCall) : List Bytes :=
  calls.filterMap fun call =>
    match call with
    | .recv sock' rt => if sock' = sock then rt else none
    | _ => none

def writtenOf (calls : List FtpCall) : List Bytes :=
  calls.filterMap fun call =>
    match call with
    | .fwrite buf => some buf
    | _ => none

structure Conversation.Tells (fup : FtpUrl) (calls : List FtpCall) (c : Conversation) : Prop where
  sent : sentOf calls ++ c.script = scriptOf fup
  replies : ∀ sock, c.ctrlSock = some sock → heardOn sock calls = c.replies
  fetched : ∀ sock, c.dataSock = some sock → c.ctrlSock ≠ some sock →
    (heardOn sock calls).flatten = c.file.flatten ++ c.pending
  silent : ∀ sock, c.ctrlSock ≠ some sock → c.dataSock ≠ some sock → heardOn sock calls = []
  written : writtenOf calls = c.file
  dialled : ∀ sock addr port rt, .connect sock addr port rt ∈ calls → c.addr = some addr
  mute : c.ctrlSock = none → c.replies = [] ∧ c.dataSock = none
  idle : c.dataSock = none → c.file.flatten ++ c.pending = []

namespace Conversation

variable {fup : FtpUrl} {calls : List FtpCall} {c c' : Conversation} {call : FtpCall}

theorem sentOf_append (calls : List FtpCall) (call : FtpCall) :
    sentOf (calls ++ [call]) = sentOf calls ++ sentOf [call] := List.filterMap_append

theorem heardOn_append (sock : ℕ) (calls : List FtpCall) (call : FtpCall) :
    heardOn sock (calls ++ [call]) = heardOn sock calls ++ heardOn sock [call] :=
  List.filterMap_append

theorem writtenOf_append (calls : List FtpCall) (call : FtpCall) :
    writtenOf (calls ++ [call]) = writtenOf calls ++ writtenOf [call] := List.filterMap_append

theorem dialled_append {addr : UInt32} {sock : ℕ} {port : UInt16} {rt : Bool}
    (h : .connect sock addr port rt ∈ calls ++ [call])
    (hcall : ∀ sock addr port rt, call ≠ .connect sock addr port rt) :
    .connect sock addr port rt ∈ calls := by
  rcases List.mem_append.mp h with h | h
  · exact h
  · exact absurd (List.mem_singleton.mp h).symm (hcall sock addr port rt)

/-- A call that neither sends nor receives nor writes, and changes none of what is told. -/
theorem Tells.of_quiet (h : c.Tells fup calls)
    (hdialled : ∀ sock addr port rt, call = .connect sock addr port rt → c'.addr = some addr)
    (haddr : ∀ addr, c.addr = some addr → c'.addr = some addr) (hsent : sentOf [call] = [])
    (hheard : ∀ sock, heardOn sock [call] = []) (hwritten : writtenOf [call] = [])
    (hscript : c'.script = c.script) (hreplies : c'.replies = c.replies)
    (hctrl : c'.ctrlSock = c.ctrlSock) (hdata : c'.dataSock = c.dataSock)
    (hpending : c'.pending = c.pending) (hfile : c'.file = c.file) :
    c'.Tells fup (calls ++ [call]) where
  sent := by rw [sentOf_append, hsent, List.append_nil, hscript, h.sent]
  replies sock := by
    rw [hctrl, heardOn_append, hheard, List.append_nil, hreplies]
    exact h.replies sock
  fetched sock := by
    rw [hdata, hctrl, heardOn_append, hheard, List.append_nil, hfile, hpending]
    exact h.fetched sock
  silent sock := by
    rw [hdata, hctrl, heardOn_append, hheard, List.append_nil]
    exact h.silent sock
  written := by rw [writtenOf_append, hwritten, List.append_nil, hfile, h.written]
  dialled sock addr port rt hmem := by
    rcases List.mem_append.mp hmem with hmem | hmem
    · exact haddr addr (h.dialled sock addr port rt hmem)
    · exact hdialled sock addr port rt (List.mem_singleton.mp hmem).symm
  mute := by
    rw [hctrl, hreplies, hdata]
    exact h.mute
  idle := by
    rw [hdata, hfile, hpending]
    exact h.idle

theorem Tells.socket (h : c.Tells fup calls) (rt : Option ℕ) (hdata : c.dataSock = none) :
    (c.openSocket rt).Tells fup (calls ++ [.socket rt]) := by
  have hheard : ∀ sock, heardOn sock (calls ++ [.socket rt]) = heardOn sock calls := fun sock => by
    rw [heardOn_append]
    exact List.append_nil _
  have hsent : sentOf (calls ++ [.socket rt]) = sentOf calls := by
    rw [sentOf_append]
    exact List.append_nil _
  have hwritten : writtenOf (calls ++ [.socket rt]) = writtenOf calls := by
    rw [writtenOf_append]
    exact List.append_nil _
  have hdialled : ∀ sock addr port rt',
      .connect sock addr port rt' ∈ calls ++ [.socket rt] → c.addr = some addr :=
    fun sock addr port rt' hmem =>
      h.dialled sock addr port rt' (dialled_append hmem fun _ _ _ _ heq => by cases heq)
  have hsilent : ∀ sock, c.ctrlSock ≠ some sock → heardOn sock calls = [] := fun sock hne =>
    h.silent sock hne (by simp [hdata])
  rw [openSocket]
  split
  · rename_i hctrl
    exact {
      sent := by rw [hsent]; exact h.sent
      replies := fun sock _ => by
        rw [hheard, hsilent sock (by simp [hctrl]), (h.mute hctrl).1]
      fetched := fun sock hsock => by rw [hdata] at hsock; cases hsock
      silent := fun sock _ _ => by rw [hheard, hsilent sock (by simp [hctrl])]
      written := by rw [hwritten]; exact h.written
      dialled := hdialled
      mute := fun _ => h.mute hctrl
      idle := h.idle }
  · rename_i hctrl
    exact {
      sent := by rw [hsent]; exact h.sent
      replies := fun sock hsock => by rw [hheard]; exact h.replies sock hsock
      fetched := fun sock _ hne => by
        rw [hheard, hsilent sock hne, h.idle hdata]
        rfl
      silent := fun sock hne _ => by rw [hheard, hsilent sock hne]
      written := by rw [hwritten]; exact h.written
      dialled := hdialled
      mute := fun hnone => absurd hnone hctrl
      idle := fun _ => h.idle hdata }

theorem Tells.hear (h : c.Tells fup calls) {sock : ℕ} (rt : Option Bytes)
    (hctrl : c.ctrlSock = some sock) : (c.hear rt).Tells fup (calls ++ [.recv sock rt]) where
  sent := by
    rw [sentOf_append]
    exact (congrArg (· ++ c.script) (List.append_nil _)).trans h.sent
  replies sock' hsock' := by
    obtain rfl := Option.some.inj (hctrl.symm.trans hsock')
    rw [heardOn_append, h.replies sock hctrl]
    cases rt <;> simp [heardOn, Conversation.hear]
  fetched sock' hdata hne := by
    have hsock : sock ≠ sock' := fun heq => hne (heq ▸ hctrl)
    rw [heardOn_append, List.flatten_append, h.fetched sock' hdata hne]
    simp [heardOn, hsock, Conversation.hear]
  silent sock' hne hdata := by
    have hsock : sock ≠ sock' := fun heq => hne (heq ▸ hctrl)
    rw [heardOn_append, h.silent sock' hne hdata]
    simp [heardOn, hsock]
  written := by
    rw [writtenOf_append, h.written]
    exact List.append_nil _
  dialled sock addr port rt hmem :=
    h.dialled sock addr port rt (dialled_append hmem fun _ _ _ _ heq => by cases heq)
  mute hnone := by
    rw [show c.ctrlSock = none from hnone] at hctrl
    cases hctrl
  idle := h.idle

theorem Tells.say (h : c.Tells fup calls) {sock : ℕ} {buf : Bytes} (rt : Option ℕ)
    (hhead : c.script.head? = some buf) : (c.say rt).Tells fup (calls ++ [.send sock buf rt]) where
  sent := by
    rw [sentOf_append, List.append_assoc, ← h.sent]
    congr 1
    exact List.cons_head?_tail hhead
  replies sock' hsock' := by
    rw [heardOn_append]
    exact (List.append_nil _).trans (h.replies sock' hsock')
  fetched sock' hdata hne := by
    rw [heardOn_append]
    exact (congrArg List.flatten (List.append_nil _)).trans (h.fetched sock' hdata hne)
  silent sock' hne hdata := by
    rw [heardOn_append]
    exact (List.append_nil _).trans (h.silent sock' hne hdata)
  written := by
    rw [writtenOf_append, h.written]
    exact List.append_nil _
  dialled sock addr port rt hmem :=
    h.dialled sock addr port rt (dialled_append hmem fun _ _ _ _ heq => by cases heq)
  mute := h.mute
  idle := h.idle

theorem Tells.fetch (h : c.Tells fup calls) {sock : ℕ} (rt : Option Bytes)
    (hctrl : c.ctrlSock ≠ some sock) (hdata : c.dataSock = some sock) (hpending : c.pending = []) :
    (c.fetch rt).Tells fup (calls ++ [.recv sock rt]) where
  sent := by
    rw [sentOf_append]
    exact (congrArg (· ++ c.script) (List.append_nil _)).trans h.sent
  replies sock' hsock' := by
    have hsock : sock ≠ sock' := fun heq => hctrl (heq ▸ hsock')
    rw [heardOn_append, h.replies sock' hsock']
    simp [heardOn, hsock, Conversation.fetch]
  fetched sock' hdata' hne := by
    obtain rfl := Option.some.inj (hdata.symm.trans hdata')
    rw [heardOn_append, List.flatten_append, h.fetched sock hdata hne, hpending, List.append_nil]
    cases rt <;> simp [heardOn, Conversation.fetch]
  silent sock' hne hdata' := by
    have hsock : sock ≠ sock' := fun heq => hdata' (heq ▸ hdata)
    rw [heardOn_append, h.silent sock' hne hdata']
    simp [heardOn, hsock]
  written := by
    rw [writtenOf_append, h.written]
    exact List.append_nil _
  dialled sock addr port rt hmem :=
    h.dialled sock addr port rt (dialled_append hmem fun _ _ _ _ heq => by cases heq)
  mute hnone := by
    have hnot := (h.mute hnone).2
    rw [hdata] at hnot
    cases hnot
  idle hnone := by
    rw [show c.dataSock = none from hnone] at hdata
    cases hdata

theorem Tells.fwrite (h : c.Tells fup calls) :
    Tells fup (calls ++ [.fwrite c.pending])
      { c with file := c.file ++ [c.pending], pending := [] } where
  sent := by
    rw [sentOf_append]
    exact (congrArg (· ++ c.script) (List.append_nil _)).trans h.sent
  replies sock hsock := by
    rw [heardOn_append]
    exact (List.append_nil _).trans (h.replies sock hsock)
  fetched sock hdata hne := by
    rw [heardOn_append]
    refine (congrArg List.flatten (List.append_nil _)).trans ?_
    rw [h.fetched sock hdata hne]
    simp
  silent sock hne hdata := by
    rw [heardOn_append]
    exact (List.append_nil _).trans (h.silent sock hne hdata)
  written := by
    rw [writtenOf_append, h.written]
    rfl
  dialled sock addr port rt hmem :=
    h.dialled sock addr port rt (dialled_append hmem fun _ _ _ _ heq => by cases heq)
  mute := h.mute
  idle hdata := by
    simpa using h.idle hdata

inductive Moves (c : Conversation) : FtpCall → Conversation → Prop
  | socket (rt : Option ℕ) : c.dataSock = none → Moves c (.socket rt) (c.openSocket rt)
  | gethostbyname (name : Bytes) (p : Option UInt32) : c.addr = none →
      Moves c (.gethostbyname name p) { c with addr := p, failed := p.isNone }
  | connect (sock : ℕ) (addr : UInt32) (port : UInt16) (rt : Bool) : c.Dials sock addr port →
      Moves c (.connect sock addr port rt) { c with failed := !rt }
  | hear (sock : ℕ) (rt : Option Bytes) : c.ctrlSock = some sock →
      Moves c (.recv sock rt) (c.hear rt)
  | fetch (sock : ℕ) (rt : Option Bytes) : c.ctrlSock ≠ some sock → c.dataSock = some sock →
      c.pending = [] → Moves c (.recv sock rt) (c.fetch rt)
  | say (sock : ℕ) (buf : Bytes) (rt : Option ℕ) : c.script.head? = some buf →
      Moves c (.send sock buf rt) (c.say rt)
  | fopen (rt : Bool) : Moves c (.fopen rt) { c with noFile := !rt }
  | fwrite : Moves c (.fwrite c.pending) { c with file := c.file ++ [c.pending], pending := [] }
  | fclose : Moves c .fclose { c with serversTurn := true }
  | close (sock : ℕ) : Moves c (.close sock) c

theorem moves_of_converse (hstep : c.converse call = .ok c') : Moves c call c' := by
  rw [converse] at hstep
  split at hstep
  · cases hstep
  cases call with
  | socket rt =>
      rw [converseCall] at hstep
      split at hstep
      · obtain rfl := Except.ok.inj hstep
        exact .socket rt ‹_›
      · cases hstep
  | gethostbyname name p =>
      rw [converseCall] at hstep
      split at hstep
      · obtain rfl := Except.ok.inj hstep
        exact .gethostbyname name p ‹_›
      · cases hstep
  | connect sock addr port rt =>
      rw [converseCall] at hstep
      split at hstep
      · obtain rfl := Except.ok.inj hstep
        exact .connect sock addr port rt ‹_›
      · cases hstep
  | recv sock rt =>
      rw [converseCall] at hstep
      split at hstep
      · split at hstep
        · obtain rfl := Except.ok.inj hstep
          exact .hear sock rt ‹_›
        · cases hstep
      · split at hstep
        · rename_i hctrl hfetch
          obtain rfl := Except.ok.inj hstep
          exact .fetch sock rt hctrl hfetch.1 hfetch.2.2.2.1
        · cases hstep
  | send sock buf rt =>
      rw [converseCall] at hstep
      split at hstep
      · rename_i hsay
        obtain rfl := Except.ok.inj hstep
        exact .say sock buf rt hsay.2.2
      · cases hstep
  | fopen rt =>
      obtain rfl := Except.ok.inj hstep
      exact .fopen rt
  | fwrite buf =>
      rw [converseCall] at hstep
      split at hstep
      · rename_i hwrite
        obtain rfl := Except.ok.inj hstep
        rw [← hwrite.2]
        exact .fwrite
      · cases hstep
  | fclose =>
      rw [converseCall] at hstep
      split at hstep
      · obtain rfl := Except.ok.inj hstep
        exact .fclose
      · cases hstep
  | close sock =>
      obtain rfl := Except.ok.inj hstep
      exact .close sock

theorem Tells.step (h : c.Tells fup calls) (hstep : c.converse call = .ok c') :
    c'.Tells fup (calls ++ [call]) := by
  cases moves_of_converse hstep with
  | socket rt hdata => exact h.socket rt hdata
  | gethostbyname name p hnone =>
      refine h.of_quiet (fun _ _ _ _ heq => by cases heq) (fun addr haddr => ?_) rfl
        (fun _ => rfl) rfl rfl rfl rfl rfl rfl rfl
      rw [hnone] at haddr
      cases haddr
  | connect sock addr port rt hdials =>
      refine h.of_quiet (fun _ _ _ _ heq => ?_) (fun _ => id) rfl (fun _ => rfl) rfl rfl rfl rfl
        rfl rfl rfl
      obtain ⟨-, rfl, -, -⟩ := FtpCall.connect.inj heq
      exact hdials.1
  | hear sock rt hctrl => exact h.hear rt hctrl
  | fetch sock rt hctrl hdata hpending => exact h.fetch rt hctrl hdata hpending
  | say sock buf rt hhead => exact h.say rt hhead
  | fwrite => exact h.fwrite
  | fopen | fclose | close =>
      exact h.of_quiet (fun _ _ _ _ heq => by cases heq) (fun _ => id) rfl (fun _ => rfl) rfl rfl
        rfl rfl rfl rfl rfl

theorem dials_of_converse {sock : ℕ} {addr : UInt32} {port : UInt16} {rt : Bool}
    (hstep : c.converse (.connect sock addr port rt) = .ok c') : c.Dials sock addr port := by
  cases moves_of_converse hstep with
  | connect _ _ _ _ hdials => exact hdials

theorem ctrlSock_of_step {sock : ℕ} (hsock : c.ctrlSock = some sock)
    (hstep : c.converse call = .ok c') : c'.ctrlSock = some sock := by
  cases moves_of_converse hstep with
  | socket rt hdata =>
      rw [openSocket, if_neg (by simp [hsock])]
      exact hsock
  | _ => exact hsock

theorem dataSock_of_step {sock : ℕ} (hsock : c.dataSock = some sock)
    (hstep : c.converse call = .ok c') : c'.dataSock = some sock := by
  cases moves_of_converse hstep with
  | socket rt hdata =>
      rw [hsock] at hdata
      cases hdata
  | _ => exact hsock

theorem tells_start : (start fup).Tells fup [] where
  sent := rfl
  replies _ _ := rfl
  fetched _ _ _ := rfl
  silent _ _ _ := rfl
  written := rfl
  dialled _ _ _ _ hmem := absurd hmem List.not_mem_nil
  mute _ := ⟨rfl, rfl⟩
  idle _ := rfl

theorem tells_of_run (hrun : run converse (start fup) calls = .ok c) : c.Tells fup calls :=
  run_history converse (I := fun calls c => c.Tells fup calls)
    (fun _ _ _ _ h hstep => h.step hstep) (show (start fup).Tells fup [] from tells_start) hrun

end Conversation

/-! ### What a run has told when it is over -/

section

open Conversation

variable (sys : FtpSystem) (fuel : ℕ)

theorem run_downloadIt_nil {url : Bytes} (h : url = [] ∨ ∀ fup, ftpUrlParser url ≠ .ok fup) :
    (runDownloadIt sys fuel url).2.calls = [] := by
  by_cases hurl : url = []
  · rw [runDownloadIt, downloadIt, if_pos hurl]
    rfl
  · obtain ⟨e, he⟩ : ∃ e, ftpUrlParser url = .error e := by
      cases hparse : ftpUrlParser url with
      | error e => exact ⟨e, rfl⟩
      | ok fup => exact absurd hparse (h.resolve_left hurl fup)
    rw [runDownloadIt, downloadIt, if_neg hurl, parseUrl, he]
    rfl

theorem exists_ledger (url : Bytes) :
    ∃ held, run (account FtpCall.custody) [] (runDownloadIt sys fuel url).2.calls = .ok held ∧
      ∀ rt, (runDownloadIt sys fuel url).1 = .returned rt → held = [] := by
  by_cases hnil : url = [] ∨ ∀ fup, ftpUrlParser url ≠ .ok fup
  · rw [run_downloadIt_nil sys fuel hnil]
    exact ⟨[], rfl, fun _ _ => rfl⟩
  · rw [not_or, not_forall] at hnil
    obtain ⟨hurl, fup, hparse⟩ := hnil
    obtain ⟨held, c, hat, houtcome⟩ := run_downloadIt_converse sys fuel hurl (not_not.mp hparse)
    refine ⟨held, hat.ledger, fun rt hrt => ?_⟩
    rw [hrt] at houtcome
    cases houtcome with
    | finished _ hheld => exact hheld
    | failed _ hheld => exact hheld

/-- **Nothing is used that is not open, and nothing stays open**: at every call that uses a
socket or the file, it has been acquired once more often than closed; and where `download_it`
returns, each has been closed as often as acquired. -/
theorem run_downloadIt_handles (url : Bytes) :
    let r := runDownloadIt sys fuel url
    (∀ pre call post h, r.2.calls = pre ++ call :: post → call.uses = some h →
      pre.countP (fun call => call.acquires = some h) =
        pre.countP (fun call => call.releases = some h) + 1) ∧
    ∀ rt, r.1 = .returned rt → ∀ h,
      r.2.calls.countP (fun call => call.acquires = some h) =
        r.2.calls.countP fun call => call.releases = some h := by
  obtain ⟨held, hledger, hreturned⟩ := exists_ledger sys fuel url
  refine ⟨fun pre call post h hcalls huses => ?_, fun rt hrt h => ?_⟩
  · rw [hcalls] at hledger
    exact open_of_uses hledger huses
  · rw [hreturned rt hrt] at hledger
    exact released_of_run hledger h

/-- The fourth reply names the port, over what the ones before it have left. -/
theorem portNamed_pasvReply {replies : List Bytes} (hlength : replies.length = 4) {ns : List ℕ}
    {high low : ℕ} {behind : Bytes} (hreply : replies[3]? = some (pasvReply ns ++ behind))
    (hns : ∀ n ∈ ns, n < 256) (hsix : ns.length = 6) (hhigh : ns[4]? = some high)
    (hlow : ns[5]? = some low) : portNamed replies = .ok (high * 256 + low) := by
  match replies, hlength, hreply with
  | [welcome, user, pass, pasv], _, hreply =>
      obtain rfl := Option.some.inj hreply
      have hbuf := readBufOf_append [user, pass] (pasvReply ns ++ behind)
      rw [portNamed]
      show passivePort (cStr (readBufOf ([user, pass] ++ [pasvReply ns ++ behind]))) = _
      rw [hbuf, List.append_assoc, passivePort_pasvReply hns hsix hhigh hlow]

/-- **The file is what the second connection has brought**, which goes to the address of the
first one and the port that the fourth reply names; what the earlier replies have left in the
buffer does not matter. -/
theorem run_downloadIt_passive {url : Bytes} {pre post : List FtpCall} {ctrlSock sock : ℕ}
    {addr : UInt32} {port : UInt16} {rt : Bool}
    (hcalls : (runDownloadIt sys fuel url).2.calls =
      .socket (some ctrlSock) :: pre ++ .connect sock addr port rt :: post)
    (hsock : sock ≠ ctrlSock) :
    (∀ sock' addr' port' rt', .connect sock' addr' port' rt' ∈ pre → addr' = addr) ∧
    (∀ ns high low behind, (heardOn ctrlSock pre)[3]? = some (pasvReply ns ++ behind) →
      ns.length = 6 → (∀ n ∈ ns, n < 256) → ns[4]? = some high → ns[5]? = some low →
      port.toNat = high * 256 + low) ∧
    (writtenOf (runDownloadIt sys fuel url).2.calls).flatten <+:
      (heardOn sock (runDownloadIt sys fuel url).2.calls).flatten ∧
    ((runDownloadIt sys fuel url).1 = .returned 0 →
      (writtenOf (runDownloadIt sys fuel url).2.calls).flatten =
        (heardOn sock (runDownloadIt sys fuel url).2.calls).flatten) := by
  have hsome : ¬(url = [] ∨ ∀ fup, ftpUrlParser url ≠ .ok fup) := by
    intro hnil
    rw [run_downloadIt_nil sys fuel hnil] at hcalls
    cases hcalls
  rw [not_or, not_forall] at hsome
  obtain ⟨hurl, fup, hparse⟩ := hsome
  obtain ⟨held, c, hat, houtcome⟩ := run_downloadIt_converse sys fuel hurl (not_not.mp hparse)
  have htells := tells_of_run hat.conversation
  -- the conversation up to the second `connect`, which it lets pass
  have hrun := hat.conversation
  rw [hcalls] at hrun
  obtain ⟨c₁, hbefore, hafter⟩ := (run_append_eq_ok _).mp hrun
  obtain ⟨c₂, hconnect, hpost⟩ := (run_cons_eq_ok _).mp hafter
  obtain ⟨c₀, hfirst, hpre⟩ := (run_cons_eq_ok _).mp hbefore
  obtain rfl := Except.ok.inj hfirst
  have htells₁ := tells_of_run hbefore
  have hctrl : c₁.ctrlSock = some ctrlSock :=
    run_invariant_of_step _ (fun _ _ _ => ctrlSock_of_step) rfl hpre
  have hne : some ctrlSock ≠ some sock := fun h => hsock (Option.some.inj h).symm
  obtain ⟨haddr, hdials⟩ := dials_of_converse hconnect
  obtain ⟨hdata, hlength, hport⟩ := hdials.resolve_left (hctrl ▸ hne)
  have hdataEnd : c.dataSock = some sock :=
    run_invariant_of_step _ (fun _ _ _ => dataSock_of_step) (dataSock_of_step hdata hconnect) hpost
  have hctrlEnd : c.ctrlSock = some ctrlSock :=
    run_invariant_of_step _ (fun _ _ _ => ctrlSock_of_step) (ctrlSock_of_step hctrl hconnect) hpost
  have hfetched := htells.fetched sock hdataEnd (hctrlEnd ▸ hne)
  refine ⟨fun sock' addr' port' rt' hmem => ?_, fun ns high low behind hreply hsix hns hhigh
    hlow => ?_, ?_, fun hzero => ?_⟩
  · have hdialled := htells₁.dialled sock' addr' port' rt' (List.mem_cons_of_mem _ hmem)
    exact Option.some.inj (hdialled.symm.trans haddr)
  · have hreplies : heardOn ctrlSock pre = c₁.replies := htells₁.replies ctrlSock hctrl
    rw [hreplies] at hreply
    rw [portNamed_pasvReply hlength hreply hns hsix hhigh hlow] at hport
    obtain rfl := Except.ok.inj hport
    have hhigh := hns high (List.mem_of_getElem? hhigh)
    have hlow := hns low (List.mem_of_getElem? hlow)
    rw [UInt16.toNat_ofNat']
    exact Nat.mod_eq_of_lt (by omega)
  · rw [hfetched, htells.written]
    exact List.prefix_append _ _
  · rw [hzero] at houtcome
    cases houtcome with
    | finished hfinished => rw [hfetched, htells.written, hfinished.pending, List.append_nil]

theorem run_downloadIt_passive_small :
    (1025 : UInt16).toNat = 4 * 256 + 1 ∧
      (writtenOf (runDownloadIt smallSystem 5 smallUrl).2.calls).flatten =
        (heardOn 4 (runDownloadIt smallSystem 5 smallUrl).2.calls).flatten := by
  have hcalls : (runDownloadIt smallSystem 5 smallUrl).2.calls =
      .socket (some 3) :: ((runDownloadIt smallSystem 5 smallUrl).2.calls.take 11).tail ++
        .connect 4 1 1025 true :: (runDownloadIt smallSystem 5 smallUrl).2.calls.drop 12 := by
    decide +kernel
  have h := run_downloadIt_passive smallSystem 5 hcalls (by decide)
  refine ⟨h.2.1 [10, 0, 0, 1, 4, 1] 4 1 (bytesOf ".") (by decide +kernel) rfl (by decide) rfl rfl,
    h.2.2.2 (by decide +kernel)⟩

end

end Daobell
