import Mathlib.Data.Finset.Range
import Daobell.Peer.Integrity
import Daobell.Peer.Log

/-!
What the peer is told that we have. The bit field that opens a connection has no
bit set, whatever is there, and the HAVE messages name what comes later. So the
peer knows of what is there as long as no connection begins when something is.
-/

namespace Daobell

open Lib

def TorrentInfo.haves (torrent : TorrentInfo) : Finset ℕ :=
  (Finset.range torrent.sh.piecesState.length).filter
    fun i => torrent.sh.piecesState[i]? = some .stateHave

@[simp] theorem TorrentInfo.mem_haves {torrent : TorrentInfo} {i : ℕ} :
    i ∈ torrent.haves ↔ torrent.Has i := by
  rw [haves, Finset.mem_filter, Finset.mem_range, Has]
  exact and_iff_right_of_imp fun h => (List.getElem?_eq_some_iff.mp h).1

/-! ### The log, as the peer reads it -/

/-- What the peer knows of when an event is past. With a bit field a connection
begins. -/
def Event.advertise (known : Finset ℕ) : Event → Finset ℕ
  | .msgSend (.bitfield bits) true =>
      (Finset.range bits.length).filter fun i => bits[i]? = some true
  | .msgSend (.haveMsg index) true => insert index.toNat known
  | _ => known

/-- The pieces that have been advertised since the last connection began. -/
def advertised (log : List Event) : Finset ℕ := log.foldl Event.advertise ∅

theorem mem_advertise_tame {e : Event} (h : e.Tame) (known : Finset ℕ) (i : ℕ) :
    i ∈ e.advertise known ↔ i ∈ known ∨ Announced [e] i := by
  have hother : (∀ index, e ≠ .msgSend (.haveMsg index) true) → e.advertise known = known →
      (i ∈ e.advertise known ↔ i ∈ known ∨ Announced [e] i) := by
    intro hne hsame
    rw [hsame, or_iff_left]
    rintro ⟨index, hmem, -⟩
    exact hne index (List.mem_singleton.mp hmem).symm
  cases e with
  | sha1Verify index valid => exact hother nofun rfl
  | msgSend msg ok =>
      cases ok with
      | false => exact hother nofun (by cases msg <;> rfl)
      | true =>
          cases msg with
          | bitfield bits => exact absurd rfl h.1
          | haveMsg index =>
              simp [Event.advertise, Announced, eq_comm, or_comm]
          | _ => exact hother nofun rfl

theorem mem_foldl_advertise {events : List Event} (h : ∀ e ∈ events, e.Tame) (known : Finset ℕ)
    (i : ℕ) :
    i ∈ events.foldl Event.advertise known ↔ i ∈ known ∨ Announced events i := by
  induction events generalizing known with
  | nil => simp [Announced]
  | cons e events ih =>
      have hcons : Announced (e :: events) i ↔ Announced [e] i ∨ Announced events i := by
        simp only [Announced, List.mem_cons, List.not_mem_nil, or_false, or_and_right, exists_or]
      rw [List.foldl_cons, ih fun e' he' => h e' (List.mem_cons_of_mem e he'),
        mem_advertise_tame (h e List.mem_cons_self), hcons, or_assoc]

theorem mem_advertised_append {log events : List Event} (h : ∀ e ∈ events, e.Tame) (i : ℕ) :
    i ∈ advertised (log ++ events) ↔ i ∈ advertised log ∨ Announced events i := by
  rw [advertised, List.foldl_append, mem_foldl_advertise h, advertised]

theorem Event.Chatter.tame {e : Event} (h : e.Chatter) : e.Tame := by
  cases e with
  | msgSend msg ok => exact ⟨h.1, h.2.2⟩
  | sha1Verify index valid => trivial

theorem advertised_start (log : List Event) (n : ℕ) {events : List Event}
    (h : ∀ e ∈ events, e.Chatter) :
    advertised (log ++ .msgSend (.bitfield (List.replicate n false)) true :: events) = ∅ := by
  have hbits : advertised (log ++ [.msgSend (.bitfield (List.replicate n false)) true]) = ∅ := by
    rw [advertised, List.foldl_append]
    apply Finset.filter_eq_empty_iff.mpr
    intro i _
    rw [List.getElem?_replicate]
    split <;> simp
  apply Finset.eq_empty_of_forall_notMem
  intro i hi
  rw [← List.singleton_append, ← List.append_assoc,
    mem_advertised_append fun e he => (h e he).tame, hbits] at hi
  exact hi.elim (Finset.notMem_empty i) (not_announced h i)

/-! ### Steps and runs -/

def Client.Advertises : Client → Prop
  | .idle _ _ _ => True
  | .connected s => s.sock.SendReliable ∧ advertised s.log = s.torrent.haves

def ConnectsBare : Client → Act ℕ → Prop
  | .idle torrent _ _, .connect _ => torrent.haves = ∅
  | _, _ => True

instance : (c : Client) → (a : Act ℕ) → Decidable (ConnectsBare c a)
  | .idle torrent _ _, .connect _ => inferInstanceAs (Decidable (torrent.haves = ∅))
  | .idle _ _ _, .receive _ | .idle _ _ _, .round | .idle _ _ _, .drop => isTrue trivial
  | .connected _, _ => isTrue trivial

/-- **One step**, by which no connection begins when something is there. -/
theorem clientStep_advertises {c c' : Client} {a : Act ℕ} (hc : c.Accounted) (h : c.Advertises)
    (hbare : ConnectsBare c a) (hsends : ∀ sock, a = .connect sock → sock.SendReliable)
    (hstep : clientStep processQueued c a = .ok c') : c'.Advertises := by
  cases c with
  | connected s =>
      obtain ⟨s', hfrom, events, hlog, htame, htells⟩ := clientStep_tells hc hstep
      rcases hfrom with rfl | rfl
      · obtain ⟨hreliable, hhas⟩ := htells h.1
        refine ⟨hreliable, ?_⟩
        ext i
        rw [hlog, mem_advertised_append htame, h.2, TorrentInfo.mem_haves, TorrentInfo.mem_haves,
          hhas]
      · trivial
  | idle torrent disk log =>
      cases a with
      | connect sock =>
          obtain ⟨c', s, ok, events, heq, -, htorrent, -, hlog, hchat, hreliable⟩ :=
            connectionStart_log hc disk log sock
          obtain ⟨rfl, hsock, rfl⟩ := hreliable (hsends sock rfl)
          cases heq.symm.trans hstep
          refine ⟨hsock, ?_⟩
          rw [hlog, advertised_start log _ hchat, htorrent]
          exact hbare.symm
      | _ =>
          cases hstep
          trivial

/-- **What is advertised.** When no send fails, then at every point of a run the
pieces that the connection has advertised are those that are there, if and only if
no connection begins when a piece is there. -/
theorem run_advertised_iff {env : Environment} {metainfo : BencodeValue} {destdir : Bytes}
    {torrent : TorrentInfo} (hinit : torrentInit env metainfo destdir = .ok torrent) (disk : Disk)
    {acts : List (Act ℕ)} (hsends : ∀ sock, .connect sock ∈ acts → sock.SendReliable) :
    (∀ k s, run (clientStep processQueued) (.idle torrent disk []) (acts.take k) =
        .ok (.connected s) → advertised s.log = s.torrent.haves) ↔
      RunMeets (clientStep processQueued) ConnectsBare (.idle torrent disk []) acts := by
  have haccounted : ∀ k c, run (clientStep processQueued) (.idle torrent disk []) (acts.take k) =
      .ok c → c.Accounted := fun k c hrun => (run_queued (accounted_torrentInit hinit) hrun).1
  constructor
  · intro h
    apply (runMeets_iff _).mpr
    intro k c a hrun ha
    cases c with
    | connected s => trivial
    | idle torrent' disk' log =>
        cases a with
        | connect sock =>
            have hmem : .connect sock ∈ acts := List.mem_of_getElem? ha
            obtain ⟨c, s, ok, events, heq, -, htorrent, -, hlog, hchat, hreliable⟩ :=
              connectionStart_log (haccounted k _ hrun) disk' log sock
            obtain ⟨rfl, -, rfl⟩ := hreliable (hsends sock hmem)
            have hnext : run (clientStep processQueued) (.idle torrent disk []) (acts.take (k + 1)) =
                .ok (.connected s) := by
              rw [List.take_add_one, ha, Option.toList_some, run_append_eq_ok]
              exact ⟨_, hrun, run_cons_of_ok _ heq []⟩
            have hadvertised := h (k + 1) s hnext
            rw [hlog, advertised_start log _ hchat, htorrent] at hadvertised
            exact hadvertised.symm
        | _ => trivial
  · intro h k s hrun
    have hmeets : RunMeets (clientStep processQueued)
        (fun c a => ConnectsBare c a ∧ ∀ sock, a = .connect sock → sock.SendReliable)
        (.idle torrent disk []) (acts.take k) := by
      apply (runMeets_iff _).mpr
      intro j c a hrun ha
      constructor
      · exact (runMeets_iff _).mp (h.take _ k) j c a hrun ha
      · rintro sock rfl
        exact hsends sock (List.mem_of_mem_take (List.mem_of_getElem? ha))
    have hstart : Client.Accounted (.idle torrent disk []) := accounted_torrentInit hinit
    obtain ⟨-, hadvertises⟩ := run_invariant _
      (I := fun c : Client => c.Accounted ∧ c.Advertises)
      (fun _ _ _ h hC hstep => ⟨clientStep_accounted h.1 hstep,
        clientStep_advertises h.1 h.2 hC.1 hC.2 hstep⟩)
      (s := .idle torrent disk []) ⟨hstart, trivial⟩ hmeets hrun
    exact hadvertises.2

theorem downloadActs_reliable {sock : Socket} (h : .connect sock ∈ downloadActs) :
    sock.SendReliable := by
  have hsock : sock = insistentPeer := by
    simpa [downloadActs] using h
  rw [hsock]
  exact List.not_mem_nil

/-- The peer sends the second piece when asked, and is told that it is there. -/
theorem run_advertised_download :
    ∃ s, run (clientStep processQueued) (.idle twoPieces blankDisk []) downloadActs =
        .ok (.connected s) ∧ s.torrent.haves = {1} ∧ advertised s.log = s.torrent.haves := by
  obtain ⟨c, hrun, s, hs, hhaves⟩ : ∃ c, run (clientStep processQueued)
      (.idle twoPieces blankDisk []) downloadActs = .ok c ∧
        ∃ s ∈ c.session?, s.torrent.haves = {1} := by
    decide +kernel
  rw [Client.mem_session?.mp hs] at hrun
  exact ⟨s, hrun, hhaves, (run_advertised_iff torrentInit_twoPieces blankDisk
    fun _ => downloadActs_reliable).mpr (by decide +kernel) downloadActs.length s
      (by rwa [List.take_length])⟩

/-- The next peer is not told of it. -/
theorem run_unadvertised :
    torrentInit quietEnvironment twoPiecesMetainfo [] = .ok twoPieces ∧
      (∀ sock, .connect sock ∈ downloadActs ++ [.drop, .connect ⟨[], [], [], []⟩] →
        sock.SendReliable) ∧
      ∃ s, run (clientStep processQueued) (.idle twoPieces blankDisk [])
          (downloadActs ++ [.drop, .connect ⟨[], [], [], []⟩]) = .ok (.connected s) ∧
        s.torrent.haves = {1} ∧ advertised s.log = ∅ := by
  refine ⟨torrentInit_twoPieces, ?_, ?_⟩
  · intro sock h
    rcases List.mem_append.mp h with h | h
    · exact downloadActs_reliable h
    · have hsock : sock = ⟨[], [], [], []⟩ := by
        simpa using h
      rw [hsock]
      exact List.not_mem_nil
  · obtain ⟨c, hrun, s, hs, hadvertised⟩ : ∃ c, run (clientStep processQueued)
        (.idle twoPieces blankDisk []) (downloadActs ++ [.drop, .connect ⟨[], [], [], []⟩]) =
          .ok c ∧ ∃ s ∈ c.session?, s.torrent.haves = {1} ∧ advertised s.log = ∅ := by
      decide +kernel
    rw [Client.mem_session?.mp hs] at hrun
    exact ⟨s, hrun, hadvertised⟩

end Daobell
